/-!
# Compression methods

The header of an entry names its compression method by a 16-bit code.  Two codes have a decoder.
-/

namespace ZipMount

/-- How the payload of an entry is encoded. -/
inductive Method
  | stored
  | deflated
  | other (code : Nat)
  deriving DecidableEq, Repr

namespace Method

/-- The method with the given code. -/
def ofCode : Nat → Method
  | 0 => .stored
  | 8 => .deflated
  | code => .other code

/-- The code of a method. -/
def code : Method → Nat
  | .stored => 0
  | .deflated => 8
  | .other code => code

@[simp] theorem code_ofCode (code : Nat) : (ofCode code).code = code := by
  unfold ofCode
  split <;> rfl

end Method

end ZipMount
