import ZipMount.Bytes

/-!
# Reading bits

A deflate stream is read bit by bit, lowest bit of each byte first.  A `BitCursor` holds the bits of
the current byte that are still unread and the bytes after it, so the place where the stream ends is
a place between two bytes whatever the number of bits read from the last one.

Reading halts when the bytes run out or when the bits make no sense; `Halt` tells the two apart,
because more bytes can mend only the first.
-/

namespace ZipMount

namespace Deflate

/-- A place in a bit stream. -/
structure BitCursor where
  /-- The unread bits of the current byte. -/
  loose : List Bool
  /-- The bytes after the current one. -/
  rest : Bytes
  deriving Repr

/-- Why decoding cannot go on. -/
inductive Halt
  /-- The bytes have run out. -/
  | starved
  /-- The bits stand for nothing. -/
  | corrupt
  deriving DecidableEq, Repr

/-- A computation that consumes bits. -/
abbrev BitReader := StateT BitCursor (Except Halt)

/-- The bits of a byte, lowest first. -/
def bitsOf (b : UInt8) : List Bool :=
  let n := b.toNat
  [n.testBit 0, n.testBit 1, n.testBit 2, n.testBit 3,
    n.testBit 4, n.testBit 5, n.testBit 6, n.testBit 7]

namespace BitCursor

/-- The place before the first bit of the given bytes. -/
def start (bytes : Bytes) : BitCursor := ⟨[], bytes⟩

/-- The number of unread bits. -/
def unread (c : BitCursor) : Nat :=
  c.loose.length + 8 * c.rest.length

end BitCursor

/-- Gives up because the bits stand for nothing. -/
def corrupt {α : Type} : BitReader α := fun _ => .error .corrupt

/-- The next bit. -/
def bit : BitReader Bool
  | ⟨b :: loose, rest⟩ => .ok (b, ⟨loose, rest⟩)
  | ⟨[], byte :: rest⟩ => .ok (byte.toNat.testBit 0, ⟨(bitsOf byte).tail, rest⟩)
  | ⟨[], []⟩ => .error .starved

/-- The number whose `n` bits come next, lowest bit first. -/
def bits : Nat → BitReader Nat
  | 0 => pure 0
  | n + 1 => do
    let low ← bit
    let high ← bits n
    return low.toNat + 2 * high

/-- Passes over the unread bits of the current byte. -/
def align : BitReader Unit := fun c => .ok ((), ⟨[], c.rest⟩)

/-- The number in the next `k` whole bytes, lowest byte first; unread bits before them are passed
over. -/
def wholeField (k : Nat) : BitReader Nat := fun c =>
  let front := c.rest.take k
  if front.length = k then .ok (Bytes.value front, ⟨[], c.rest.drop k⟩) else .error .starved

/-- Reading a bit uses up exactly one. -/
theorem unread_bit {c c' : BitCursor} {b : Bool} (h : bit c = .ok (b, c')) :
    c.unread = c'.unread + 1 := by
  match c, h with
  | ⟨_ :: loose, rest⟩, h =>
    cases h
    simp only [BitCursor.unread, List.length_cons]
    omega
  | ⟨[], byte :: rest⟩, h =>
    cases h
    simp only [BitCursor.unread, bitsOf, List.tail_cons, List.length_cons, List.length_nil]
    omega

end Deflate

end ZipMount
