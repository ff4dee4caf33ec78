import ZipMount.Bytes
import ZipMount.Error

/-!
# Reading fields off the front of a byte string

A `Reader` consumes bytes from the front of its input or fails because the input is too short.  The
lemmas say that a reader of `n` bytes succeeds exactly when there are `n` bytes, and then splits the
input there; and that readers in sequence go on with what is left, as long as none of them fails.
-/

namespace ZipMount

/-- A computation that consumes bytes from the front of its input. -/
abbrev Reader := StateT Bytes (Except IoError)

namespace Reader

/-- The next `n` bytes. -/
def bytes (n : Nat) : Reader Bytes := fun input =>
  let front := input.take n
  if front.length = n then .ok (front, input.drop n) else .error .shortField

/-- The number in the next field of `k` bytes. -/
def field (k : Nat) : Reader Nat := do
  return Bytes.value (← bytes k)

/-- A reader of as many bytes as come first takes exactly those. -/
theorem bytes_append (a b : Bytes) : bytes a.length (a ++ b) = .ok (a, b) := by
  simp [bytes]

/-- A reader takes the front of its input, and never fails when the input is long enough. -/
theorem bytes_eq_ok_iff {n : Nat} {input front rest : Bytes} :
    bytes n input = .ok (front, rest) ↔ input = front ++ rest ∧ front.length = n := by
  constructor
  · intro h
    simp only [bytes] at h
    split at h
    · rename_i hn
      cases h
      exact ⟨(List.take_append_drop n input).symm, hn⟩
    · cases h
  · rintro ⟨rfl, rfl⟩
    exact bytes_append front rest

/-- A reader fails exactly on inputs that are too short. -/
theorem bytes_eq_error_iff {n : Nat} {input : Bytes} {e : IoError} :
    bytes n input = .error e ↔ input.length < n ∧ e = .shortField := by
  simp only [bytes, List.length_take]
  split
  · constructor
    · intro h; cases h
    · rintro ⟨h, _⟩; omega
  · constructor
    · intro h; cases h; exact ⟨by omega, rfl⟩
    · rintro ⟨_, rfl⟩; rfl

/-- With enough bytes, those in front are taken. -/
theorem bytes_of_le {n : Nat} {input : Bytes} (h : n ≤ input.length) :
    bytes n input = .ok (input.take n, input.drop n) :=
  bytes_eq_ok_iff.mpr ⟨(List.take_append_drop n input).symm, List.length_take_of_le h⟩

/-- Without enough bytes, none are taken. -/
theorem bytes_of_lt {n : Nat} {input : Bytes} (h : input.length < n) :
    bytes n input = .error .shortField :=
  bytes_eq_error_iff.mpr ⟨h, rfl⟩

/-- After a reader that succeeds, the next one goes on with what is left. -/
theorem bind_of_ok {α β : Type} {r : Reader α} {f : α → Reader β} {input rest : Bytes} {a : α}
    (h : r input = .ok (a, rest)) : (r >>= f) input = f a rest := by
  simp only [bind, StateT.bind, h, Except.bind]

/-- After a reader that fails, nothing is read. -/
theorem bind_of_error {α β : Type} {r : Reader α} {f : α → Reader β} {input : Bytes} {e : IoError}
    (h : r input = .error e) : (r >>= f) input = .error e := by
  simp only [bind, StateT.bind, h, Except.bind]

end Reader

end ZipMount
