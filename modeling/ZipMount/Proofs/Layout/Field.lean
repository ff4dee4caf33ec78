import Mathlib
import ZipMount.Reader

/-!
# Fields and the numbers they hold

A field of `k` bytes holds a number below `256 ^ k`, and every such number reads back from its field.
What a reader gives is settled by how many bytes there are: with enough of them it takes those in
front (`field_of_le`), and without it fails (`field_of_lt`).
-/

namespace ZipMount

namespace Bytes

/-- A field holds its number modulo the size of the field. -/
lemma value_le (k n : Nat) : value (le k n) = n % 256 ^ k := by
  induction k generalizing n with
  | zero => simp [le, value, Nat.mod_one]
  | succ k ih =>
    simp only [le, value, UInt8.toNat_ofNat', ih]
    rw [Nat.pow_succ (n := 256), Nat.mul_comm (256 ^ k) 256, Nat.mod_mul]

/-- A field whose number fits reads back as that number. -/
lemma value_le_of_lt {k n : Nat} (h : n < 256 ^ k) : value (le k n) = n := by
  rw [value_le, Nat.mod_eq_of_lt h]

/-- A field of `k` bytes holds a number below `256 ^ k`. -/
lemma value_lt (bs : Bytes) : value bs < 256 ^ bs.length := by
  induction bs with
  | nil => simp [value]
  | cons b bs ih =>
    have hb : b.toNat < 256 := b.toNat_lt
    simp only [value, List.length_cons, Nat.pow_succ]
    omega

end Bytes

namespace Reader

variable {k : Nat} {input : Bytes}

/-- With enough bytes, a field holds the number of those in front. -/
lemma field_of_le (h : k ≤ input.length) :
    field k input = .ok (Bytes.value (input.take k), input.drop k) :=
  bind_of_ok (bytes_of_le h)

/-- Without enough bytes, there is no field. -/
lemma field_of_lt (h : input.length < k) : field k input = .error .shortField :=
  bind_of_error (bytes_of_lt h)

/-- A field whose number fits reads back as that number. -/
lemma field_le {n : Nat} (h : n < 256 ^ k) (rest : Bytes) :
    field k (Bytes.le k n ++ rest) = .ok (n, rest) := by
  have hb : bytes k (Bytes.le k n ++ rest) = .ok (Bytes.le k n, rest) :=
    bytes_eq_ok_iff.2 ⟨rfl, Bytes.length_le k n⟩
  have hfield : field k (Bytes.le k n ++ rest) = .ok (Bytes.value (Bytes.le k n), rest) :=
    bind_of_ok hb
  rw [hfield, Bytes.value_le_of_lt h]

end Reader

end ZipMount
