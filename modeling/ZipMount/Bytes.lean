/-!
# Byte strings and little-endian fields

A container is a list of bytes.  Its headers are made of unsigned fields of a fixed number of bytes,
least significant byte first.  `Bytes.le` writes such a field and `Bytes.value` reads it.
-/

namespace ZipMount

/-- A finite string of bytes. -/
abbrev Bytes := List UInt8

namespace Bytes

/-- The `k` lowest bytes of `n`, least significant first; higher bytes of `n` are dropped. -/
def le : Nat → Nat → Bytes
  | 0, _ => []
  | k + 1, n => UInt8.ofNat n :: le k (n / 256)

/-- The number whose little-endian bytes are given. -/
def value : Bytes → Nat
  | [] => 0
  | b :: bs => b.toNat + 256 * value bs

@[simp] theorem length_le (k n : Nat) : (le k n).length = k := by
  induction k generalizing n <;> simp [le, *]

/-- Writing the number of a field gives the field back. -/
theorem le_value (bs : Bytes) : le bs.length (value bs) = bs := by
  induction bs with
  | nil => rfl
  | cons b bs ih =>
    have hb : b.toNat < 256 := b.toNat_lt
    have hd : (b.toNat + 256 * value bs) / 256 = value bs := by omega
    have hm : UInt8.ofNat (b.toNat + 256 * value bs) = b := by
      apply UInt8.toNat.inj
      simp only [UInt8.toNat_ofNat']
      omega
    simp [le, value, hd, hm, ih]

end Bytes

end ZipMount
