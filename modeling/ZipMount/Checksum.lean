import ZipMount.Bytes

/-!
# The checksum of an entry

Entries are protected by the 32-bit cyclic redundancy check with the reflected polynomial
`0xEDB88320`.  The register is advanced byte by byte, so the checksum of a payload does not depend
on the pieces in which it arrives: `Checksum.advance` over a concatenation is the composition of the
advances.
-/

namespace ZipMount

namespace Checksum

/-- One bit step of the register: shift right, and fold the polynomial in when a one falls out. -/
def shift (register : UInt32) : UInt32 :=
  if register &&& 1 = 1 then (register >>> 1) ^^^ 0xEDB88320 else register >>> 1

/-- The register after the eight bit steps that a byte value causes. -/
def remainder (value : UInt8) : UInt32 :=
  shift (shift (shift (shift (shift (shift (shift (shift value.toUInt32)))))))

/-- The remainders of all byte values, in order. -/
def table : Array UInt32 :=
  Array.ofFn fun i : Fin 256 => remainder (UInt8.ofNat i.val)

/-- One byte step of the register. -/
def step (register : UInt32) (b : UInt8) : UInt32 :=
  (table[((register ^^^ b.toUInt32) &&& 0xFF).toNat]?.getD 0) ^^^ (register >>> 8)

/-- The register before the first byte. -/
def start : UInt32 := 0xFFFFFFFF

/-- The register after further bytes. -/
def advance (register : UInt32) (bytes : Bytes) : UInt32 :=
  bytes.foldl step register

/-- The checksum that a register stands for. -/
def finish (register : UInt32) : UInt32 :=
  register ^^^ 0xFFFFFFFF

@[simp] theorem advance_nil (register : UInt32) : advance register [] = register := rfl

@[simp] theorem advance_append (register : UInt32) (a b : Bytes) :
    advance register (a ++ b) = advance (advance register a) b := by
  simp [advance]

end Checksum

/-- The checksum of a byte string. -/
def crc32 (bytes : Bytes) : UInt32 :=
  Checksum.finish (Checksum.advance Checksum.start bytes)

end ZipMount
