import ZipMount.Reader

/-!
# Data descriptors

An entry written before its size was known is followed by a descriptor: an optional signature, the
checksum, the compressed and the uncompressed size.  The sizes take four bytes each, or eight when
the header of the entry marks a size as zip64.  Nothing but its value tells a signature from a
checksum, so a descriptor that omits its signature is read back only if its checksum differs from
the signature.
-/

namespace ZipMount

/-- The width of the size fields of a descriptor. -/
inductive SizeWidth
  | four
  | eight
  deriving DecidableEq, Repr

/-- The number of bytes of a size field. -/
def SizeWidth.bytes : SizeWidth → Nat
  | .four => 4
  | .eight => 8

/-- The facts about an entry that are known only after its payload. -/
structure Descriptor where
  crc32 : Nat
  compressed : Nat
  uncompressed : Nat
  deriving DecidableEq, Repr

namespace Descriptor

/-- The word that may open a descriptor. -/
def signature : Nat := 0x08074b50

/-- The bytes of a descriptor without its optional signature. -/
def encodeUnsigned (w : SizeWidth) (d : Descriptor) : Bytes :=
  Bytes.le 4 d.crc32 ++ Bytes.le w.bytes d.compressed ++ Bytes.le w.bytes d.uncompressed

/-- The bytes of a descriptor with its signature. -/
def encodeSigned (w : SizeWidth) (d : Descriptor) : Bytes :=
  Bytes.le 4 signature ++ d.encodeUnsigned w

/-- The descriptor at the front of the input; a first word equal to the signature is taken for it. -/
def read (w : SizeWidth) : Reader Descriptor := do
  let first ← Reader.field 4
  let crc32 ← if first = signature then Reader.field 4 else pure first
  let compressed ← Reader.field w.bytes
  let uncompressed ← Reader.field w.bytes
  return { crc32, compressed, uncompressed }

end Descriptor

end ZipMount
