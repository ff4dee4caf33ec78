import ZipMount.Entry
import ZipMount.Entry.ExtraField
import ZipMount.Text.Utf8

/-!
# Local headers

Each entry of a container begins with a local header: a signature, fields of fixed size, the name
and the extra fields.  `LocalHeader.encode` writes a header, `LocalHeader.read` reads one back, and
`LocalHeader.entry` works out what it says about the entry: where the sizes come from, whether a
descriptor follows the payload, and whether the payload can be read.
-/

namespace ZipMount

/-- The fields of a local header. -/
structure LocalHeader where
  version : Nat
  flags : Nat
  method : Nat
  modTime : Nat
  modDate : Nat
  crc32 : Nat
  compressed : Nat
  uncompressed : Nat
  name : Bytes
  extra : Bytes
  deriving DecidableEq, Repr

namespace LocalHeader

/-- The word that opens a local header. -/
def signature : Nat := 0x04034b50

/-- The words that end the run of entries: the directory, its end record and its zip64 end record. -/
def endSignatures : List Nat := [0x02014b50, 0x06054b50, 0x06064b50]

/-- The bytes of a header after its signature. -/
def fields (h : LocalHeader) : Bytes :=
  Bytes.le 2 h.version ++ Bytes.le 2 h.flags ++ Bytes.le 2 h.method ++
    Bytes.le 2 h.modTime ++ Bytes.le 2 h.modDate ++ Bytes.le 4 h.crc32 ++
    Bytes.le 4 h.compressed ++ Bytes.le 4 h.uncompressed ++
    Bytes.le 2 h.name.length ++ Bytes.le 2 h.extra.length ++ h.name ++ h.extra

/-- The bytes of a header. -/
def encode (h : LocalHeader) : Bytes :=
  Bytes.le 4 signature ++ h.fields

/-- The header whose signature has just been read. -/
def read : Reader LocalHeader := do
  let version ← Reader.field 2
  let flags ← Reader.field 2
  let method ← Reader.field 2
  let modTime ← Reader.field 2
  let modDate ← Reader.field 2
  let crc32 ← Reader.field 4
  let compressed ← Reader.field 4
  let uncompressed ← Reader.field 4
  let nameLength ← Reader.field 2
  let extraLength ← Reader.field 2
  let name ← Reader.bytes nameLength
  let extra ← Reader.bytes extraLength
  return { version, flags, method, modTime, modDate, crc32, compressed, uncompressed, name, extra }

/-- Whether the payload is encrypted. -/
def isEncrypted (h : LocalHeader) : Bool := h.flags.testBit 0

/-- Whether a descriptor follows the payload. -/
def hasDescriptor (h : LocalHeader) : Bool := h.flags.testBit 3

/-- Whether the name is promised to be UTF-8. -/
def hasUtf8Name (h : LocalHeader) : Bool := h.flags.testBit 11

/-- Whether a size is marked as being in the zip64 field. -/
def isZip64 (h : LocalHeader) : Bool :=
  h.uncompressed = sizeMarker || h.compressed = sizeMarker

/-- The name of the entry; a name not promised to be UTF-8 is always accepted. -/
def entryName (h : LocalHeader) : Except Error String :=
  if h.hasUtf8Name then
    match Utf8.decode? h.name with
    | some name => .ok name
    | none => .error (.fault (.invalidArchive .nameNotText))
  else .ok (Utf8.decodeLossy h.name)

/-- The uncompressed and the compressed size that the header and its extra fields give. -/
def sizes (h : LocalHeader) : Except Error (Nat × Nat) :=
  if h.isZip64 then zip64Sizes h.extra h.uncompressed h.compressed
  else .ok (h.uncompressed, h.compressed)

/-- Why the payload of the entry of the given name cannot be read, if it cannot. -/
def refusal (h : LocalHeader) (name : String) : Option Feature :=
  if h.isEncrypted then some (.encryption name)
  else
    match Method.ofCode h.method with
    | .other code => some (.method name code)
    | _ => none

/-- What the header says about the entry, given its name and sizes.  Before a descriptor, sizes are
placeholders; only a compressed size other than zero is believed. -/
def describe (h : LocalHeader) (name : String) (uncompressed compressed : Nat) : Entry :=
  { name
    method := Method.ofCode h.method
    declaredSize := if h.hasDescriptor then none else some uncompressed
    compressedSize := if h.hasDescriptor && compressed = 0 then none else some compressed
    expectedCrc := if h.hasDescriptor then none else some (UInt32.ofNat h.crc32)
    descriptor :=
      if h.hasDescriptor then some (if h.isZip64 then .eight else .four) else none
    refusal := h.refusal name }

/-- Refuses an entry whose end cannot be found: without a compressed size, the payload has to be a
deflate stream that can be decoded. -/
def delimited (e : Entry) : Except Error Entry :=
  if e.compressedSize.isSome then .ok e
  else if e.refusal.isSome then .error (.fault (.unsupportedArchive (.unskippable e.name)))
  else if e.method = .stored then
    .error (.fault (.unsupportedArchive (.unsizedStored e.name)))
  else .ok e

/-- What the header says about the entry. -/
def entry (h : LocalHeader) : Except Error Entry := do
  let name ← h.entryName
  let (uncompressed, compressed) ← h.sizes
  delimited (h.describe name uncompressed compressed)

end LocalHeader

end ZipMount
