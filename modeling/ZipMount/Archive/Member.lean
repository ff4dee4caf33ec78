import ZipMount.Archive.Directory
import ZipMount.Entry.LocalHeader

/-!
# Members of an archive

A member is a named payload together with the way it is to be laid out: stored or deflated, with its
sizes in the header or in a descriptor behind the payload.  `Member.layout` is the one place where
the ways differ; header, descriptor and directory record are all written from it.  Which bytes a
deflated payload comes to is up to the encoder, so that is a parameter.
-/

namespace ZipMount

/-- Something to be put into an archive. -/
inductive Member
  /-- Stored, with the sizes in the header. -/
  | stored (name : String) (data : Bytes)
  /-- Deflated, with the sizes in the header. -/
  | deflated (name : String) (data : Bytes)
  /-- Deflated, with the sizes in a signed descriptor. -/
  | streamed (name : String) (data : Bytes)
  /-- Deflated, with the sizes in a descriptor without a signature. -/
  | streamedUnsigned (name : String) (data : Bytes)
  /-- A directory; its name is made to end with a slash. -/
  | directory (name : String)
  /-- A payload that is encoded already, without a checksum. -/
  | raw (name : String) (method : Nat) (payload : Bytes) (size : Nat)
  deriving DecidableEq, Repr

/-- Where the sizes and the checksum of a member are written. -/
inductive SizesIn
  | header
  | descriptor (signed : Bool)
  deriving DecidableEq, Repr

/-- How a member is written. -/
structure Layout where
  name : Bytes
  method : Nat
  crc32 : Nat
  payload : Bytes
  /-- The uncompressed size. -/
  size : Nat
  sizesIn : SizesIn
  deriving DecidableEq, Repr

namespace Member

/-- The name made to end with a slash. -/
def directoryName (name : String) : String :=
  if name.toList.getLast? = some '/' then name else name ++ "/"

/-- How the member is written, given an encoder of deflate streams. -/
def layout (deflate : Bytes → Bytes) : Member → Layout
  | stored name data =>
    ⟨Utf8.encode name, 0, (ZipMount.crc32 data).toNat, data, data.length, .header⟩
  | deflated name data =>
    ⟨Utf8.encode name, 8, (ZipMount.crc32 data).toNat, deflate data, data.length, .header⟩
  | streamed name data =>
    ⟨Utf8.encode name, 8, (ZipMount.crc32 data).toNat, deflate data, data.length,
      .descriptor true⟩
  | streamedUnsigned name data =>
    ⟨Utf8.encode name, 8, (ZipMount.crc32 data).toNat, deflate data, data.length,
      .descriptor false⟩
  | directory name => ⟨Utf8.encode (directoryName name), 0, 0, [], 0, .header⟩
  | raw name method payload size => ⟨Utf8.encode name, method, 0, payload, size, .header⟩

end Member

namespace Layout

/-- The flags of the header: names are UTF-8, and a descriptor is announced. -/
def flags (l : Layout) : Nat :=
  match l.sizesIn with
  | .header => 0x800
  | .descriptor _ => 0x808

/-- The local header; sizes and checksum are zero when a descriptor has them. -/
def header (l : Layout) : LocalHeader :=
  let blank : LocalHeader :=
    { version := DirectoryRecord.version
      flags := l.flags
      method := l.method
      modTime := 0
      modDate := DirectoryRecord.date
      crc32 := 0
      compressed := 0
      uncompressed := 0
      name := l.name
      extra := [] }
  match l.sizesIn with
  | .header =>
    { blank with crc32 := l.crc32, compressed := l.payload.length, uncompressed := l.size }
  | .descriptor _ => blank

/-- The bytes after the payload. -/
def trailer (l : Layout) : Bytes :=
  let d : Descriptor := ⟨l.crc32, l.payload.length, l.size⟩
  match l.sizesIn with
  | .header => []
  | .descriptor true => d.encodeSigned .four
  | .descriptor false => d.encodeUnsigned .four

/-- The bytes of the member in front of the directory. -/
def segment (l : Layout) : Bytes :=
  l.header.encode ++ l.payload ++ l.trailer

/-- The directory record of a member that begins at the given offset. -/
def record (l : Layout) (offset : Nat) : DirectoryRecord where
  flags := l.flags
  method := l.method
  crc32 := l.crc32
  compressed := l.payload.length
  uncompressed := l.size
  offset := offset
  name := l.name

end Layout

end ZipMount
