import ZipMount.Bytes

/-!
# The central directory

A container ends with a directory: one record per entry, which says where the entry begins and
repeats what is known of it, and an end record, which says where the directory is.
-/

namespace ZipMount

/-- A record of the central directory. -/
structure DirectoryRecord where
  flags : Nat
  method : Nat
  crc32 : Nat
  compressed : Nat
  uncompressed : Nat
  /-- Where the local header of the entry begins. -/
  offset : Nat
  name : Bytes
  deriving DecidableEq, Repr

namespace DirectoryRecord

/-- The word that opens a directory record. -/
def signature : Nat := 0x02014b50

/-- The version of the format that is written, and needed for reading. -/
def version : Nat := 20

/-- The date that every entry carries: the first day of 1980. -/
def date : Nat := 0x21

/-- The attributes of an entry: a directory is marked as such. -/
def attributes (name : Bytes) : Nat :=
  if name.getLast? = some '/'.toUInt8 then 0x10 else 0

/-- The bytes of a record. -/
def encode (r : DirectoryRecord) : Bytes :=
  Bytes.le 4 signature ++ Bytes.le 2 version ++ Bytes.le 2 version ++ Bytes.le 2 r.flags ++
    Bytes.le 2 r.method ++ Bytes.le 2 0 ++ Bytes.le 2 date ++ Bytes.le 4 r.crc32 ++
    Bytes.le 4 r.compressed ++ Bytes.le 4 r.uncompressed ++ Bytes.le 2 r.name.length ++
    Bytes.le 2 0 ++ Bytes.le 2 0 ++ Bytes.le 2 0 ++ Bytes.le 2 0 ++
    Bytes.le 4 (attributes r.name) ++ Bytes.le 4 r.offset ++ r.name

end DirectoryRecord

/-- The record at the very end of a container. -/
structure EndRecord where
  /-- The number of entries. -/
  count : Nat
  /-- The number of bytes of the directory. -/
  size : Nat
  /-- Where the directory begins. -/
  offset : Nat
  deriving DecidableEq, Repr

namespace EndRecord

/-- The word that opens the end record. -/
def signature : Nat := 0x06054b50

/-- The bytes of the end record. -/
def encode (r : EndRecord) : Bytes :=
  Bytes.le 4 signature ++ Bytes.le 2 0 ++ Bytes.le 2 0 ++ Bytes.le 2 r.count ++
    Bytes.le 2 r.count ++ Bytes.le 4 r.size ++ Bytes.le 4 r.offset ++ Bytes.le 2 0

end EndRecord

end ZipMount
