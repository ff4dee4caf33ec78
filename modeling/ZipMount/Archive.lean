import ZipMount.Archive.Member
import ZipMount.Deflate.Encode

/-!
# Writing archives

An archive is a list of members.  Its bytes are the segments of the members in order, the directory
with one record per member in the same order, and the end record.  `Archive.write` does this with any
encoder of deflate streams, and `Archive.encode` with the one that writes stored blocks.
-/

namespace ZipMount

/-- Members in the order in which they are written. -/
abbrev Archive := List Member

namespace Archive

/-- How the members are written. -/
def layouts (deflate : Bytes → Bytes) (a : Archive) : List Layout :=
  a.map (Member.layout deflate)

/-- The directory records of members of which the first begins at the given offset. -/
def recordsFrom : Nat → List Layout → List DirectoryRecord
  | _, [] => []
  | offset, l :: ls => l.record offset :: recordsFrom (offset + l.segment.length) ls

/-- The segments of all members. -/
def body (deflate : Bytes → Bytes) (a : Archive) : Bytes :=
  (a.layouts deflate).flatMap Layout.segment

/-- The directory. -/
def directory (deflate : Bytes → Bytes) (a : Archive) : Bytes :=
  (recordsFrom 0 (a.layouts deflate)).flatMap DirectoryRecord.encode

/-- The end record. -/
def endRecord (deflate : Bytes → Bytes) (a : Archive) : EndRecord where
  count := a.length
  size := (a.directory deflate).length
  offset := (a.body deflate).length

/-- The bytes of the archive. -/
def write (deflate : Bytes → Bytes) (a : Archive) : Bytes :=
  a.body deflate ++ a.directory deflate ++ (a.endRecord deflate).encode

/-- The bytes of the archive with deflated payloads as stored blocks. -/
def encode (a : Archive) : Bytes :=
  a.write Deflate.encode

end Archive

end ZipMount
