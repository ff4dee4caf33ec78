import ZipMount.Reader

/-!
# Extra fields

The header of an entry ends with a list of extra fields, each a tag, a length and that many bytes.
`ExtraField.all` lists the complete fields up to the first one that is cut short.  The field with
tag 1 holds the sizes that do not fit the header: one eight-byte number for each size that the
header marks, the uncompressed size first.
-/

namespace ZipMount

/-- A tagged piece of a header. -/
structure ExtraField where
  tag : Nat
  data : Bytes
  deriving DecidableEq, Repr

namespace ExtraField

/-- The bytes of a field. -/
def encode (f : ExtraField) : Bytes :=
  Bytes.le 2 f.tag ++ Bytes.le 2 f.data.length ++ f.data

/-- The field at the front of the input. -/
def read : Reader ExtraField := do
  let tag ← Reader.field 2
  let size ← Reader.field 2
  let data ← Reader.bytes size
  return { tag, data }

/-- The complete fields at the front of the input, reading at most `limit` of them. -/
def upTo : Nat → Bytes → List ExtraField
  | 0, _ => []
  | limit + 1, input =>
    match read input with
    | .error _ => []
    | .ok (f, rest) => f :: upTo limit rest

/-- The complete fields at the front of the input; there are no more of them than bytes. -/
def all (input : Bytes) : List ExtraField :=
  upTo input.length input

end ExtraField

/-- The value of a header size that says that the size is in the zip64 field. -/
def sizeMarker : Nat := 0xFFFFFFFF

/-- The tag of the field that holds sizes too large for the header. -/
def zip64Tag : Nat := 1

/-- A size of the header, or the next one of the zip64 field if the header marks it. -/
def resolveSize (headerSize : Nat) : Reader Nat :=
  if headerSize = sizeMarker then Reader.field 8 else pure headerSize

/-- The uncompressed and the compressed size, in this order. -/
def resolveSizes (uncompressed compressed : Nat) : Reader (Nat × Nat) := do
  let u ← resolveSize uncompressed
  let c ← resolveSize compressed
  return (u, c)

/-- The sizes of an entry of which the header marks at least one: those in the first zip64 field
among the extra fields. -/
def zip64Sizes (extra : Bytes) (uncompressed compressed : Nat) : Except Error (Nat × Nat) :=
  match (ExtraField.all extra).find? (·.tag = zip64Tag) with
  | none => .error (.fault (.invalidArchive .zip64FieldMissing))
  | some f =>
    match resolveSizes uncompressed compressed f.data with
    | .ok (sizes, _) => .ok sizes
    | .error e => .error (.io e)

end ZipMount
