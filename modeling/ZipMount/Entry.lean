import ZipMount.Checksum
import ZipMount.Error
import ZipMount.Entry.Descriptor
import ZipMount.Entry.Method

/-!
# Entries

An `Entry` is what the header says about a member of a container.  A `Record` is the part of it that
is reported.  `Entry.check` compares what was read of a payload with what is recorded for it.
-/

namespace ZipMount

/-- The facts reported about an entry. -/
structure Record where
  name : String
  /-- The uncompressed size, unless it is known only after the payload. -/
  declaredSize : Option Nat
  /-- The compressed size, unless it is known only after the payload. -/
  compressedSize : Option Nat
  /-- The recorded checksum, zero if it is known only after the payload. -/
  crc32 : UInt32
  method : Method
  deriving DecidableEq, Repr

/-- Directories are the entries whose name ends with a slash. -/
def Record.isDirectory (r : Record) : Bool :=
  r.name.toList.getLast? = some '/'

/-- What the header says about an entry. -/
structure Entry where
  name : String
  method : Method
  declaredSize : Option Nat
  compressedSize : Option Nat
  expectedCrc : Option UInt32
  /-- The width of the descriptor that follows the payload, if one does. -/
  descriptor : Option SizeWidth
  /-- Why the payload cannot be read, if it cannot. -/
  refusal : Option Feature
  deriving DecidableEq, Repr

namespace Entry

/-- The reported part of an entry. -/
def record (e : Entry) : Record where
  name := e.name
  declaredSize := e.declaredSize
  compressedSize := e.compressedSize
  crc32 := e.expectedCrc.getD 0
  method := e.method

/-- The entry with the facts of the descriptor that follows its payload. -/
def describedBy (e : Entry) (d : Descriptor) : Entry :=
  { e with expectedCrc := some (UInt32.ofNat d.crc32), declaredSize := some d.uncompressed }

/-- Accepts a payload of the given checksum and length if both are as recorded; the length is
compared first. -/
def check (e : Entry) (crc : UInt32) (held : Nat) : Except Fault Unit := do
  if let some declared := e.declaredSize then
    if declared ≠ held then
      throw (.invalidArchive (.length e.name declared held))
  if let some expected := e.expectedCrc then
    if expected ≠ crc then
      throw (.checksumMismatch e.name expected crc)

end Entry

end ZipMount
