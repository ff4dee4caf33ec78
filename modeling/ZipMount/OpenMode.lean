import ZipMount.Error

/-!
# Open modes

A host asks for one of four modes.  Every mode yields a read-only handle; the writing ones are
accepted so that a host which always asks for `rw` can read.
-/

namespace ZipMount

/-- The access a host asks for. -/
inductive OpenMode
  | read
  | readWrite
  | readWriteSync
  | readWriteData
  deriving DecidableEq, Repr

namespace OpenMode

/-- The mode asked for when nothing is said. -/
def standard : OpenMode := .read

/-- The written form of a mode. -/
def text : OpenMode → String
  | .read => "r"
  | .readWrite => "rw"
  | .readWriteSync => "rws"
  | .readWriteData => "rwd"

/-- All modes. -/
def all : List OpenMode :=
  [.read, .readWrite, .readWriteSync, .readWriteData]

/-- The mode with the given written form. -/
def parse (mode : String) : Except Error OpenMode :=
  match all.find? (·.text = mode) with
  | some m => .ok m
  | none => .error (.fault (.invalidMode mode))

/-- Each mode is read from its written form. -/
theorem parse_text (m : OpenMode) : parse m.text = .ok m := by
  cases m <;> rfl

end OpenMode

end ZipMount
