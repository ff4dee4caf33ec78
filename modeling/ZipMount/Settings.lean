import ZipMount.Error

/-!
# Settings

The tunables of the file system.  Settings that come from outside are checked before they are used:
each of the three sizes has a least value.
-/

namespace ZipMount

/-- The tunables of the file system. -/
structure Settings where
  /-- The size of the buffer between a container and its reader. -/
  ioBufferSize : Nat
  /-- How many bytes are passed over at once to measure an entry. -/
  sizeProbeChunk : Nat
  /-- How many bytes are read at once to be thrown away. -/
  skipBufferSize : Nat
  /-- Whether payloads are compared with what is recorded for them. -/
  verifyChecksums : Bool
  deriving DecidableEq, Repr

/-- The least value of a tunable. -/
def SettingsField.least : SettingsField → Nat
  | .ioBufferSize => 512
  | .sizeProbeChunk => 1
  | .skipBufferSize => 1

/-- All tunables with a least value, in the order in which they are reported and written. -/
def SettingsField.all : List SettingsField :=
  [.ioBufferSize, .sizeProbeChunk, .skipBufferSize]

namespace Settings

/-- The settings in force when nothing is said. -/
def standard : Settings where
  ioBufferSize := 4096
  sizeProbeChunk := 65536
  skipBufferSize := 1024
  verifyChecksums := true

/-- The value of a tunable. -/
def get (s : Settings) : SettingsField → Nat
  | .ioBufferSize => s.ioBufferSize
  | .sizeProbeChunk => s.sizeProbeChunk
  | .skipBufferSize => s.skipBufferSize

/-- The settings with one tunable changed. -/
def set (s : Settings) (field : SettingsField) (value : Nat) : Settings :=
  match field with
  | .ioBufferSize => { s with ioBufferSize := value }
  | .sizeProbeChunk => { s with sizeProbeChunk := value }
  | .skipBufferSize => { s with skipBufferSize := value }

/-- The tunables below their least values. -/
def tooSmall (s : Settings) : List SettingsField :=
  SettingsField.all.filter fun field => s.get field < field.least

/-- The settings themselves, if no tunable is below its least value. -/
def checked (s : Settings) : Except Error Settings :=
  if s.tooSmall = [] then .ok s else .error (.fault (.settings (.tooSmall s.tooSmall)))

@[simp] theorem get_set (s : Settings) (f : SettingsField) (v : Nat) : (s.set f v).get f = v := by
  cases f <;> rfl

theorem checked_eq_ok_iff {s t : Settings} :
    s.checked = .ok t ↔ s = t ∧ ∀ f : SettingsField, f.least ≤ s.get f := by
  unfold checked tooSmall
  constructor
  · intro h
    split at h
    · rename_i hs
      cases h
      refine ⟨rfl, fun f => ?_⟩
      simp only [SettingsField.all, List.filter_eq_nil_iff, decide_eq_true_eq] at hs
      have := hs f (by cases f <;> simp)
      omega
    · cases h
  · rintro ⟨rfl, h⟩
    have : SettingsField.all.filter (fun field => s.get field < field.least) = [] := by
      simp only [List.filter_eq_nil_iff, decide_eq_true_eq]
      intro f _
      have := h f
      omega
    simp [this]

end Settings

end ZipMount
