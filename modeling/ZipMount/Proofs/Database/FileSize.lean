import ZipMount.Proofs.Database.FullRead

/-!
# The size that a database engine is told

A size is a number of 64 bits without a sign, and a database engine takes the bits of it for a
number with one.  Up to `2 ^ 63` that is the same number.  From there on the engine is told a number
below zero, though there is an answer for failing to tell the size, and a call for bytes at a place
below zero is refused.

A size that is counted is nowhere near `2 ^ 63`: no payload gives more than 2064 bytes for each byte
of its container.  A header has 32 bits for a size.  But nothing ties the eight bytes of a zip64
field to the payload, so a container of 43 bytes is enough for a size below zero (`size_immense`).
The main statement is `size_of_openFile`.
-/

namespace ZipMount

section Told

variable [LawfulInflater]

/-- A payload that has not begun gives no more than 2064 bytes for each byte ahead. -/
lemma Walk.length_pending_le_of_atPayload {w : Walk} {rest : Bytes}
    (h : w.place = .atPayload rest) : w.pending.length ≤ 2064 * rest.length := by
  by_cases hnil : w.pending = []
  · rw [hnil]
    exact Nat.zero_le _
  · obtain ⟨c, p, hc, hr, hp⟩ := exists_of_pending_ne_nil hnil
    rw [pending_of_ok hc hr hp]
    rw [h, Place.enter] at hp
    split at hp
    next =>
      cases hp
      rw [Place.pending, List.length_take]
      omega
    next =>
      cases hp
      have hflow := LawfulInflater.length_pending_le (w.slicing.slices rest)
      rwa [w.slicing.flatten_slices] at hflow
    next => cases hp

namespace Mount

variable {m : Mount} {host : Host} {p : VirtualPath} {r : Record} {w : Walk}

/-- A recorded size is the size, and fits 64 bits. -/
lemma size_of_recorded {n : Nat} (h : m.locate host p = .ok (some (r, w)))
    (hd : r.declaredSize = some n) : m.size host p = n ∧ n < 2 ^ 64 := by
  have hknown := knownSize_of_locate h
  rw [hd] at hknown
  refine ⟨size_of_knownSize hknown, ?_⟩
  obtain ⟨-, q, rest, -, -, hheaded, rfl, -⟩ := exists_headed_of_locate h
  have hlt := hheaded.sizes.uncompressed_lt
  have hrecorded : (if q.header.hasDescriptor then none else some q.uncompressed) = some n := hd
  split at hrecorded
  · cases hrecorded
  · cases hrecorded
    exact hlt

/-- A measured size is no more than is pending. -/
lemma measure_le {chunk n : Nat} (h : measure chunk w = .ok n) : n ≤ w.pending.length := by
  by_cases hchunk : chunk = 0
  · have hzero : measure 0 w = .ok 0 := by simp only [measure, measureWithin, Walk.skip_zero]
    rw [hchunk, hzero] at h
    cases h
    exact Nat.zero_le _
  · rw [measure_eq_match (Nat.pos_of_ne_zero hchunk)] at h
    split at h
    · cases h
      exact Nat.le_refl _
    · cases h

/-- A size that is counted is no more than 2064 for each byte of the container. -/
lemma size_le_of_counted (h : m.locate host p = .ok (some (r, w))) (hd : r.declaredSize = none) :
    ∃ container, host.files.read (p.container host.environment) = .ok container ∧
      m.size host p ≤ 2064 * container.length := by
  obtain ⟨container, q, rest, hread, hplace, -, -, rfl⟩ := exists_headed_of_locate h
  refine ⟨container, hread, ?_⟩
  set w := q.behindHeader rest (m.regime container.length)
  have hpending : w.pending.length ≤ 2064 * rest.length := Walk.length_pending_le_of_atPayload rfl
  have hle := ((List.suffix_append _ rest).trans hplace).length_le
  have hknown := knownSize_of_locate h
  rw [hd] at hknown
  unfold size
  rw [hknown]
  dsimp only
  rcases hmeasure : measure m.settings.sizeProbeChunk w with e | n
  · exact Nat.zero_le _
  · have hn := measure_le hmeasure
    show n ≤ 2064 * container.length
    omega

end Mount

end Told

namespace Database

namespace File

/-- The file after calls for the given amounts at the given offsets. -/
def after [Inflater] (host : Host) : List (Int × Int) → File → File
  | [], f => f
  | (amount, offset) :: calls, f => after host calls (f.read host amount offset).2.2

section Serves

variable {m : Mount} {host : Host} {path : VirtualPath} {v : Service Host Walk} {length : Nat}
  {failure : Option IoError} {f : File}

/-- A file that is open tells the bits of the length of its handle. -/
lemma Serves.size_eq (hf : f.Serves m path v length) :
    f.size = (.ok, some (BitVec.ofNat 64 length).toInt) := by
  obtain ⟨h, hhandle, hfollows⟩ := hf.follows
  rw [size, hhandle, ← hfollows.length_eq]

/-- Whatever is read of a file, it still serves its entry. -/
lemma Serves.after [LawfulInflater] (hf : f.Serves m path v length)
    (hv : m.source.Definite path v failure) (hw : v.world host) (calls : List (Int × Int)) :
    (f.after host calls).Serves m path v length := by
  induction calls generalizing f with
  | nil => exact hf
  | cons call calls ih =>
    obtain ⟨amount, offset⟩ := call
    obtain ⟨f', hread, hf'⟩ := hf.read_eq hv hw amount offset
    rw [File.after, hread]
    exact ih hf'

end Serves

/-- The bits of a number, taken for a number with a sign, are that number just if it is below `2 ^
63`. -/
lemma toInt_ofNat_iff (n : Nat) :
    0 ≤ (BitVec.ofNat 64 n).toInt ∧ (BitVec.ofNat 64 n).toInt = n ↔ n < 2 ^ 63 := by
  rw [BitVec.toInt_eq_toNat_cond, BitVec.toNat_ofNat]
  split <;> omega

/-- The bits of a number from `2 ^ 63` on, taken for a number with a sign. -/
lemma toInt_ofNat_of_le {n : Nat} (hle : 2 ^ 63 ≤ n) (hlt : n < 2 ^ 64) :
    (BitVec.ofNat 64 n).toInt = n - 2 ^ 64 := by
  rw [BitVec.toInt_eq_toNat_cond, BitVec.toNat_ofNat]
  split <;> omega

/-- An open file tells one size, whatever has been read of it.  This is the size of the path just if
that is below `2 ^ 63`; from there on it is that size less `2 ^ 64`, a number below zero.  A size
that is recorded may be any that fits 64 bits, but one that is counted is no more than 2064 for each
byte of the container. -/
theorem size_of_openFile [LawfulInflater] {m : Mount} {host : Host} {name : Bytes}
    {flags : BitVec 32} {f : File} (hopen : openFile (some m) host (some name) flags = (.ok, some f)) :
    ∃ text r w i, Utf8.decode? name = some text ∧ m.locate host ⟨text⟩ = .ok (some (r, w)) ∧
      (∀ calls, (f.after host calls).size = (.ok, some i)) ∧
      (0 ≤ i ∧ i = m.size host ⟨text⟩ ↔ m.size host ⟨text⟩ < 2 ^ 63) ∧
      (2 ^ 63 ≤ m.size host ⟨text⟩ → m.size host ⟨text⟩ < 2 ^ 64 →
        i = m.size host ⟨text⟩ - 2 ^ 64 ∧ i < 0) ∧
      (∀ n, r.declaredSize = some n → m.size host ⟨text⟩ = n ∧ n < 2 ^ 64) ∧
      (r.declaredSize = none → ∃ container,
        host.files.read ((VirtualPath.mk text).container host.environment) = .ok container ∧
          m.size host ⟨text⟩ ≤ 2064 * container.length) := by
  obtain ⟨text, r, w, htext, hlocate, rfl⟩ := exists_openEntry_of_openFile hopen
  have hentry : m.openEntry host ⟨text⟩ = .ok w := Mount.openEntry_eq_ok_iff.mpr ⟨r, hlocate⟩
  have hstart : (Mount.service host w).consumed w 0 := ⟨Nat.zero_le _, rfl, rfl⟩
  have hserves : Serves m ⟨text⟩ (Mount.service host w) (m.size host ⟨text⟩)
      ⟨m, some (Handle.ofStream ⟨text⟩ w (m.size host ⟨text⟩) m.settings.skipBufferSize)⟩ :=
    ⟨rfl, _, rfl, Handle.follows_ofStream hstart ⟨text⟩ _ _⟩
  refine ⟨text, r, w, _, htext, hlocate, fun calls => ?_, toInt_ofNat_iff _, fun hle hlt => ?_,
    fun n hn => Mount.size_of_recorded hlocate hn, Mount.size_le_of_counted hlocate⟩
  · exact (hserves.after (Mount.source_definite hentry) rfl calls).size_eq
  · rw [toInt_ofNat_of_le hle hlt]
    omega

/-- A container of an entry without bytes, of which a zip64 field records the size `2 ^ 63`. -/
def immenseContainer : Bytes :=
  LocalHeader.encode ⟨45, 0, 0, 0, 0, 0, 0, sizeMarker, [97],
    ExtraField.encode ⟨zip64Tag, Bytes.le 8 (2 ^ 63)⟩⟩

/-- The walk at the entry of immense size. -/
def immenseWalk : Walk where
  place := .atPayload []
  current := some (Current.untouched ⟨"a", .stored, some (2 ^ 63), some 0, some 0, none, none⟩)
  regime := Mount.standard.regime immenseContainer.length

/-- The entry of immense size is located. -/
lemma locate_immense :
    Mount.standard.locate (Host.withContainer immenseContainer) ⟨"zip2:z!a"⟩ =
      .ok (some (⟨"a", some (2 ^ 63), some 0, 0, .stored⟩, immenseWalk)) := by
  have hopen : Mount.standard.openContainer (Host.withContainer immenseContainer)
      ⟨"zip2:z!a"⟩ = .ok (Walk.start immenseContainer
        (Mount.standard.regime immenseContainer.length)) := by
    unfold Mount.openContainer
    rw [Host.read_container (by cbv)]
  have hnext : (Walk.start immenseContainer
      (Mount.standard.regime immenseContainer.length)).next =
      (.ok (some ⟨"a", some (2 ^ 63), some 0, 0, .stored⟩), immenseWalk) := by rfl
  exact Mount.locate_of_next hopen hnext (by cbv)

/-- The file of the entry of immense size opens. -/
lemma openFile_immense :
    openFile (some Mount.standard) (Host.withContainer immenseContainer)
        (some (Utf8.encode "zip2:z!a")) mainDatabase =
      (.ok, some ⟨Mount.standard,
        some (Handle.ofStream ⟨"zip2:z!a"⟩ immenseWalk (2 ^ 63) 1024)⟩) := by
  have hhandle := Mount.openPath_of_locate (by cbv) locate_immense rfl .read
  unfold openFile
  rw [Option.bind_some, Utf8.decode?_encode]
  dsimp only
  rw [if_neg (by decide), hhandle]
  rfl

/-- The size that is told of this file is below zero, and is not that of the path. -/
theorem size_immense :
    ∃ f, openFile (some Mount.standard) (Host.withContainer immenseContainer)
        (some (Utf8.encode "zip2:z!a")) mainDatabase = (.ok, some f) ∧
      f.size = (.ok, some (-9223372036854775808)) ∧
      Mount.standard.size (Host.withContainer immenseContainer) ⟨"zip2:z!a"⟩ =
        9223372036854775808 := by
  have hsize := (Mount.size_of_recorded locate_immense rfl).1
  exact ⟨_, openFile_immense, by decide, hsize⟩

/-- What is said of the file of immense size. -/
theorem size_of_openFile_immense :
    ∃ f i, openFile (some Mount.standard) (Host.withContainer immenseContainer)
        (some (Utf8.encode "zip2:z!a")) mainDatabase = (.ok, some f) ∧
      (∀ calls, (f.after (Host.withContainer immenseContainer) calls).size = (.ok, some i)) ∧
      i < 0 := by
  obtain ⟨text, r, w, i, htext, hlocate, hsize, -, hbelow, hrecorded, -⟩ :=
    size_of_openFile openFile_immense
  obtain rfl : "zip2:z!a" = text := Option.some.inj ((Utf8.decode?_encode _).symm.trans htext)
  rw [locate_immense] at hlocate
  cases hlocate
  obtain ⟨hn, hlt⟩ := hrecorded (2 ^ 63) rfl
  rw [hn] at hbelow
  exact ⟨_, i, openFile_immense, hsize, (hbelow (Nat.le_refl _) hlt).2⟩

end File

end Database

end ZipMount
