import ZipMount.Proofs.Handle.Reliable
import ZipMount.Proofs.Layout.Container
import ZipMount.Proofs.Mount.Service
import ZipMount.Proofs.Walk.Scan

/-!
# Looking up the parts of a container

A mount answers a question about an entry by searching the container for the first part of its name.
`Mount.Finds` says that the container is made of framed parts and which of them this is.  The search
then gets through to the part (`Finds.locate_eq`), and if the part delivers its data, everything that
is said of the entry is about this data: its size (`Finds.size_eq`), and what a handle on it reads
(`Finds.readsAt_eq`).

A payload that ends without a failure is served by streams that do not fail (`source_reliable`).
-/

namespace ZipMount

namespace Mount

variable {m : Mount} {host : Host} {path : VirtualPath} {w : Walk}

/-- The settings of a mount that is made have been checked. -/
lemma checked_of_withSettings {s : Settings} (h : withSettings s = .ok m) :
    s.checked = .ok m.settings := by
  unfold withSettings at h
  rcases hs : s.checked with e | t
  · rw [hs] at h
    cases h
  · rw [hs] at h
    cases h
    rfl

/-- No tunable of a mount that is made is below its least value. -/
lemma least_le_of_withSettings {s : Settings} (h : withSettings s = .ok m) (f : SettingsField) :
    f.least ≤ m.settings.get f := by
  obtain ⟨hsame, hleast⟩ := Settings.checked_eq_ok_iff.mp (checked_of_withSettings h)
  rw [← hsame]
  exact hleast f

variable [LawfulInflater]

/-! ## Payloads without a failure -/

/-- A read of a walk whose payload ends without a failure does not fail. -/
lemma exists_read (hf : w.failure = none) (n : Nat) : ∃ got v, w.read n = (.ok got, v) := by
  by_cases hn : n = 0
  · subst hn
    exact ⟨[], w, Walk.read_zero w⟩
  · have hpos : 0 < n := Nat.pos_of_ne_zero hn
    by_cases hnil : w.pending = []
    · rw [Walk.read_of_empty hpos hnil]
      exact ⟨[], w.ending.2, Prod.ext (Walk.ending_of_failure_none hf) rfl⟩
    · exact ⟨_, _, Walk.read_of_pending hpos hnil⟩

/-- A skip of a walk whose payload ends without a failure does not fail. -/
lemma exists_skip (hf : w.failure = none) (n : Nat) : ∃ j v, w.skip n = (.ok j, v) := by
  by_cases hn : n = 0
  · subst hn
    exact ⟨0, w, Walk.skip_zero w⟩
  · by_cases hle : n ≤ w.pending.length
    · exact ⟨_, _, Walk.skip_of_le (Nat.pos_of_ne_zero hn) hle⟩
    · rw [Walk.skip_of_lt (Nat.lt_of_not_le hle), hf]
      exact ⟨_, _, rfl⟩

/-- The walks for an entry whose payload ends without a failure do not fail. -/
lemma source_reliable (ho : m.openEntry host path = .ok w) (hf : w.failure = none) :
    m.source.Reliable path (service host w) where
  toKeeps := source_keeps ho
  opens := by
    rintro h rfl
    exact ⟨w, h, Prod.ext ho rfl⟩
  reads := by
    rintro n v h k rfl ⟨-, -, hfail⟩
    obtain ⟨got, v', hread⟩ := exists_read (hfail.trans hf) n
    exact ⟨got, v', h, source_read_eq hread m h⟩
  skips := by
    rintro n v h k rfl ⟨-, -, hfail⟩
    obtain ⟨j, v', hskip⟩ := exists_skip (hfail.trans hf) n
    exact ⟨j, v', h, source_skip_eq hskip m h⟩

/-- Measuring a payload that ends without a failure, in steps of any size, counts what is pending. -/
lemma measureWithin_eq {chunk fuel : Nat} (hc : 0 < chunk) (hf : w.failure = none)
    (hfuel : w.pending.length < fuel) : measureWithin chunk fuel w = .ok w.pending.length := by
  induction fuel generalizing w with
  | zero => omega
  | succ fuel ih =>
    rw [measureWithin]
    by_cases hle : chunk ≤ w.pending.length
    · obtain ⟨k, rfl⟩ : ∃ k, chunk = k + 1 := ⟨chunk - 1, by omega⟩
      have hrest : (w.pass (k + 1)).pending.length = w.pending.length - (k + 1) := by
        rw [Walk.pending_pass, List.length_drop]
      have hmore := ih (w := w.pass (k + 1)) (by rw [Walk.failure_pass, hf]) (by omega)
      rw [Walk.skip_of_le hc hle]
      dsimp only
      rw [hmore, hrest]
      show Except.ok (k + 1 + (w.pending.length - (k + 1))) = _
      rw [Nat.add_sub_cancel' hle]
    · rw [Walk.skip_of_lt (Nat.lt_of_not_le hle), hf]
      obtain ⟨hnil, hfail⟩ := Walk.over_of_failure_none hf
      cases hlen : w.pending.length with
      | zero => rfl
      | succ k =>
        have hmore := ih (w := w.ending.2) hfail (by rw [hnil, List.length_nil]; omega)
        dsimp only
        rw [hmore, hnil]
        rfl

/-- Measuring a payload that ends without a failure counts what is pending. -/
lemma measure_eq {chunk : Nat} (hc : 0 < chunk) (hf : w.failure = none) :
    measure chunk w = .ok w.pending.length := by
  have hfuel : w.enter.pending.length < w.enter.place.available + 1 := by
    rw [Walk.pending_enter]
    exact Nat.lt_succ_of_le (Walk.length_pending_le w)
  have hmeasure := measureWithin_eq hc (by rw [Walk.failure_enter, hf]) hfuel
  rwa [Walk.pending_enter] at hmeasure

/-- Measuring a payload that fails, in steps of any size, comes to the failure. -/
lemma measureWithin_of_failure {chunk fuel : Nat} {e : IoError} (hc : 0 < chunk)
    (hf : w.failure = some e) (hfuel : w.pending.length < fuel) :
    measureWithin chunk fuel w = .error e := by
  induction fuel generalizing w with
  | zero => omega
  | succ fuel ih =>
    rw [measureWithin]
    by_cases hle : chunk ≤ w.pending.length
    · obtain ⟨k, rfl⟩ : ∃ k, chunk = k + 1 := ⟨chunk - 1, by omega⟩
      have hrest : (w.pass (k + 1)).pending.length = w.pending.length - (k + 1) := by
        rw [Walk.pending_pass, List.length_drop]
      have hmore := ih (w := w.pass (k + 1)) (by rw [Walk.failure_pass, hf]) (by omega)
      rw [Walk.skip_of_le hc hle]
      dsimp only
      rw [hmore]
      rfl
    · rw [Walk.skip_of_lt (Nat.lt_of_not_le hle), hf]

/-- Measuring a payload, in steps of any size, counts what is pending or comes to the failure. -/
lemma measure_eq_match {chunk : Nat} (hc : 0 < chunk) (w : Walk) :
    measure chunk w = match w.failure with
      | none => .ok w.pending.length
      | some e => .error e := by
  cases hf : w.failure with
  | none => exact measure_eq hc hf
  | some e =>
    have hfuel : w.enter.pending.length < w.enter.place.available + 1 := by
      rw [Walk.pending_enter]
      exact Nat.lt_succ_of_le (Walk.length_pending_le w)
    exact measureWithin_of_failure hc (by rw [Walk.failure_enter, hf]) hfuel

/-- A size that is not recorded is that of what can be read, or zero if reading fails. -/
lemma size_of_measured {r : Record} (hc : 0 < m.settings.sizeProbeChunk)
    (h : m.locate host path = .ok (some (r, w))) (hd : r.declaredSize = none) :
    m.size host path = match w.failure with
      | none => w.pending.length
      | some _ => 0 := by
  unfold size
  rw [knownSize_of_locate h, hd]
  dsimp only
  rw [measure_eq_match hc]
  cases w.failure <;> rfl

/-! ## The first part of a name -/

/-- The container of a path is made of framed parts and a tail, and the given part is the first of
the name of the path. -/
def Finds (m : Mount) (host : Host) (path : VirtualPath) (p : Part) : Prop :=
  ∃ (parts : List Part) (tail : Bytes),
    host.files.read (path.container host.environment) = .ok (parts.flatMap Part.encode ++ tail) ∧
      (∀ q ∈ parts, q.Framed m.settings.verifyChecksums) ∧
      parts.find? (fun q => q.name = path.entryName) = some p

namespace Finds

variable {p : Part}

/-- The search leads to the payload of the part. -/
lemma locate_eq (h : m.Finds host path p) :
    ∃ more length, m.locate host path =
      .ok (some (p.record, p.begun more (m.regime length))) := by
  obtain ⟨parts, tail, hread, hframed, hfind⟩ := h
  set container := parts.flatMap Part.encode ++ tail with hcontainer
  have hframed' : ∀ q ∈ parts, q.Framed (m.regime container.length).verify := hframed
  obtain ⟨more, hwalk⟩ := Walk.find_of_framed tail (q := fun r => r.name = path.entryName)
    hframed' hfind
  refine ⟨more, container.length, locate_eq_some_iff.mpr ⟨_, ?_, hwalk⟩⟩
  unfold openContainer
  rw [hread]

/-- The entry is there. -/
lemma contains_eq (h : m.Finds host path p) : m.contains host path = true := by
  obtain ⟨more, length, hlocate⟩ := h.locate_eq
  exact contains_eq_true_iff.mpr (.inr ⟨_, _, hlocate⟩)

/-- The entry is opened at the payload of the part. -/
lemma openEntry_eq (h : m.Finds host path p) :
    ∃ more length, m.openEntry host path = .ok (p.begun more (m.regime length)) := by
  obtain ⟨more, length, hlocate⟩ := h.locate_eq
  exact ⟨more, length, openEntry_eq_ok_iff.mpr ⟨_, hlocate⟩⟩

/-- The size of an entry that delivers its data is that of the data, provided that a recorded size
is. -/
lemma size_eq (h : m.Finds host path p) (hd : p.Delivers m.settings.verifyChecksums)
    (hlen : p.trailer = none → p.data.length = p.uncompressed)
    (hchunk : 0 < m.settings.sizeProbeChunk) : m.size host path = p.data.length := by
  obtain ⟨more, length, hlocate⟩ := h.locate_eq
  apply size_of_knownSize
  rw [knownSize_of_locate hlocate]
  cases ht : p.trailer with
  | none =>
    have hsize : p.record.declaredSize = some p.uncompressed := by simp [Part.record, ht]
    rw [hsize, hlen ht]
  | some t =>
    have hsize : p.record.declaredSize = none := by simp [Part.record, ht]
    have hf : (p.begun more (m.regime length)).failure = none := hd.failure_begun more
    have hpending : (p.begun more (m.regime length)).pending = p.data := hd.pending_begun more
    rw [hsize, measure_eq hchunk hf, hpending]
    rfl

/-- A handle on the entry is fed by walks that serve the data and do not fail. -/
lemma exists_handle (h : m.Finds host path p) (hd : p.Delivers m.settings.verifyChecksums)
    (hroot : path.isRoot = false) (mode : OpenMode) :
    ∃ (handle : Handle Walk) (v : Service Host Walk),
      m.openPath host path mode = .ok handle ∧ m.source.Reliable path v ∧ v.data = p.data ∧
      v.world host ∧ handle.Follows v path (m.size host path) := by
  obtain ⟨more, length, hopen⟩ := h.openEntry_eq
  set w := p.begun more (m.regime length) with hw
  have hf : w.failure = none := hd.failure_begun more
  have hstart : (service host w).consumed w 0 := ⟨Nat.zero_le _, rfl, rfl⟩
  exact ⟨Handle.ofStream path w (m.size host path) m.settings.skipBufferSize, service host w,
    openPath_of_openEntry hroot hopen mode, source_reliable hopen hf, hd.pending_begun more, rfl,
    Handle.follows_ofStream hstart path (m.size host path) m.settings.skipBufferSize⟩

/-- Reads at any positions of a handle on the entry deliver the bytes of the data that stand
there. -/
lemma readsAt_eq (h : m.Finds host path p) (hd : p.Delivers m.settings.verifyChecksums)
    (hroot : path.isRoot = false) (mode : OpenMode) :
    ∃ handle, m.openPath host path mode = .ok handle ∧ ∀ reads : List (Nat × Nat),
      handle.readsAt m.source reads host =
        reads.map fun r => ((p.data.drop r.1).take r.2, none) := by
  obtain ⟨handle, v, hopen, hv, hdata, hworld, hf⟩ := h.exists_handle hd hroot mode
  refine ⟨handle, hopen, fun reads => ?_⟩
  rw [Handle.readsAt_eq hv hf hworld reads, hdata]

end Finds

/-- In an honest container, a path finds the first part of its name. -/
lemma finds_of_honest {c : HonestContainer} {p : Part}
    (hread : host.files.read (path.container host.environment) = .ok c.encode)
    (hfind : c.parts.find? (fun q => q.name = path.entryName) = some p) :
    m.Finds host path p :=
  ⟨c.parts, c.tail, hread, fun q hq => (c.honest q hq).framed m.settings.verifyChecksums, hfind⟩

end Mount

/-- A host whose only file is the given container. -/
def Host.withContainer (content : Bytes) : Host := ⟨⟨[(["z"], .file content)]⟩, ⟨none, none⟩⟩

/-- The only file of such a host can be read. -/
lemma Host.read_withContainer (content : Bytes) :
    (withContainer content).files.read "z" = .ok content := by
  cbv

/-- A path into the only file of such a host leads to its content. -/
lemma Host.read_container {p : VirtualPath} (hp : p.container ⟨none, none⟩ = "z")
    (content : Bytes) : (withContainer content).files.read
      (p.container (withContainer content).environment) = .ok content := by
  show (withContainer content).files.read (p.container ⟨none, none⟩) = .ok content
  rw [hp, read_withContainer]

end ZipMount
