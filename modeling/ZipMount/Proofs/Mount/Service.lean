import ZipMount.Mount
import ZipMount.Proofs.Handle.Cursor
import ZipMount.Proofs.Walk.Outlook

/-!
# What the entries of a container serve

A handle on an entry of a container is fed by walks, and each walk that is opened for the entry is
the same one: the container does not change, and the first entry of the name is found again.  What
these walks serve is what lies ahead of the first of them, `Mount.service`: its pending bytes, with
an end that is shown only if the payload does not fail.

`Mount.source_keeps` says that the walks keep to this.  Whatever is true of handles over a service
is then true of handles on entries.
-/

namespace ZipMount

variable [Inflater]

/-- A search ends at the next entry if that satisfies the condition. -/
lemma Walk.find_of_next {w w' : Walk} {r : Record} {q : Record → Bool}
    (hnext : w.next = (.ok (some r), w')) (hr : q r = true) : w.find q = (.ok (some r), w') := by
  rw [find, horizon, findWithin, hnext]
  simp [hr]

namespace Mount

variable {m : Mount} {host : Host} {p p' : VirtualPath} {w : Walk}

/-- What the walks for the entry that `w` is at serve while the host stays as it is. -/
def service (host : Host) (w : Walk) : Service Host Walk where
  data := w.pending
  ends := w.failure = none
  world h := h = host
  consumed v k := k ≤ w.pending.length ∧ v.pending = w.pending.drop k ∧ v.failure = w.failure

/-! ## What the questions come to -/

/-- An entry is located where the search for its name stops. -/
lemma locate_eq_some_iff {r : Record} :
    m.locate host p = .ok (some (r, w)) ↔ ∃ v, m.openContainer host p = .ok v ∧
      v.find (fun r => r.name = p.entryName) = (.ok (some r), w) := by
  unfold locate
  rcases m.openContainer host p with e | v
  · constructor
    · intro h
      cases h
    · rintro ⟨v, hv, -⟩
      cases hv
  · simp only [bind, Except.bind]
    rcases hfind : v.find (fun r => decide (r.name = p.entryName)) with ⟨e | _ | r', w'⟩
    · constructor
      · intro h
        cases h
      · rintro ⟨v', hv, h⟩
        cases hv
        rw [hfind] at h
        cases h
    · constructor
      · intro h
        cases h
      · rintro ⟨v', hv, h⟩
        cases hv
        rw [hfind] at h
        cases h
    · constructor
      · intro h
        cases h
        exact ⟨v, rfl, hfind⟩
      · rintro ⟨v', hv, h⟩
        cases hv
        rw [hfind] at h
        cases h
        rfl

/-- What is there is the root, or an entry that is located. -/
lemma contains_eq_true_iff :
    m.contains host p = true ↔ p.isRoot = true ∨ ∃ r w, m.locate host p = .ok (some (r, w)) := by
  rw [contains, Bool.or_eq_true]
  apply or_congr_right
  rcases m.locate host p with e | _ | ⟨r, w⟩ <;> simp

/-- A directory is the root, or the first entry that decides it is one or nests below. -/
lemma isDirectory_eq_true_iff :
    m.isDirectory host p = true ↔ p.isRoot = true ∨ ∃ v r w, m.openContainer host p = .ok v ∧
      v.find (decides p.entryName) = (.ok (some r), w) ∧
      (r.name = p.entryName → r.isDirectory = true) := by
  rw [isDirectory, Bool.or_eq_true]
  apply or_congr_right
  rcases m.openContainer host p with e | v
  · simp
  · rcases hfind : v.find (decides p.entryName) with ⟨e | _ | r, w⟩
    · simp [hfind]
    · simp [hfind]
    · by_cases hname : r.name = p.entryName <;> simp [hfind, hname]

/-- An entry is opened where it is located. -/
lemma openEntry_eq_ok_iff :
    m.openEntry host p = .ok w ↔ ∃ r, m.locate host p = .ok (some (r, w)) := by
  unfold openEntry
  rcases m.locate host p with e | _ | ⟨r, v⟩
  · constructor
    · intro h
      cases h
    · rintro ⟨r, h⟩
      cases h
  · constructor
    · intro h
      cases h
    · rintro ⟨r, h⟩
      cases h
  · constructor
    · intro h
      cases h
      exact ⟨r, rfl⟩
    · rintro ⟨r', h⟩
      cases h
      rfl

/-- The size of an entry that is located is the recorded one, or else the measured one. -/
lemma knownSize_of_locate {r : Record} (h : m.locate host p = .ok (some (r, w))) :
    m.knownSize host p = match r.declaredSize with
      | some n => .ok n
      | none => (measure m.settings.sizeProbeChunk w).mapError Error.io := by
  unfold knownSize
  rw [h]
  rfl

/-- A size that is known is the size. -/
lemma size_of_knownSize {n : Nat} (h : m.knownSize host p = .ok n) : m.size host p = n := by
  unfold size
  rw [h]

/-- A handle is made of the walk to the entry and of the size. -/
lemma openPath_of_openEntry (hroot : p.isRoot = false) (h : m.openEntry host p = .ok w)
    (mode : OpenMode) : m.openPath host p mode =
      .ok (Handle.ofStream p w (m.size host p) m.settings.skipBufferSize) := by
  unfold openPath
  rw [hroot, h]
  rfl

/-- The root cannot be opened. -/
lemma openPath_of_isRoot (hroot : p.isRoot = true) (mode : OpenMode) :
    m.openPath host p mode = .error (.fault (.notFound p.text)) := by
  unfold openPath
  rw [hroot]
  rfl

/-- A path of the first entry's name leads to the first entry. -/
lemma locate_of_next {r : Record} {w' : Walk} (ho : m.openContainer host p = .ok w)
    (hnext : w.next = (.ok (some r), w')) (hr : r.name = p.entryName) :
    m.locate host p = .ok (some (r, w')) :=
  locate_eq_some_iff.mpr ⟨w, ho, Walk.find_of_next hnext (decide_eq_true hr)⟩

/-- A handle on an entry whose header tells the size. -/
lemma openPath_of_locate {r : Record} {n : Nat} (hroot : p.isRoot = false)
    (hl : m.locate host p = .ok (some (r, w))) (hd : r.declaredSize = some n) (mode : OpenMode) :
    m.openPath host p mode = .ok (Handle.ofStream p w n m.settings.skipBufferSize) := by
  have hknown : m.knownSize host p = .ok n := by rw [knownSize_of_locate hl, hd]
  rw [openPath_of_openEntry hroot (openEntry_eq_ok_iff.mpr ⟨r, hl⟩), size_of_knownSize hknown]

/-- Which entry a path names depends only on the container and on the name. -/
lemma locate_congr (hc : p'.container host.environment = p.container host.environment)
    (hn : p'.entryName = p.entryName) : m.locate host p' = m.locate host p := by
  unfold locate openContainer
  simp only [hc, hn]

/-- Paths with the same container and the same name lead to the same payload. -/
lemma openEntry_congr (hc : p'.container host.environment = p.container host.environment)
    (hn : p'.entryName = p.entryName) (h : m.openEntry host p = .ok w) :
    m.openEntry host p' = .ok w := by
  obtain ⟨r, hlocate⟩ := openEntry_eq_ok_iff.mp h
  exact openEntry_eq_ok_iff.mpr ⟨r, by rw [locate_congr hc hn, hlocate]⟩

/-- A handle is made of the walk to the entry. -/
lemma openPath_eq_ok {mode : OpenMode} {h : Handle Walk} (ho : m.openPath host p mode = .ok h) :
    ∃ w, m.openEntry host p = .ok w ∧
      h = Handle.ofStream p w (m.size host p) m.settings.skipBufferSize := by
  unfold openPath at ho
  by_cases hroot : p.isRoot = true
  · rw [if_pos hroot] at ho
    cases ho
  · rw [if_neg hroot] at ho
    cases he : m.openEntry host p with
    | error e =>
      rw [he] at ho
      cases ho
    | ok w =>
      rw [he] at ho
      cases ho
      exact ⟨w, rfl, rfl⟩

/-- A path can be opened, in whatever mode, if it is no root and its entry is located. -/
lemma exists_openPath_iff {mode : OpenMode} :
    (∃ h, m.openPath host p mode = .ok h) ↔
      p.isRoot = false ∧ ∃ r w, m.locate host p = .ok (some (r, w)) := by
  constructor
  · rintro ⟨h, hopen⟩
    refine ⟨?_, ?_⟩
    · rw [← Bool.not_eq_true]
      intro hroot
      rw [openPath_of_isRoot hroot] at hopen
      cases hopen
    · obtain ⟨w, hw, -⟩ := openPath_eq_ok hopen
      obtain ⟨r, hr⟩ := openEntry_eq_ok_iff.mp hw
      exact ⟨r, w, hr⟩
  · rintro ⟨hroot, r, w, hr⟩
    exact ⟨_, openPath_of_openEntry hroot (openEntry_eq_ok_iff.mpr ⟨r, hr⟩) mode⟩

/-- Unless it is a root, what is there is what can be opened, in whatever mode. -/
lemma contains_iff_exists_openPath (hroot : p.isRoot = false) (mode : OpenMode) :
    m.contains host p = true ↔ ∃ h, m.openPath host p mode = .ok h := by
  rw [contains_eq_true_iff, exists_openPath_iff, hroot]
  simp

/-- What has a size is there. -/
lemma contains_of_size_pos (h : 0 < m.size host p) : m.contains host p = true := by
  rw [contains_eq_true_iff]
  right
  unfold size knownSize at h
  rcases hlocate : m.locate host p with e | _ | ⟨r, w⟩
  · rw [hlocate] at h
    exact absurd h (Nat.lt_irrefl 0)
  · rw [hlocate] at h
    exact absurd h (Nat.lt_irrefl 0)
  · exact ⟨r, w, rfl⟩

section Keeps

variable {host' : Host} {v v' : Walk} {k n : Nat}

/-- A read of a walk that has delivered `k` bytes delivers the next ones, and none only at an end
that is shown. -/
lemma service_read {got : Bytes} (hs : (service host w).consumed v k) (hn : 0 < n)
    (h : v.read n = (.ok got, v')) :
    got.length ≤ n ∧ got <+: w.pending.drop k ∧ (got = [] → w.failure = none ∧
      w.pending.length ≤ k) ∧ (service host w).consumed v' (k + got.length) := by
  obtain ⟨hk, hpend, hfail⟩ := hs
  have hleft : v.pending.length = w.pending.length - k := by rw [hpend, List.length_drop]
  by_cases hnil : got = []
  · subst hnil
    obtain ⟨hnone, hend, rfl⟩ := Walk.of_read_nil hn h
    obtain ⟨hpend', hfail'⟩ := Walk.over_of_failure_none hend
    have hall : w.pending.length ≤ k := List.drop_eq_nil_iff.mp (hpend ▸ hnone)
    refine ⟨Nat.zero_le n, List.nil_prefix, fun _ => ⟨hfail ▸ hend, hall⟩, hk, ?_, ?_⟩
    · exact hpend'.trans (hnone.symm.trans hpend)
    · exact hfail'.trans (hend.symm.trans hfail)
  · obtain ⟨-, rfl, rfl⟩ := Walk.of_read_got hn h hnil
    have htake : (v.pending.take n).length = min n v.pending.length := List.length_take
    refine ⟨List.length_take_le _ _, hpend ▸ List.take_prefix _ _, fun hnil' => absurd hnil' hnil,
      by omega, ?_, ?_⟩
    · rw [Walk.pending_pass, ← List.drop_drop, ← hpend, drop_length_take]
    · rw [Walk.failure_pass, hfail]

/-- A skip of a walk that has delivered `k` bytes passes over the next ones, and over none only at
an end that is shown. -/
lemma service_skip {j : Nat} (hs : (service host w).consumed v k) (hn : 0 < n)
    (h : v.skip n = (.ok j, v')) :
    j ≤ n ∧ k + j ≤ w.pending.length ∧ (j = 0 → w.failure = none ∧ w.pending.length ≤ k) ∧
      (service host w).consumed v' (k + j) := by
  obtain ⟨hk, hpend, hfail⟩ := hs
  have hleft : v.pending.length = w.pending.length - k := by rw [hpend, List.length_drop]
  by_cases hle : n ≤ v.pending.length
  · rw [Walk.skip_of_le hn hle] at h
    cases h
    refine ⟨Nat.le_refl n, by omega, fun h0 => by omega, by omega, ?_, ?_⟩
    · rw [Walk.pending_pass, ← List.drop_drop, ← hpend]
    · rw [Walk.failure_pass, hfail]
  · rw [Walk.skip_of_lt (Nat.lt_of_not_le hle)] at h
    cases hnone : v.failure with
    | some e =>
      rw [hnone] at h
      cases h
    | none =>
      rw [hnone] at h
      cases h
      obtain ⟨hpend', hfail'⟩ := Walk.over_of_failure_none hnone
      refine ⟨by omega, by omega, fun h0 => ⟨hfail ▸ hnone, by omega⟩, by omega, ?_, ?_⟩
      · rw [hpend', List.drop_eq_nil_of_le (by omega)]
      · rw [hfail', ← hfail, hnone]

/-- A read of a source is a read of the walk, which leaves the host as it is. -/
lemma source_read {r : Except IoError Bytes} {host₁ host₂ : Host}
    (h : m.source.read n v host₁ = (r, v', host₂)) : v.read n = (r, v') ∧ host₂ = host₁ := by
  have heq : ((v.read n).1, (v.read n).2, host₁) = (r, v', host₂) := h
  obtain ⟨hr, hrest⟩ := Prod.mk.inj heq
  obtain ⟨hv, hhost⟩ := Prod.mk.inj hrest
  exact ⟨Prod.ext hr hv, hhost.symm⟩

/-- A read of a walk is a read of the source. -/
lemma source_read_eq {r : Except IoError Bytes} (h : v.read n = (r, v')) (m : Mount)
    (host : Host) : m.source.read n v host = (r, v', host) := by
  show ((v.read n).1, (v.read n).2, host) = _
  rw [h]

/-- A skip of a source is a skip of the walk, which leaves the host as it is. -/
lemma source_skip {r : Except IoError Nat} {host₁ host₂ : Host}
    (h : m.source.skip n v host₁ = (r, v', host₂)) : v.skip n = (r, v') ∧ host₂ = host₁ := by
  have heq : ((v.skip n).1, (v.skip n).2, host₁) = (r, v', host₂) := h
  obtain ⟨hr, hrest⟩ := Prod.mk.inj heq
  obtain ⟨hv, hhost⟩ := Prod.mk.inj hrest
  exact ⟨Prod.ext hr hv, hhost.symm⟩

/-- A skip of a walk is a skip of the source. -/
lemma source_skip_eq {r : Except IoError Nat} (h : v.skip n = (r, v')) (m : Mount) (host : Host) :
    m.source.skip n v host = (r, v', host) := by
  show ((v.skip n).1, (v.skip n).2, host) = _
  rw [h]

/-- The walks for an entry keep to what lies ahead of the first of them. -/
theorem source_keeps (ho : m.openEntry host p = .ok w) :
    m.source.Keeps p (service host w) where
  world_openEntry := by
    intro h r h' heq hw
    obtain ⟨-, rfl⟩ := Prod.mk.inj heq
    exact hw
  world_read := by
    intro n s h r s' h' heq hw
    obtain ⟨-, rfl⟩ := source_read heq
    exact hw
  world_skip := by
    intro n s h r s' h' heq hw
    obtain ⟨-, rfl⟩ := source_skip heq
    exact hw
  openEntry := by
    rintro h s h' heq rfl
    obtain ⟨hs, -⟩ := Prod.mk.inj heq
    rw [ho] at hs
    obtain rfl : w = s := Except.ok.inj hs
    exact ⟨Nat.zero_le _, rfl, rfl⟩
  read := by
    intro n s h got s' h' k heq hw hs hn
    obtain ⟨hread, -⟩ := source_read heq
    exact service_read hs hn hread
  skip := by
    intro n s h j s' h' k heq hw hs hn
    obtain ⟨hskip, -⟩ := source_skip heq
    exact service_skip hs hn hskip

end Keeps

end Mount

end ZipMount
