import ZipMount.Proofs.Mount.Lookup
import ZipMount.Proofs.Walk.Abreast

/-!
# Truncation never invents anything

A container may have been cut off, by a download that broke off for instance.  What a mount says of
the beginning of a container is also true of the whole: the records are the first ones, what is there
is there, what is a directory is one, a size is the size, and the bytes of an entry are the first of
its bytes (`truncation_invents_nothing`).  It may say less: a lookup that meets the cut finds nothing.

Every answer comes from a search and from what is ahead where the search stops, so it is enough that
the walks through the two containers keep `Abreast`.
-/

namespace ZipMount

namespace Mount

open Walk (Beside)

section Append

variable [LawfulInflater] {m : Mount} {p : VirtualPath} {host host' : Host} {cut more : Bytes}
  {r : Record} {u w : Walk}

section Cut

variable (hcut : host.files.read (p.container host.environment) = .ok cut)
  (hwhole : host'.files.read (p.container host'.environment) = .ok (cut ++ more))

include hcut hwhole

/-- A search that stops in the beginning of a container stops at the same record in the whole. -/
lemma find_append {q : Record → Bool} {v : Walk} (ho : m.openContainer host p = .ok v)
    (hfind : v.find q = (.ok (some r), u)) :
    ∃ v' w, m.openContainer host' p = .ok v' ∧ v'.find q = (.ok (some r), w) ∧
      Beside more r u w := by
  unfold openContainer at ho ⊢
  rw [hcut] at ho
  cases ho
  have hverify : (m.regime (cut ++ more).length).verify = (m.regime cut.length).verify := rfl
  obtain ⟨w, hstop, hbeside⟩ := Walk.find_append hverify hfind
  rw [hwhole]
  exact ⟨_, w, rfl, hstop, hbeside⟩

/-- An entry that is found in the beginning of a container is found in the whole. -/
lemma locate_append (h : m.locate host p = .ok (some (r, u))) :
    ∃ w, m.locate host' p = .ok (some (r, w)) ∧ Beside more r u w := by
  obtain ⟨v, ho, hfind⟩ := locate_eq_some_iff.mp h
  obtain ⟨v', w, ho', hstop, hbeside⟩ := find_append hcut hwhole ho hfind
  exact ⟨w, locate_eq_some_iff.mpr ⟨v', ho', hstop⟩, hbeside⟩

/-- What is there in the beginning of a container is there in the whole. -/
lemma contains_append (h : m.contains host p = true) : m.contains host' p = true := by
  rcases contains_eq_true_iff.mp h with hroot | ⟨r, u, hlocate⟩
  · exact contains_eq_true_iff.mpr (.inl hroot)
  · obtain ⟨w, hlocate', -⟩ := locate_append hcut hwhole hlocate
    exact contains_eq_true_iff.mpr (.inr ⟨r, w, hlocate'⟩)

/-- What is a directory in the beginning of a container is one in the whole. -/
lemma isDirectory_append (h : m.isDirectory host p = true) : m.isDirectory host' p = true := by
  rcases isDirectory_eq_true_iff.mp h with hroot | ⟨v, r, u, ho, hfind, hdir⟩
  · exact isDirectory_eq_true_iff.mpr (.inl hroot)
  · obtain ⟨v', w, ho', hstop, -⟩ := find_append hcut hwhole ho hfind
    exact isDirectory_eq_true_iff.mpr (.inr ⟨v', r, w, ho', hstop, hdir⟩)

end Cut

/-- Measuring in steps of some size succeeds only if the payload ends without a failure. -/
lemma failure_of_measureWithin {chunk fuel n : Nat} (hc : 0 < chunk)
    (hfuel : w.pending.length < fuel) (h : measureWithin chunk fuel w = .ok n) :
    w.failure = none := by
  induction fuel generalizing w n with
  | zero => omega
  | succ fuel ih =>
    rw [measureWithin] at h
    by_cases hle : chunk ≤ w.pending.length
    · obtain ⟨k, rfl⟩ : ∃ k, chunk = k + 1 := ⟨chunk - 1, by omega⟩
      rw [Walk.skip_of_le hc hle] at h
      dsimp only at h
      rcases hmore : measureWithin (k + 1) fuel (w.pass (k + 1)) with e | j
      · rw [hmore] at h
        cases h
      · have hshort : (w.pass (k + 1)).pending.length < fuel := by
          rw [Walk.pending_pass, List.length_drop]
          omega
        have hfail := ih hshort hmore
        rwa [Walk.failure_pass] at hfail
    · rw [Walk.skip_of_lt (Nat.lt_of_not_le hle)] at h
      rcases hfail : w.failure with _ | e
      · rfl
      · rw [hfail] at h
        cases h

/-- A measure other than zero is that of a payload that ends without a failure. -/
lemma failure_of_measure {chunk n : Nat} (hn : n ≠ 0) (h : measure chunk w = .ok n) :
    0 < chunk ∧ w.failure = none := by
  rcases Nat.eq_zero_or_pos chunk with rfl | hc
  · -- Steps of no bytes find nothing.
    rw [measure, measureWithin, Walk.skip_zero] at h
    cases h
    exact absurd rfl hn
  · have hfuel : w.enter.pending.length < w.enter.place.available + 1 := by
      rw [Walk.pending_enter]
      exact Nat.lt_succ_of_le (Walk.length_pending_le w)
    have hfail := failure_of_measureWithin hc hfuel h
    rw [Walk.failure_enter] at hfail
    exact ⟨hc, hfail⟩

/-- A measure other than zero is the same with more bytes behind. -/
lemma measure_append {chunk n : Nat} (hb : Beside more r u w) (hn : n ≠ 0)
    (h : measure chunk u = .ok n) : measure chunk w = .ok n := by
  obtain ⟨hc, hfail⟩ := failure_of_measure hn h
  obtain ⟨hfail', hpending⟩ := hb.of_failure_none hfail
  rw [measure_eq hc hfail] at h
  rw [measure_eq hc hfail', hpending, h]

/-- A size other than zero in the beginning of a container is the size in the whole. -/
lemma size_append (hcut : host.files.read (p.container host.environment) = .ok cut)
    (hwhole : host'.files.read (p.container host'.environment) = .ok (cut ++ more))
    (h : m.size host p ≠ 0) : m.size host' p = m.size host p := by
  have hsome : ∃ n, m.knownSize host p = .ok n ∧ n ≠ 0 := by
    unfold size at h
    split at h
    next n hknown => exact ⟨n, hknown, h⟩
    next => exact absurd rfl h
  obtain ⟨n, hknown, hn⟩ := hsome
  rw [size_of_knownSize hknown]
  apply size_of_knownSize
  rcases hlocate : m.locate host p with e | _ | ⟨r, u⟩
  · rw [knownSize, hlocate] at hknown
    cases hknown
  · rw [knownSize, hlocate] at hknown
    cases hknown
    exact absurd rfl hn
  · obtain ⟨w, hlocate', hbeside⟩ := locate_append hcut hwhole hlocate
    rw [knownSize_of_locate hlocate] at hknown
    rw [knownSize_of_locate hlocate']
    rcases hd : r.declaredSize with _ | declared
    · rw [hd] at hknown
      dsimp only at hknown ⊢
      rcases hmeasure : measure m.settings.sizeProbeChunk u with e | k
      · rw [hmeasure] at hknown
        cases hknown
      · rw [hmeasure] at hknown
        cases hknown
        rw [measure_append hbeside hn hmeasure]
        rfl
    · rw [hd] at hknown
      exact hknown

end Append

/-- Nothing is found in the beginning of a container that is not in the whole.  The records of the
beginning are the first records of the whole.  A path that is there, or is a directory, is so in the
whole, too; a size other than zero is the size in the whole.  And each entry that is passed in the
beginning is passed in the whole; if its payload in the whole is stored, or begins with a complete
deflate stream, then whatever a straight read of it delivers in the beginning is the beginning of what
one delivers in the whole. -/
theorem truncation_invents_nothing [LawfulInflater] {cut container : Bytes} (h : cut <+: container)
    (m : Mount) :
    (Walk.start cut (m.regime cut.length)).records.1 <+:
        (Walk.start container (m.regime container.length)).records.1 ∧
      (∀ (p : VirtualPath) (host host' : Host),
        host.files.read (p.container host.environment) = .ok cut →
        host'.files.read (p.container host'.environment) = .ok container →
        (m.contains host p = true → m.contains host' p = true) ∧
          (m.isDirectory host p = true → m.isDirectory host' p = true) ∧
          (m.size host p ≠ 0 → m.size host' p = m.size host p)) ∧
      ∀ (i : Nat) (r : Record) (u : Walk),
        (Walk.start cut (m.regime cut.length)).stops[i]? = some (r, u) →
        ∃ w : Walk, (Walk.start container (m.regime container.length)).stops[i]? = some (r, w) ∧
          (w.Legible → ∀ data failure data' failure', u.ReadsThrough data failure →
            w.ReadsThrough data' failure' → data <+: data') := by
  obtain ⟨more, rfl⟩ := h
  have hverify : (m.regime (cut ++ more).length).verify = (m.regime cut.length).verify := rfl
  refine ⟨Walk.records_append cut more hverify, ?_, ?_⟩
  · intro p host host' hcut hwhole
    exact ⟨contains_append hcut hwhole, isDirectory_append hcut hwhole, size_append hcut hwhole⟩
  · intro i r u hstop
    obtain ⟨w, hstop', hbeside⟩ := Walk.stops_append hverify hstop
    refine ⟨w, hstop', fun hlegible data failure data' failure' hu hw => ?_⟩
    obtain ⟨rfl, -⟩ := hu.eq
    obtain ⟨rfl, -⟩ := hw.eq
    exact hbeside.pending_prefix hlegible

/-- A deflated entry of three bytes without the last byte of its stream. -/
def cutOffContainer : Bytes :=
  LocalHeader.encode ⟨20, 0, 8, 0, 0, 0x31B429DC, 8, 3, [97], []⟩ ++ [1, 3, 0, 0xFC, 0xFF, 5, 6]

/-- The record of the entry. -/
def cutOffRecord : Record := ⟨"a", some 3, some 8, 0x31B429DC, .deflated⟩

/-- The walk at the entry, with the given bytes ahead, in a container of the given length. -/
def cutOffWalk (length : Nat) (ahead : Bytes) : Walk where
  place := .atPayload ahead
  current := some (Current.untouched
    ⟨"a", .deflated, some 3, some 8, some 0x31B429DC, none, none⟩)
  regime := standard.regime length

/-- The entry is passed with and without its last byte.  Without it, two of the three bytes are
delivered before the stream ends, and they are the first two. -/
theorem truncation_of_deflated :
    cutOffContainer <+: cutOffContainer ++ [7] ∧
      (Walk.start cutOffContainer (standard.regime 38)).stops[0]? =
        some (cutOffRecord, cutOffWalk 38 [1, 3, 0, 0xFC, 0xFF, 5, 6]) ∧
      (cutOffWalk 38 [1, 3, 0, 0xFC, 0xFF, 5, 6]).ReadsThrough [5, 6] (some .incompleteDeflate) ∧
      (cutOffWalk 39 [1, 3, 0, 0xFC, 0xFF, 5, 6, 7]).ReadsThrough [5, 6, 7] none ∧
      ([5, 6] : Bytes) <+: [5, 6, 7] := by
  have hcut : cutOffContainer <+: cutOffContainer ++ [7] := List.prefix_append _ _
  have hstop : (Walk.start cutOffContainer (standard.regime 38)).stops[0]? =
      some (cutOffRecord, cutOffWalk 38 [1, 3, 0, 0xFC, 0xFF, 5, 6]) := by rfl
  have hstop' : (Walk.start (cutOffContainer ++ [7]) (standard.regime 39)).stops[0]? =
      some (cutOffRecord, cutOffWalk 39 [1, 3, 0, 0xFC, 0xFF, 5, 6, 7]) := by rfl
  have hreads : (cutOffWalk 38 [1, 3, 0, 0xFC, 0xFF, 5, 6]).ReadsThrough [5, 6]
      (some .incompleteDeflate) := Walk.readsThrough_pending _
  have hreads' : (cutOffWalk 39 [1, 3, 0, 0xFC, 0xFF, 5, 6, 7]).ReadsThrough [5, 6, 7] none := by
    have hfail : (cutOffWalk 39 [1, 3, 0, 0xFC, 0xFF, 5, 6, 7]).failure = none := by decide +kernel
    have hall := Walk.readsThrough_pending (cutOffWalk 39 [1, 3, 0, 0xFC, 0xFF, 5, 6, 7])
    rwa [hfail] at hall
  have hlegible : (cutOffWalk 39 [1, 3, 0, 0xFC, 0xFF, 5, 6, 7]).Legible :=
    ⟨_, _, rfl, rfl, .inr ⟨[1, 3, 0, 0xFC, 0xFF, 5, 6, 7], [5, 6, 7], [], rfl, by rfl⟩⟩
  obtain ⟨-, -, hstops⟩ := truncation_invents_nothing hcut standard
  obtain ⟨w, hw, hprefix⟩ := hstops 0 _ _ hstop
  obtain rfl : _ = w := congrArg Prod.snd (Option.some.inj (hstop'.symm.trans hw))
  exact ⟨hcut, hstop, hreads, hreads', hprefix hlegible _ _ _ _ hreads hreads'⟩

end Mount

end ZipMount
