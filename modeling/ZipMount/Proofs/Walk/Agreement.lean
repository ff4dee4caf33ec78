import ZipMount.Proofs.Inflater
import ZipMount.Proofs.Walk.Leaving

/-!
# Passing over an entry and reading it

There are two ways to leave an entry.  One that has not been touched is passed over by the
compressed size that its header records; one that has been read to its end is left where its decoder
stopped.  The decoder of a deflate stream is not told the recorded size, and nothing compares the
two.

`Skims` is a run that touches no entry, and `Peruses` one that reads every entry that can be read.
Both can come to the end of the same container without an error and disagree about what is in it
(`not_skims_agree`): a recorded size that is too large hides the entries behind a short stream.
They agree as long as every deflate stream that is read takes as many bytes as its header records,
and at an entry of which that is false, a `Misfit`, they still agree (`skims_agree_until_misfit`).
-/

namespace ZipMount

namespace Walk

/-- Reading the current entry to its end, in pieces of any positive sizes, leads to another walk. -/
inductive Drained [Inflater] : Walk → Walk → Prop
  | ended {w w' : Walk} {n : Nat} (hn : 0 < n) (h : w.read n = (.ok [], w')) : Drained w w'
  | read {w v w' : Walk} {n : Nat} {got : Bytes} (hn : 0 < n) (h : w.read n = (.ok got, v))
      (hne : got ≠ []) (rest : Drained v w') : Drained w w'

/-- The records of a run that only moves from entry to entry and ends without an error. -/
inductive Skims [Inflater] : Walk → List Record → Prop
  | done {w w' : Walk} (h : w.next = (.ok none, w')) : Skims w []
  | entry {w v : Walk} {r : Record} {rs : List Record} (h : w.next = (.ok (some r), v))
      (rest : Skims v rs) : Skims w (r :: rs)

/-- The records of a run that reads each entry that can be read to its end before it moves on, and
ends without an error.  With each record comes the walk at the first byte of the payload. -/
inductive Peruses [Inflater] : Walk → List (Record × Walk) → Prop
  | done {w w' : Walk} (h : w.next = (.ok none, w')) : Peruses w []
  | refused {w v : Walk} {r : Record} {stops : List (Record × Walk)}
      (h : w.next = (.ok (some r), v)) (hr : ¬ v.Readable) (rest : Peruses v stops) :
      Peruses w ((r, v) :: stops)
  | drained {w v v' : Walk} {r : Record} {stops : List (Record × Walk)}
      (h : w.next = (.ok (some r), v)) (hr : v.Readable) (hd : Drained v v')
      (rest : Peruses v' stops) : Peruses w ((r, v) :: stops)

/-- The walk is at a deflate stream that can be read and that takes another number of bytes than the
header of the entry records. -/
def Misfit [Inflater] (w : Walk) : Prop :=
  ∃ c payload output left size, w.current = some c ∧ c.entry.refusal = none ∧
    w.place = .atPayload (payload ++ left) ∧ c.entry.method = .deflated ∧
    Inflates payload output ∧ c.entry.compressedSize = some size ∧ payload.length ≠ size

section Leaving

variable [LawfulInflater] {w v : Walk} {e : Entry} {rest : Bytes}

/-- Reading to the end leads behind the payload, whatever the pieces. -/
lemma Drained.eq_ending {w' : Walk} (h : w.Drained w') : w.failure = none ∧ w' = w.ending.2 := by
  induction h with
  | ended hn h =>
    obtain ⟨-, hfail, hend⟩ := of_read_nil hn h
    exact ⟨hfail, hend⟩
  | read hn h hne rest ih =>
    obtain ⟨-, -, rfl⟩ := of_read_got hn h hne
    rwa [failure_pass, ending_pass] at ih

/-- Moving to an entry leads to the first byte of its payload. -/
lemma next_eq_some {r : Record} (h : w.next = (.ok (some r), v)) :
    ∃ e rest, v.place = .atPayload rest ∧ v.current = some (Current.untouched e) := by
  cases moves_of_next h with
  | @found v input rest e hclose hplace hheader => exact ⟨e, rest, rfl, rfl⟩

/-- A payload that does not fail is followed by a descriptor that can be read, and by the next
header. -/
lemma exists_of_failure_none (hp : w.place = .atPayload rest)
    (hc : w.current = some (Current.untouched e)) (hr : e.refusal = none)
    (hf : w.failure = none) :
    ∃ p left e' more, w.place.enter w.slicing e = .ok p ∧ p.beyond = some (.ok left) ∧
      settle e left = .ok (e', more) ∧ w.ending.2 = ⟨.atHeader more, none, w.regime⟩ := by
  obtain ⟨p, left, more, henter, hb, hcon⟩ := exists_conclusion hp hc hr hf
  obtain ⟨e', hsettle⟩ := settle_of_conclusion hcon
  have hend := ending_of_beyond_ok hc hr henter hb
  rw [hcon] at hend
  exact ⟨p, left, e', more, henter, hb, hsettle, by rw [hend]; rfl⟩

/-- Behind a payload of recorded size that does not fail and is no misfit are the bytes behind as
many as are recorded. -/
lemma eq_drop_of_beyond {size : Nat} {p : Place} {left : Bytes} (hp : w.place = .atPayload rest)
    (hc : w.current = some (Current.untouched e)) (hr : e.refusal = none)
    (hs : e.compressedSize = some size) (henter : w.place.enter w.slicing e = .ok p)
    (hb : p.beyond = some (.ok left)) (hfit : ¬ w.Misfit) :
    size ≤ rest.length ∧ left = rest.drop size := by
  rw [hp] at henter
  cases hm : e.method with
  | other code => simp [Place.enter, hm] at henter
  | stored =>
    obtain rfl : .inStored rest size = p := by simpa [Place.enter, hm, hs] using henter
    by_cases hle : size ≤ rest.length
    · refine ⟨hle, ?_⟩
      simpa [Place.beyond, hle] using hb.symm
    · simp [Place.beyond, hle] at hb
  | deflated =>
    obtain rfl : .inDeflated (Inflater.inflow (w.slicing.slices rest)) = p := by
      simpa [Place.enter, hm] using henter
    obtain ⟨payload, rfl, hpayload⟩ := exists_inflates_of_ending (Option.some.inj hb)
    have hlen : payload.length = size := by
      by_contra hne
      exact hfit ⟨_, payload, _, left, size, hc, hr, hp, hm, hpayload, hs, hne⟩
    refine ⟨by rw [List.length_append]; omega, ?_⟩
    rw [← hlen, List.drop_left]

/-- An entry that is no misfit is left at the same place whether it is passed over or read. -/
lemma close_eq_ending (hp : w.place = .atPayload rest)
    (hc : w.current = some (Current.untouched e)) (hr : e.refusal = none)
    (hf : w.failure = none) (hfit : ¬ w.Misfit) :
    w.close = (.ok (), w.ending.2) ∧ w.ending.2.current = none := by
  obtain ⟨p, left, e', more, henter, hb, hsettle, hend⟩ := exists_of_failure_none hp hc hr hf
  refine ⟨?_, by rw [hend]⟩
  cases hs : e.compressedSize with
  | none => rw [close_of_drained hc hr (.inr hs), hf]
  | some size =>
    obtain ⟨hle, rfl⟩ := eq_drop_of_beyond hp hc hr hs henter hb hfit
    rw [close_of_passed hp hc hs hle hsettle, hend]

/-- After an entry that is no misfit, a run that has read it moves on as one that has not. -/
lemma next_eq_of_drained {w' : Walk} {r : Record} {u : Walk} (hv : u.next = (.ok (some r), w))
    (hr : w.Readable) (hd : w.Drained w') (hfit : ¬ w.Misfit) : w.next = w'.next := by
  obtain ⟨e, rest, hp, hc⟩ := next_eq_some hv
  obtain ⟨c, hc', hrefusal⟩ := hr
  rw [hc] at hc'
  cases hc'
  obtain ⟨hf, rfl⟩ := hd.eq_ending
  obtain ⟨hclose, hcurrent⟩ := close_eq_ending hp hc hrefusal hf hfit
  exact next_of_close hclose hcurrent

end Leaving

/-! ## Two runs -/

/-- The records of a run that touches nothing and of a run that reads agree, or they agree up to and
including the first entry that is a misfit. -/
def AgreeUntilMisfit [Inflater] (rs : List Record) (stops : List (Record × Walk)) : Prop :=
  rs = stops.map Prod.fst ∨
    ∃ before r v after, stops = before ++ (r, v) :: after ∧ v.Misfit ∧
      (∀ s ∈ before, ¬ s.2.Misfit) ∧ before.map Prod.fst ++ [r] <+: rs

section Runs

variable [LawfulInflater]

/-- Runs that agree behind an entry that is no misfit agree. -/
lemma AgreeUntilMisfit.cons {r : Record} {v : Walk} {rs : List Record}
    {stops : List (Record × Walk)} (hfit : ¬ v.Misfit) (h : AgreeUntilMisfit rs stops) :
    AgreeUntilMisfit (r :: rs) ((r, v) :: stops) := by
  rcases h with rfl | ⟨before, r', v', after, rfl, hmisfit, hbefore, hprefix⟩
  · exact .inl rfl
  · refine .inr ⟨(r, v) :: before, r', v', after, rfl, hmisfit, ?_, ?_⟩
    · intro s hs
      rcases List.mem_cons.mp hs with rfl | hs
      · exact hfit
      · exact hbefore s hs
    · exact (List.prefix_cons_inj r).mpr hprefix

/-- Two runs that move on alike find the same next entry, or both find none. -/
lemma skims_next {w w' v : Walk} {rs : List Record} {r : Record} (hs : w.Skims rs)
    (hnext : w.next = w'.next) (h : w'.next = (.ok (some r), v)) :
    ∃ more, rs = r :: more ∧ v.Skims more := by
  cases hs with
  | done h' =>
    rw [hnext, h] at h'
    cases h'
  | entry h' rest =>
    rw [hnext, h] at h'
    cases h'
    exact ⟨_, rfl, rest⟩

/-- Two runs that begin alike agree until a misfit. -/
lemma Skims.agree {w w' : Walk} {rs : List Record} {stops : List (Record × Walk)}
    (hs : w.Skims rs) (hp : w'.Peruses stops) (hnext : w.next = w'.next) :
    AgreeUntilMisfit rs stops := by
  induction hp generalizing w rs with
  | done h =>
    cases hs with
    | done h' => exact .inl rfl
    | entry h' rest =>
      rw [hnext, h] at h'
      cases h'
  | @refused w' v r stops h hr rest ih =>
    obtain ⟨more, rfl, hs'⟩ := skims_next hs hnext h
    have hfit : ¬ v.Misfit := by
      rintro ⟨c, _, _, _, _, hc, hrefusal, -⟩
      exact hr ⟨c, hc, hrefusal⟩
    exact (ih hs' rfl).cons hfit
  | @drained w' v v' r stops h hr hd rest ih =>
    obtain ⟨more, rfl, hs'⟩ := skims_next hs hnext h
    -- At a misfit the runs may part: nothing is claimed of what follows.
    by_cases hfit : v.Misfit
    · refine .inr ⟨[], r, v, stops, rfl, hfit, fun s hs => (by cases hs), ?_⟩
      exact ⟨more, rfl⟩
    · exact (ih hs' (next_eq_of_drained h hr hd hfit)).cons hfit

/-- A run that touches no entry and a run that reads every entry it can, when both come to the end
of the same container without an error, report the same records up to and including the first entry
whose deflate stream takes another number of bytes than its header records, and the same records
altogether if there is no such entry. -/
theorem skims_agree_until_misfit {container : Bytes} {regime : Regime} {rs : List Record}
    {stops : List (Record × Walk)} (hs : (start container regime).Skims rs)
    (hp : (start container regime).Peruses stops) : AgreeUntilMisfit rs stops :=
  hs.agree hp rfl

end Runs

/-- A container of two empty entries.  The first takes five bytes, but its header records as many as
reach to the end of the container. -/
def overrun : Bytes :=
  LocalHeader.encode ⟨20, 0, 8, 0, 0, 0, 36, 0, [97], []⟩ ++ ([1, 0, 0, 0xFF, 0xFF] ++
    LocalHeader.encode ⟨20, 0, 0, 0, 0, 0, 0, 0, [98], []⟩)

/-- The walk at the first entry. -/
def overrunFirst : Walk where
  place := .atPayload ([1, 0, 0, 0xFF, 0xFF] ++
    LocalHeader.encode ⟨20, 0, 0, 0, 0, 0, 0, 0, [98], []⟩)
  current := some (Current.untouched ⟨"a", .deflated, some 0, some 36, some 0, none, none⟩)
  regime := true

/-- The walk at the second entry. -/
def overrunSecond : Walk where
  place := .atPayload []
  current := some (Current.untouched ⟨"b", .stored, some 0, some 0, some 0, none, none⟩)
  regime := true

/-- Without touching it, the second entry is passed over with the first. -/
lemma skims_overrun : (start overrun true).Skims [⟨"a", some 0, some 36, 0, .deflated⟩] := by
  have hfirst : (start overrun true).next =
      (.ok (some ⟨"a", some 0, some 36, 0, .deflated⟩), overrunFirst) := by rfl
  have hlast : overrunFirst.next = (.ok none, ⟨.ended, none, true⟩) := by rfl
  exact .entry hfirst (.done hlast)

/-- Reading the first entry leads to the second. -/
lemma peruses_overrun : (start overrun true).Peruses
    [(⟨"a", some 0, some 36, 0, .deflated⟩, overrunFirst),
      (⟨"b", some 0, some 0, 0, .stored⟩, overrunSecond)] := by
  have hfirst : (start overrun true).next =
      (.ok (some ⟨"a", some 0, some 36, 0, .deflated⟩), overrunFirst) := by rfl
  have hread : overrunFirst.read 1 = (.ok [],
      ⟨.atHeader (LocalHeader.encode ⟨20, 0, 0, 0, 0, 0, 0, 0, [98], []⟩), none, true⟩) := by rfl
  have hsecond : next
      ⟨.atHeader (LocalHeader.encode ⟨20, 0, 0, 0, 0, 0, 0, 0, [98], []⟩), none, true⟩ =
      (.ok (some ⟨"b", some 0, some 0, 0, .stored⟩), overrunSecond) := by rfl
  have hread' : overrunSecond.read 1 = (.ok [], ⟨.atHeader [], none, true⟩) := by rfl
  have hlast : next ⟨.atHeader [], none, true⟩ = (.ok none, ⟨.ended, none, true⟩) := by rfl
  refine .drained hfirst ⟨_, rfl, rfl⟩ (.ended Nat.one_pos hread) ?_
  exact .drained hsecond ⟨_, rfl, rfl⟩ (.ended Nat.one_pos hread') (.done hlast)

/-- The two runs through this container agree on the first entry, which is a misfit. -/
theorem overrun_agree_until_misfit :
    (start overrun true).Skims [⟨"a", some 0, some 36, 0, .deflated⟩] ∧
      (start overrun true).Peruses [(⟨"a", some 0, some 36, 0, .deflated⟩, overrunFirst),
        (⟨"b", some 0, some 0, 0, .stored⟩, overrunSecond)] ∧
      AgreeUntilMisfit [⟨"a", some 0, some 36, 0, .deflated⟩]
        [(⟨"a", some 0, some 36, 0, .deflated⟩, overrunFirst),
          (⟨"b", some 0, some 0, 0, .stored⟩, overrunSecond)] :=
  ⟨skims_overrun, peruses_overrun, skims_agree_until_misfit skims_overrun peruses_overrun⟩

/-- The two runs do not report the same records of every container. -/
theorem not_skims_agree :
    ¬ ∀ (container : Bytes) (rs : List Record) (stops : List (Record × Walk)),
      (start container true).Skims rs → (start container true).Peruses stops →
        rs = stops.map Prod.fst := by
  intro hagree
  have heq := hagree overrun _ _ skims_overrun peruses_overrun
  exact absurd (congrArg List.length heq) (by decide)

end Walk

end ZipMount
