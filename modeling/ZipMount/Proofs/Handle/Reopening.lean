import ZipMount.Proofs.Handle.Calls

/-!
# When a handle opens its entry again

Streams only go forward, so a read that begins before the place of the stream has to open the entry
again.  How far the stream has come is known from the answers alone: as far as the last read has
come, and no farther than the entry goes.  A handle opens the entry when that is behind the
position, or when the last read has failed and has taken the stream with it, and then it does so
once.  Nothing else makes it open the entry, so that reading front to back takes one stream.

`OpensAsNeeded` says this of the legs of a run, by keeping account of how far the stream has come;
the main statement is `legs_openAsNeeded`.
-/

namespace ZipMount

/-- Streams that keep to a service never hand over more bytes than there are. -/
lemma EntrySource.Keeps.within {ω σ : Type} {src : EntrySource ω σ} {path : VirtualPath}
    {v : Service ω σ} (hv : src.Keeps path v) :
    src.Keeps path { v with consumed := fun s k => v.consumed s k ∧ k ≤ v.data.length } where
  world_openEntry := hv.world_openEntry
  world_read := hv.world_read
  world_skip := hv.world_skip
  openEntry := fun h hw => ⟨hv.openEntry h hw, Nat.zero_le _⟩
  read := by
    rintro n s w got s' w' k h hw ⟨hs, hk⟩ hn
    obtain ⟨hlen, hslice, hend, hs'⟩ := hv.read h hw hs hn
    have hle := hslice.length_le
    rw [List.length_drop] at hle
    exact ⟨hlen, hslice, hend, hs', by omega⟩
  skip := by
    rintro n s w m s' w' k h hw ⟨hs, hk⟩ hn
    obtain ⟨hlen, hle, hend, hs'⟩ := hv.skip h hw hs hn
    exact ⟨hlen, hle, hend, hs', hle⟩

namespace Handle

variable {ω σ : Type}

/-! ## Accounts of a run -/

namespace Leg

/-- How often the leg opens the entry. -/
def openings (leg : Leg σ) : Nat :=
  leg.calls.countP StreamCall.isOpening

/-- The leg has a new stream. -/
def hasReopened (leg : Leg σ) : Bool :=
  leg.calls.any fun
    | .opening (.ok _) => true
    | _ => false

/-- The position behind what the leg has read. -/
def stop (leg : Leg σ) : Nat :=
  match leg.answer with
  | .got (.ok got) => leg.position + got.length
  | _ => leg.position

/-- The leg has read something, or tried to, and failed. -/
def fails (leg : Leg σ) : Bool :=
  match leg.answer with
  | .got (.error _) => true
  | _ => false

/-- How far the stream has come after a leg, in an entry of the given length, if it had come to `c`:
as far as the leg has read, or to the end of the entry if it begins behind that. -/
def reach (length c : Nat) (leg : Leg σ) : Nat :=
  if leg.request.wanted = 0 then c
  else if leg.fails then if leg.hasReopened then 0 else c
  else if leg.position ≤ length then leg.stop
  else length

end Leg

/-- A run in which the entry is opened once by each read that begins before the place to which the
stream has come or comes after a failed one, and at no other time.  The run begins with the stream
at `c`, behind a failed read or not. -/
def OpensAsNeeded (length : Nat) : Nat → Bool → List (Leg σ) → Prop
  | _, _, [] => True
  | c, failed, leg :: legs =>
    leg.openings = (if 0 < leg.request.wanted ∧ (failed ∨ leg.position < c) then 1 else 0) ∧
      OpensAsNeeded length (leg.reach length c)
        (if leg.request.wanted = 0 then failed else leg.fails) legs

/-- The legs that want bytes follow one another front to back. -/
def FrontToBack (legs : List (Leg σ)) : Prop :=
  (legs.filter (0 < ·.request.wanted)).IsChain fun earlier later => earlier.stop ≤ later.position

section Reopening

variable {src : EntrySource ω σ} {path : VirtualPath} {v : Service ω σ} {length : Nat}
  {h : Handle σ} {w : ω}

/-! ## Where a read leaves the stream -/

/-- A stream that has not come to the position has come to the end of the entry. -/
lemma le_streamPosition_of_sync (hv : src.Keeps path v) (hf : h.Follows v path length)
    (hw : v.world w) (hnone : (h.sync src w).1 = .ok none) :
    v.data.length ≤ (h.sync src w).2.1.streamPosition := by
  have hr := revive_follows hv hf hw
  unfold sync at hnone ⊢
  rcases hrevive : h.revive src w with ⟨e | s, h₁, w₁⟩
  · rw [hrevive] at hnone
    cases hnone
  · rw [hrevive] at hr hnone
    dsimp only at hr hnone ⊢
    obtain ⟨hs, -⟩ := hr.ok s rfl
    set h₂ : Handle σ := { h₁ with skipsByReading := h₁.skipsByReading || !src.supportsSkip s }
    have hx : Crosses src path v h₁.streamPosition (h₁.position - h₁.streamPosition)
        (skipForward src h₂ (h₁.position - h₁.streamPosition) s w₁) :=
      skipForward_crosses hv hr.follows.chunk_pos hr.world hs
    by_cases hlt : h₁.streamPosition < h₁.position
    · rw [if_pos hlt] at hnone ⊢
      split at hnone
      next => cases hnone
      next m s₂ w₂ heq =>
        rw [heq] at hx
        obtain ⟨hm, -, hend⟩ := hx.ok m rfl
        have hne : h₁.streamPosition + m ≠ h₁.position := by
          intro hreached
          simp [hreached] at hnone
        exact (hend (by omega)).2
    · rw [if_neg hlt] at hnone
      cases hnone

/-- A read that fails loses the stream, and one that succeeds leaves it behind the bytes, but no
farther than at the end of the entry. -/
lemma place_of_read (hv : src.Keeps path v) (hbound : ∀ s k, v.consumed s k → k ≤ v.data.length)
    (hf : h.Follows v path length) (hw : v.world w) {n : Nat} (hn : 0 < n) :
    (∀ e, (h.read src n w).1 = .error e → (h.read src n w).2.1.place = none) ∧
      ∀ got, (h.read src n w).1 = .ok got → (h.read src n w).2.1.place =
        some (if h.position ≤ v.data.length then h.position + got.length else v.data.length) := by
  obtain ⟨-, -, -, hsync⟩ := sync_recorded src hf.chunk_pos n w []
  have hx := sync_follows hv hf hw
  have hshort := le_streamPosition_of_sync hv hf hw
  unfold read
  rw [if_neg (Nat.ne_of_gt hn)]
  rcases hrun : h.sync src w with ⟨e | _ | s, h₁, w₁⟩
  · rw [hrun] at hsync
    refine ⟨fun e' he => hsync.error e rfl, fun got hgot => ?_⟩
    cases hgot
  · rw [hrun] at hsync hx hshort
    refine ⟨fun e' he => (by cases he), fun got hgot => ?_⟩
    cases hgot
    obtain ⟨s, hs, -⟩ := Option.map_eq_some_iff.mp (hsync.none rfl)
    have hle := hbound s _ (hx.follows.consumed s hs)
    have hend := hshort rfl
    obtain ⟨-, hover⟩ := hx.none rfl
    have hplace := hsync.none rfl
    dsimp only at hplace hle hend ⊢
    rw [hplace, List.length_nil, Option.some.injEq]
    split <;> omega
  · rw [hrun] at hsync hx
    dsimp only
    obtain ⟨hs, -⟩ := hx.some s rfl
    rcases hread : src.read n s w₁ with ⟨e | got, s₂, w₂⟩
    · refine ⟨fun e' he => rfl, fun got hgot => ?_⟩
      cases hgot
    · refine ⟨fun e' he => (by cases he), fun got' hgot => ?_⟩
      cases hgot
      have hat := streamPosition_of_place (hsync.some s rfl)
      rw [if_pos (hbound s _ hs), ← hat]
      rfl

/-! ## Runs -/

/-- Any requests: the entry is opened as needed, if the account of the stream is right. -/
lemma opensAsNeeded_legs (hv : src.Keeps path v)
    (hbound : ∀ s k, v.consumed s k → k ≤ v.data.length) (hf : h.Follows v path length)
    (hw : v.world w) {c : Nat} {failed : Bool}
    (hplace : h.place = if failed then none else some c) (qs : List Request) :
    OpensAsNeeded v.data.length c failed (h.legs src qs w) := by
  -- The account goes with the stream: `hplace` holds again behind each leg.
  induction qs generalizing h w c failed with
  | nil => exact trivial
  | cons q qs ih =>
    obtain ⟨-, hf', hw'⟩ := hf.answer_step hv hw q
    rw [legs_cons src hf.chunk_pos]
    rcases Nat.eq_zero_or_pos q.wanted with hq | hq
    · obtain ⟨hnone, hsame, -, -⟩ := calls_of_wanted_zero src hq w (h := h)
      refine ⟨?_, ?_⟩
      · simp [Leg.openings, hnone, hq]
      · simp only [Leg.reach, hq, if_true]
        exact ih hf' hw' (hsame.trans hplace)
    · cases q with
      | setPosition p => cases hq
      | seek s => cases hq
      | read n =>
        have hn : 0 < n := hq
        obtain ⟨hlost, hat⟩ := place_of_read hv hbound hf hw hn
        refine ⟨?_, ?_⟩
        · rw [Leg.openings, (readCalls_of_wanted_pos src hf.chunk_pos hq w).openings, hplace]
          cases failed with
          | true => simp [hq]
          | false =>
            by_cases hle : c ≤ h.position
            · simp [hq, hle, Nat.not_lt.mpr hle]
            · simp [hq, hle, Nat.lt_of_not_le hle]
        · set leg : Leg σ := ⟨.read n, h.position, h.calls src (.read n) w,
            (h.answer src (.read n) w).1, (h.answer src (.read n) w).2.1.skipsByReading⟩
          have hanswer : leg.answer = .got (h.read src n w).1 := rfl
          have hwanted : leg.request.wanted ≠ 0 := Nat.ne_of_gt hn
          refine ih hf' hw' ?_
          rw [if_neg (Nat.ne_of_gt hq)]
          rcases hread : (h.read src n w).1 with e | got
          · rw [hread] at hanswer
            have hfails : leg.fails = true := by rw [Leg.fails, hanswer]
            rw [hfails, if_pos rfl]
            exact hlost e hread
          · rw [hread] at hanswer
            have hfails : leg.fails = false := by rw [Leg.fails, hanswer]
            have hstop : leg.stop = h.position + got.length := by rw [Leg.stop, hanswer]
            rw [hfails, if_neg Bool.false_ne_true, Leg.reach, if_neg hwanted, hfails,
              if_neg Bool.false_ne_true, hstop]
            exact hat got hread

/-- After a read that does not fail the stream has not come farther than the read. -/
lemma Leg.reach_le_stop {leg : Leg σ} (hwanted : 0 < leg.request.wanted)
    (hfails : leg.fails = false) (length c : Nat) : leg.reach length c ≤ leg.stop := by
  rw [reach, if_neg (Nat.ne_of_gt hwanted), hfails, if_neg Bool.false_ne_true]
  split
  · exact Nat.le_refl _
  next hover =>
    have hstop : leg.position ≤ leg.stop := by
      rw [stop]
      split
      · exact Nat.le_add_right _ _
      · exact Nat.le_refl _
    omega

/-- While no read fails and each begins at the end of the one before or behind it, the entry is
never opened again. -/
lemma OpensAsNeeded.openings_eq_zero {c : Nat} {legs : List (Leg σ)}
    (ho : OpensAsNeeded length c false legs) (hfails : ∀ leg ∈ legs, leg.fails = false)
    (hfront : FrontToBack legs)
    (hbegin : ∀ leg ∈ (legs.filter (0 < ·.request.wanted)).head?, c ≤ leg.position) :
    ∀ leg ∈ legs, leg.openings = 0 := by
  induction legs generalizing c with
  | nil => simp
  | cons leg legs ih =>
    obtain ⟨hopenings, hrest⟩ := ho
    obtain ⟨hleg, hlegs⟩ := List.forall_mem_cons.mp hfails
    rw [List.forall_mem_cons]
    rcases Nat.eq_zero_or_pos leg.request.wanted with hwanted | hwanted
    · have hfilter : (leg :: legs).filter (0 < ·.request.wanted) =
          legs.filter (0 < ·.request.wanted) := by simp [hwanted]
      rw [FrontToBack, hfilter] at hfront
      rw [hfilter] at hbegin
      rw [Leg.reach, if_pos hwanted, if_pos hwanted] at hrest
      exact ⟨by simpa [hwanted] using hopenings, ih hrest hlegs hfront hbegin⟩
    · have hfilter : (leg :: legs).filter (0 < ·.request.wanted) =
          leg :: legs.filter (0 < ·.request.wanted) := by simp [hwanted]
      rw [FrontToBack, hfilter, List.isChain_cons] at hfront
      rw [hfilter] at hbegin
      obtain ⟨hnext, hchain⟩ := hfront
      have hforward : c ≤ leg.position := hbegin leg rfl
      rw [if_neg (Nat.ne_of_gt hwanted), hleg] at hrest
      have hreach : leg.reach length c ≤ leg.stop := leg.reach_le_stop hwanted hleg length c
      refine ⟨?_, ih hrest hlegs hchain fun later hlater => hreach.trans (hnext later hlater)⟩
      rw [hopenings, if_neg]
      rintro ⟨-, hlost | hback⟩
      · cases hlost
      · omega

end Reopening

/-- A handle opens its entry again only when it has to: a read that wants something opens it once if
it begins before the place to which the stream has come or comes after a failed read, and nothing
else opens it.  So a run of reads front to back, none of which fails, takes the stream that the
handle begins with and no other. -/
theorem legs_openAsNeeded {ω σ : Type} {src : EntrySource ω σ} {path : VirtualPath} {data : Bytes}
    {world : ω → Prop} {consumed : σ → Nat → Prop}
    (hv : src.Keeps path ⟨data, True, world, consumed⟩) {s : σ} {w : ω} (hs : consumed s 0)
    (hw : world w) (length skipBuffer : Nat) (qs : List Request) :
    OpensAsNeeded data.length 0 false ((ofStream path s length skipBuffer).legs src qs w) ∧
      ((∀ leg ∈ (ofStream path s length skipBuffer).legs src qs w, leg.fails = false) →
        FrontToBack ((ofStream path s length skipBuffer).legs src qs w) →
        ∀ leg ∈ (ofStream path s length skipBuffer).legs src qs w, leg.openings = 0) := by
  let v : Service ω σ := ⟨data, True, world, fun t k => consumed t k ∧ k ≤ data.length⟩
  have hbegin : v.consumed s 0 := ⟨hs, Nat.zero_le _⟩
  have hf : (ofStream path s length skipBuffer).Follows v path length :=
    follows_ofStream hbegin path length skipBuffer
  have hopens : OpensAsNeeded data.length 0 false
      ((ofStream path s length skipBuffer).legs src qs w) :=
    opensAsNeeded_legs hv.within (fun t k ht => ht.2) hf hw rfl qs
  exact ⟨hopens, fun hfails hfront =>
    hopens.openings_eq_zero hfails hfront fun leg _ => Nat.zero_le leg.position⟩

/-- Streams that skip two bytes at most and fail on their third read. -/
def stumbling : Script where
  data := [10, 11, 12, 13, 14]
  bulkSkip := true
  missingSkip := false
  maxRead := none
  maxSkip := some 2
  mishaps := [⟨.reading, 3, .interrupted⟩]

/-- The run of a handle over such streams. -/
def stumblingLegs (qs : List Request) : List (Leg Bytes) :=
  (ofStream ⟨"zip2:m!a"⟩ stumbling.data 5 4).legs (Rehearsal.source stumbling) qs
    (Rehearsal.begin stumbling)

/-- Requests that lead back and forth. -/
def backAndForth : List Request :=
  [.read 2, .setPosition 0, .read 0, .read 1, .read 1, .read 1, .setPosition 7, .read 1,
    .seek (.fromEnd (-1)), .read 1]

/-- Reads front to back take one stream, past gaps and the end.  A read of nothing opens nothing,
one farther back does, and so does the one after the read that fails. -/
theorem stumblingLegs_openAsNeeded :
    (∀ leg ∈ stumblingLegs [.read 1, .seek (.fromCurrent 3), .read 1, .read 0, .setPosition 9],
      leg.openings = 0) ∧
    OpensAsNeeded 5 0 false (stumblingLegs backAndForth) ∧
    (stumblingLegs backAndForth).map Leg.openings = [0, 0, 0, 1, 0, 1, 0, 0, 0, 1] := by
  have hkeeps : (Rehearsal.source stumbling).Keeps ⟨"zip2:m!a"⟩ (Rehearsal.service stumbling) :=
    Rehearsal.source_keeps (by decide) (by decide) ⟨"zip2:m!a"⟩
  have hstart : (Rehearsal.service stumbling).consumed stumbling.data 0 :=
    ⟨rfl, Nat.zero_le _⟩
  refine ⟨(legs_openAsNeeded (w := Rehearsal.begin stumbling) hkeeps hstart rfl 5 4 _).2 ?_ ?_,
    (legs_openAsNeeded (w := Rehearsal.begin stumbling) hkeeps hstart rfl 5 4 _).1, ?_⟩
  · decide_cbv
  · unfold FrontToBack
    decide_cbv
  · cbv

end Handle

end ZipMount
