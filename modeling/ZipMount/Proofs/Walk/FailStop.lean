import ZipMount.Proofs.Walk.Verified

/-!
# Nothing comes after a failure

A walk that has failed to move on is of no more use.  What the failure leaves behind has several
shapes: the entry may be gone or still be there, its payload may have begun or not, and its decoder
may have given up halfway.  In each of them the walk is `Spent`.  Either it is at no place of the
container, or its payload has come to a failure, and reading meets that failure again.

A walk that has come to the end of the entries is `Over`.  It is spent, and it does not even fail.

The main statement is `transcript_failStop`: in the answers to any requests, nothing is found behind
a failure to move on, and behind the end of the entries nothing is found and nothing fails.  The
steps are `Spent.answer` and `Over.answer`; `spent_of_next_error` and `over_of_next_none` say that
moving on leads there.
-/

namespace ZipMount

namespace Walk

/-- The answer brings an entry or bytes. -/
def Answer.Yields : Answer → Prop
  | .entry (.ok (some _)) => True
  | .got (.ok bytes) => bytes ≠ []
  | .passed (.ok n) => n ≠ 0
  | _ => False

/-- The answer says that there is nothing, and reports no failure. -/
def Answer.IsVoid : Answer → Prop
  | .entry r => r = .ok none
  | .closed r => r = .ok ()
  | .got r => r = .ok []
  | .passed r => r = .ok 0

/-- Where there is nothing, nothing is brought. -/
lemma Answer.IsVoid.not_yields {a : Answer} (h : a.IsVoid) : ¬ a.Yields := by
  rcases a with r | r | r | r
  · obtain rfl : r = .ok none := h
    exact id
  · exact id
  · obtain rfl : r = .ok [] := h
    exact fun hne => hne rfl
  · obtain rfl : r = .ok 0 := h
    exact fun hne => hne rfl

/-- What an answer says of the answers after it: behind a failure to move on, none brings anything,
and behind the end of the entries, each says that there is nothing. -/
def Answer.Bars (earlier later : Answer) : Prop :=
  ((∃ e, earlier = .entry (.error e)) → ¬ later.Yields) ∧
    (earlier = .entry (.ok none) → later.IsVoid)

/-- The walk has come to the end of the entries; an entry that it has kept could be read. -/
structure Over (w : Walk) : Prop where
  place_eq : w.place = .ended
  refusal_eq : ∀ c, w.current = some c → c.entry.refusal = none

/-- Nothing more comes of the walk: it is over, or nothing is pending and its payload fails. -/
inductive Spent [Inflater] (w : Walk) : Prop
  | over (h : w.Over)
  | failing (hnil : w.pending = []) (hfail : w.failure ≠ none) (hover : w.passesOver = false)

/-- A payload whose end is not accepted leads to no place of the container. -/
lemma place_of_finish_error {w : Walk} {e : IoError} (h : w.finish.1 = .error e) :
    w.finish.2.place = .ended := by
  rcases finish_cases w with ⟨-, hfinish⟩ | ⟨e' | rest, hfinish⟩
  · rw [hfinish] at h
    cases h
  · rw [hfinish]
    rfl
  · rw [hfinish] at h
    cases h

section Lawful

variable [LawfulInflater] {w u : Walk} {c : Current}

/-! ## Entries that are left behind -/

/-- Whatever entry is left behind without a failure can be read. -/
lemma refusal_of_close_ok (h : w.close = (.ok (), u)) (hu : u.current = some c) :
    c.entry.refusal = none := by
  cases leaves_of_close h with
  | nothing hc =>
    rw [hc] at hu
    cases hu
  | passed hover => cases hu
  | ended hover hc hr hf =>
    rcases read_of_empty_cases (pending_pass_length w) (ending_of_failure_none hf) with
      hsame | hnone
    · have hcurrent : w.ending.2.current = (w.pass w.pending.length).current := by
        rw [ending, hsame, current_enter]
      rw [hcurrent, pass, hc] at hu
      cases hu
      exact hr
    · have hnone' : w.ending.2.current = none := hnone
      rw [hnone'] at hu
      cases hu

/-! ## Walks that are over -/

/-- Beyond the entries, reading delivers nothing. -/
lemma Over.read_eq (h : w.Over) (n : Nat) : w.read n = (.ok [], w) := by
  rcases hc : w.current with _ | c
  · simp only [read, hc]
  · by_cases hn : n = 0
    · simp only [read, hc, hn, if_true]
    · have henter : w.place.enter w.slicing c.entry = .ok w.place := by
        rw [h.place_eq]
        rfl
      have hsame : { w with place := Place.ended } = w := by rw [← h.place_eq]
      have hfinish : w.finish = (.ok [], w) := by simp only [finish, h.place_eq, Place.rest?]
      rw [read_of_ok hc (h.refusal_eq c hc) henter (Nat.pos_of_ne_zero hn), h.place_eq]
      dsimp only [Place.deliver]
      rw [hsame, hfinish]

/-- Beyond the entries, nothing is passed over. -/
lemma Over.skip_eq (h : w.Over) (n : Nat) : w.skip n = (.ok 0, w) := by
  rw [skip, readUpTo, h.read_eq]
  by_cases hn : n = 0
  · rw [if_pos hn]
    rfl
  · rw [if_neg hn]
    rfl

/-- Beyond the entries, there is nothing to leave. -/
lemma Over.close_eq (h : w.Over) : w.close = (.ok (), w) := by
  rcases hc : w.current with _ | c
  · exact close_of_current_none hc
  · have hover : w.passesOver = false := by
      apply passesOver_eq_false
      intro rest
      rw [h.place_eq]
      exact Place.noConfusion
    obtain ⟨-, hf, hend⟩ := of_read_nil Nat.one_pos (h.read_eq 1)
    rw [close_of_not_passesOver hc hover, h.refusal_eq c hc, hf]
    dsimp only
    rw [← hend]

/-- Beyond the entries, there is no next one. -/
lemma Over.next_eq (h : w.Over) : w.next = (.ok none, w) := by
  rw [next, h.close_eq]
  dsimp only
  rw [h.place_eq]
  dsimp only
  rw [← h.place_eq]

/-- Beyond the entries, every answer is that there is nothing, and the walk stays where it is. -/
lemma Over.answer (h : w.Over) (q : Request) : (w.answer q).1.IsVoid ∧ (w.answer q).2 = w := by
  rcases q with _ | _ | n | n
  · rw [Walk.answer, h.next_eq]
    exact ⟨rfl, rfl⟩
  · rw [Walk.answer, h.close_eq]
    exact ⟨rfl, rfl⟩
  · rw [Walk.answer, h.read_eq]
    exact ⟨rfl, rfl⟩
  · rw [Walk.answer, h.skip_eq]
    exact ⟨rfl, rfl⟩

/-- Where no next entry is found, the walk is beyond the entries. -/
lemma over_of_next_none (h : w.next = (.ok none, u)) : u.Over := by
  cases moves_of_next h with
  | finished hclose hnone => exact ⟨rfl, fun c hc => refusal_of_close_ok hclose hc⟩

/-! ## Walks that are spent -/

/-- A refused entry that is not passed over is a failure that stays. -/
lemma spent_of_refusal {feature : Feature} (hc : w.current = some c)
    (hr : c.entry.refusal = some feature) (hover : w.passesOver = false) : w.Spent := by
  refine .failing ?_ ?_ hover
  · simp only [pending, hc, hr, Option.isSome_some, if_true]
  · intro hf
    rw [refusal_of_failure_none hc hf] at hr
    cases hr

/-- At no place of the container, a walk is spent. -/
lemma spent_of_ended (h : w.place = .ended) : w.Spent := by
  have hover : w.passesOver = false := by
    apply passesOver_eq_false
    intro rest
    rw [h]
    exact Place.noConfusion
  by_cases hrefused : ∃ c feature, w.current = some c ∧ c.entry.refusal = some feature
  · obtain ⟨c, feature, hc, hr⟩ := hrefused
    exact spent_of_refusal hc hr hover
  · refine .over ⟨h, fun c hc => ?_⟩
    by_contra hr
    obtain ⟨feature, hfeature⟩ := Option.ne_none_iff_exists'.mp hr
    exact hrefused ⟨c, feature, hc, hfeature⟩

/-- Where nothing is pending, a read that fails leaves the walk spent. -/
lemma spent_read (hnil : w.pending = []) (hfail : w.failure ≠ none) (hover : w.passesOver = false) :
    (w.read 1).2.Spent := by
  have hself : w.Spent := .failing hnil hfail hover
  rcases hc : w.current with _ | c
  · exact absurd (over_of_current_none hc).2 hfail
  · rcases hr : c.entry.refusal with _ | feature
    · rcases hp : w.place.enter w.slicing c.entry with e | p
      · have hread : (w.read 1).2 = w := by simp [read, hc, hr, hp]
        rwa [hread]
      · have henter := enter_of_ok hc hr hp
        have hp0 : p.pending = [] := by rw [← pending_of_ok hc hr hp, hnil]
        have hread := read_of_ok hc hr hp Nat.one_pos
        rcases (Place.deliver_of_empty hp0 1).2 with ⟨e, he⟩ | hend
        · -- The decoder has failed, and it is still there to fail again.
          have hsnd : (w.read 1).2 = w.enter := by rw [hread, he, henter]
          rw [hsnd]
          have hpass : (w.pass 0).passesOver = false := passesOver_pass hover 0
          rw [pass_of_empty hnil] at hpass
          exact .failing (by rw [pending_enter, hnil]) (by rwa [failure_enter]) hpass
        · rw [hend] at hread
          dsimp only at hread
          rw [hread]
          apply spent_of_ended
          obtain ⟨e, he⟩ := Option.ne_none_iff_exists'.mp hfail
          have hfin : (finish { w with place := p }).1 = .error e := by
            rw [← hread, read_of_empty Nat.one_pos hnil]
            unfold failure at he
            split at he
            next e' hfirst =>
              obtain rfl := Option.some.inj he
              exact hfirst
            next => cases he
          exact place_of_finish_error hfin
    · have hread := (read_skip_of_refusal hc hr Nat.one_ne_zero).1
      rwa [hread]

/-- Behind a payload that fails, a walk is spent. -/
lemma spent_ending (hfail : w.failure ≠ none) (hover : w.passesOver = false) :
    w.ending.2.Spent := by
  apply spent_read (pending_pass_length w)
  · rwa [failure_pass]
  · exact passesOver_pass hover _

/-- A walk that fails to leave its entry is spent. -/
lemma spent_of_close_error {e : Error} (h : w.close = (.error e, u)) : u.Spent := by
  cases leaves_of_close h with
  | cutOff hover => exact spent_of_ended rfl
  | refused hover hc hr => exact spent_of_refusal hc hr hover
  | @failed c e hover hc hr hf => exact spent_ending (by rw [hf]; exact Option.some_ne_none e) hover

/-- A walk that fails to move on is spent. -/
lemma spent_of_next_error {e : Error} (h : w.next = (.error e, u)) : u.Spent := by
  cases moves_of_next h with
  | stuck hclose => exact spent_of_close_error hclose
  | lost hclose hplace hheader => exact spent_of_ended rfl

/-- A payload that has come to its failure cannot be left. -/
lemma exists_close_error (hfail : w.failure ≠ none) (hover : w.passesOver = false) :
    ∃ e u, w.close = (.error e, u) := by
  rcases hc : w.current with _ | c
  · exact absurd (over_of_current_none hc).2 hfail
  · rw [close_of_not_passesOver hc hover]
    rcases c.entry.refusal with _ | feature
    · obtain ⟨e, he⟩ := Option.ne_none_iff_exists'.mp hfail
      rw [he]
      exact ⟨_, _, rfl⟩
    · exact ⟨_, _, rfl⟩

/-- No answer of a walk that is spent brings anything, and the walk stays spent. -/
lemma Spent.answer (h : w.Spent) (q : Request) :
    ¬ (w.answer q).1.Yields ∧ (w.answer q).2.Spent := by
  rcases h with hover | ⟨hnil, hfail, hover⟩
  · obtain ⟨hvoid, hsame⟩ := hover.answer q
    rw [hsame]
    exact ⟨hvoid.not_yields, .over hover⟩
  · have hself : w.Spent := .failing hnil hfail hover
    obtain ⟨e, he⟩ := Option.ne_none_iff_exists'.mp hfail
    have hending : w.ending.2.Spent := spent_ending hfail hover
    obtain ⟨e', u, hclose⟩ := exists_close_error hfail hover
    rcases q with _ | _ | n | n
    · have hnext : w.next = (.error e', u) := by rw [next, hclose]
      rw [Walk.answer, hnext]
      exact ⟨id, spent_of_close_error hclose⟩
    · rw [Walk.answer, hclose]
      exact ⟨id, spent_of_close_error hclose⟩
    · rw [Walk.answer]
      by_cases hn : n = 0
      · rw [hn, read_zero]
        exact ⟨fun hne => hne rfl, hself⟩
      · rw [read_of_empty (Nat.pos_of_ne_zero hn) hnil]
        refine ⟨?_, hending⟩
        rcases hfirst : w.ending.1 with e₁ | got
        · exact id
        · obtain rfl := ending_of_ok hfirst
          exact fun hne => hne rfl
    · rw [Walk.answer]
      by_cases hn : n = 0
      · rw [hn, skip_zero]
        exact ⟨fun hne => hne rfl, hself⟩
      · have hlt : w.pending.length < n := by
          rw [hnil]
          exact Nat.pos_of_ne_zero hn
        rw [skip_of_lt hlt, he]
        exact ⟨id, hending⟩

/-! ## Runs -/

/-- No answer to any requests brings anything, once a walk is spent. -/
lemma Spent.transcript (h : w.Spent) (qs : List Request) :
    ∀ a ∈ w.transcript qs, ¬ a.Yields := by
  induction qs generalizing w with
  | nil =>
    intro a ha
    cases ha
  | cons q qs ih =>
    obtain ⟨hfirst, hnext⟩ := h.answer q
    intro a ha
    rcases List.mem_cons.mp ha with rfl | hrest
    · exact hfirst
    · exact ih hnext a hrest

/-- Every answer to any requests is that there is nothing, once a walk is over. -/
lemma Over.transcript (h : w.Over) (qs : List Request) : ∀ a ∈ w.transcript qs, a.IsVoid := by
  induction qs with
  | nil =>
    intro a ha
    cases ha
  | cons q qs ih =>
    obtain ⟨hfirst, hsame⟩ := h.answer q
    intro a ha
    rw [Walk.transcript, hsame] at ha
    rcases List.mem_cons.mp ha with rfl | hrest
    · exact hfirst
    · exact ih a hrest

/-- The answers after the first one are as it says. -/
lemma bars_transcript (w : Walk) (q : Request) (qs : List Request) :
    ∀ a ∈ (w.answer q).2.transcript qs, (w.answer q).1.Bars a := by
  intro a ha
  constructor
  · rintro ⟨e, he⟩
    rcases q with _ | _ | n | n
    · have hnext : w.next = (.error e, w.next.2) := Prod.ext (Answer.entry.inj he) rfl
      exact (spent_of_next_error hnext).transcript qs a ha
    all_goals cases he
  · intro he
    rcases q with _ | _ | n | n
    · have hnext : w.next = (.ok none, w.next.2) := Prod.ext (Answer.entry.inj he) rfl
      exact (over_of_next_none hnext).transcript qs a ha
    all_goals cases he

/-- A walk through any container stops at its first failure to move on, and at the end of the
entries.  Whatever is asked of it, behind a failure to move on no answer brings an entry or a byte,
and behind the end of the entries every answer is that there is nothing. -/
theorem transcript_failStop (container : Bytes) (regime : Regime) (qs : List Request) :
    ((start container regime).transcript qs).Pairwise Answer.Bars := by
  generalize start container regime = w
  induction qs generalizing w with
  | nil => exact List.Pairwise.nil
  | cons q qs ih => exact List.Pairwise.cons (bars_transcript w q qs) (ih (w.answer q).2)

end Lawful

end Walk

end ZipMount
