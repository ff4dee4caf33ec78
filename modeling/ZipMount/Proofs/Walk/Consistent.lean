import ZipMount.Proofs.Walk.FailStop
import ZipMount.Proofs.Walk.Forward

/-!
# The states of a walk

The place of a walk, its entry and the account of what has been delivered change at different
moments of an operation, and an operation may fail between them.  They still fit together, whatever
has been asked and whatever has failed.  `Shape` lists the states that can be reached, one
constructor for each place, with the two that a walk beyond the entries can be in.

The main statement is `consistent_after`.  In every state that requests can lead to, there is an
entry except at a header and beyond the entries, stored bytes are counted against the recorded size,
and an entry that cannot be read is untouched.  A payload that is begun therefore has a decoder, and
a recorded size if it is stored; and leaving an entry is refused only where an earlier request for
it has failed.
-/

namespace ZipMount

/-- Enough is known of the entry to go on: a payload without a recorded size is a deflate stream
that can be read, and every payload that can be read has a decoder. -/
structure Entry.Workable (e : Entry) : Prop where
  unsized : e.compressedSize = none → e.refusal = none ∧ e.method = .deflated
  decodable : e.refusal = none → e.method = .stored ∨ e.method = .deflated

/-- The payload of the entry begins as its header provides: stored with a recorded size, or with a
decoder. -/
def Entry.Begins [Inflater] (e : Entry) (s : Slicing) (rest : Bytes) : Prop :=
  (∃ size, e.method = .stored ∧ e.compressedSize = some size ∧
    (Place.atPayload rest).enter s e = .ok (.inStored rest size)) ∨
  (e.method = .deflated ∧
    (Place.atPayload rest).enter s e = .ok (.inDeflated (Inflater.inflow (s.slices rest))))

/-- What is known of an entry is enough to begin its payload. -/
lemma Entry.Workable.begins [Inflater] {e : Entry} (he : e.Workable) (hr : e.refusal = none)
    (s : Slicing) (rest : Bytes) : e.Begins s rest := by
  rcases he.decodable hr with hm | hm
  · rcases hs : e.compressedSize with _ | size
    · have hdeflated := (he.unsized hs).2
      rw [hm] at hdeflated
      cases hdeflated
    · refine .inl ⟨size, hm, hs, ?_⟩
      simp only [Place.enter, hm, hs, Option.getD_some]
  · refine .inr ⟨hm, ?_⟩
    simp only [Place.enter, hm]

/-- A header that is accepted describes such an entry, whatever its flags, method and sizes are. -/
lemma Part.Headed.workable {p : Part} (h : p.Headed) : p.entry.Workable where
  unsized := by
    intro hs
    have hunsized : p.header.hasDescriptor = true ∧ p.compressed = 0 := by
      simpa [Part.entry, LocalHeader.describe] using hs
    obtain ⟨hplain, hm⟩ := h.delimited hunsized.1 hunsized.2
    refine ⟨?_, Part.method_entry_of_eight hm⟩
    rw [Part.refusal_entry]
    exact Part.refusal_eq_none_iff.mpr ⟨hplain, .inr hm⟩
  decodable := by
    intro hr
    rw [Part.refusal_entry] at hr
    obtain ⟨-, hm | hm⟩ := Part.refusal_eq_none_iff.mp hr
    · exact .inl (Part.method_entry_of_zero hm)
    · exact .inr (Part.method_entry_of_eight hm)

/-- Only beyond the entries are there no bytes after the place. -/
lemma Place.eq_ended {p : Place} (h : p.rest? = none) : p = .ended := by
  cases p with
  | ended => rfl
  | _ => cases h

namespace Walk

/-! ## Shapes -/

/-- The states that a walk can be in. -/
inductive Shape : Walk → Prop
  | atHeader (rest : Bytes) (regime : Regime) : Shape ⟨.atHeader rest, none, regime⟩
  | atPayload {e : Entry} (he : e.Workable) (rest : Bytes) (regime : Regime) :
      Shape ⟨.atPayload rest, some (Current.untouched e), regime⟩
  | inStored {c : Current} {size remaining : Nat} (he : c.entry.Workable)
      (hr : c.entry.refusal = none) (hs : c.entry.compressedSize = some size)
      (hsum : remaining + c.produced = size) (rest : Bytes) (regime : Regime) :
      Shape ⟨.inStored rest remaining, some c, regime⟩
  | inDeflated {c : Current} (he : c.entry.Workable) (hr : c.entry.refusal = none) (flow : Inflow)
      (regime : Regime) : Shape ⟨.inDeflated flow, some c, regime⟩
  /-- The entries have ended, or the end of one was not accepted. -/
  | beyond (regime : Regime) : Shape ⟨.ended, none, regime⟩
  /-- An entry could not be passed over. -/
  | lost {e : Entry} (he : e.Workable) (regime : Regime) :
      Shape ⟨.ended, some (Current.untouched e), regime⟩

/-- The place of a walk, its entry and what has been delivered of it fit together. -/
structure Consistent (w : Walk) : Prop where
  /-- At a header there is no entry. -/
  atHeader : ∀ rest, w.place = .atHeader rest → w.current = none
  /-- Without an entry, the walk is at a header or beyond the entries. -/
  vacant : w.current = none → (∃ rest, w.place = .atHeader rest) ∨ w.place = .ended
  /-- Stored bytes are those of an entry that can be read, and are counted against its size. -/
  inStored : ∀ rest remaining, w.place = .inStored rest remaining →
    ∃ c size, w.current = some c ∧ c.entry.refusal = none ∧ c.entry.compressedSize = some size ∧
      remaining + c.produced = size
  /-- An entry without a recorded size can be read, and is deflated. -/
  unsized : ∀ c, w.current = some c → c.entry.compressedSize = none →
    c.entry.refusal = none ∧ c.entry.method = .deflated
  /-- Nothing is delivered of an entry that cannot be read, and its payload is not begun. -/
  refused : ∀ c, w.current = some c → c.entry.refusal ≠ none →
    c.produced = 0 ∧ ((∃ rest, w.place = .atPayload rest) ∨ w.place = .ended)

section Shapes

variable {w u : Walk} {c : Current}

namespace Shape

/-- Stored bytes are counted as they are delivered, and others are not counted. -/
lemma deliver (h : w.Shape) (hc : w.current = some c) {n : Nat} {got : Bytes} {q : Place}
    (hd : w.place.deliver n = .ok (got, q)) :
    (got = [] ∧ q = w.place) ∨ Shape { w with place := q, current := some (c.absorb got) } := by
  cases h with
  | @inStored c' size remaining he hr hs hsum rest regime =>
    cases hc
    unfold Place.deliver at hd
    dsimp only at hd
    split at hd
    next =>
      cases hd
      exact .inl ⟨rfl, rfl⟩
    next =>
      split at hd
      next => cases hd
      next =>
        cases hd
        refine .inr (.inStored (c := c.absorb _) he hr hs ?_ _ regime)
        show remaining - (rest.take (min n remaining)).length +
          (c.produced + (rest.take (min n remaining)).length) = size
        have hle : (rest.take (min n remaining)).length ≤ remaining := by
          rw [List.length_take]
          omega
        omega
  | inDeflated he hr flow regime =>
    cases hc
    unfold Place.deliver at hd
    dsimp only at hd
    split at hd
    next => cases hd
    next =>
      cases hd
      exact .inr (.inDeflated (c := c.absorb _) he hr _ regime)
  | _ =>
    cases hd
    exact .inl ⟨rfl, rfl⟩

/-- Leaving an entry at the end of its payload leads to a header or beyond the entries. -/
lemma finish (h : w.Shape) : w.finish.2.Shape := by
  rcases finish_cases w with ⟨-, hfinish⟩ | ⟨e | rest, hfinish⟩
  · rwa [hfinish]
  · rw [hfinish]
    exact .beyond w.regime
  · rw [hfinish]
    exact .atHeader rest w.regime

/-- Of an entry that cannot be read, nothing has been delivered. -/
lemma untouched (h : w.Shape) (hc : w.current = some c) (hr : c.entry.refusal ≠ none) :
    c = Current.untouched c.entry := by
  cases h with
  | atPayload => cases hc; rfl
  | lost => cases hc; rfl
  | inStored he hr' => cases hc; exact absurd hr' hr
  | inDeflated he hr' => cases hc; exact absurd hr' hr
  | _ => cases hc

/-- A walk in one of the possible states is consistent. -/
lemma consistent (h : w.Shape) : w.Consistent := by
  cases h with
  | atHeader rest regime =>
    exact ⟨fun _ _ => rfl, fun _ => .inl ⟨rest, rfl⟩, by simp, by simp, by simp⟩
  | atPayload he rest regime =>
    refine ⟨by simp, by simp, by simp, ?_, ?_⟩
    · rintro c ⟨⟩ hs
      exact he.unsized hs
    · rintro c ⟨⟩ -
      exact ⟨rfl, .inl ⟨rest, rfl⟩⟩
  | @inStored c size remaining he hr hs hsum rest regime =>
    refine ⟨by simp, by simp, ?_, ?_, ?_⟩
    · rintro rest' remaining' ⟨⟩
      exact ⟨c, size, rfl, hr, hs, hsum⟩
    · rintro c' ⟨⟩ hs'
      exact he.unsized hs'
    · rintro c' ⟨⟩ hr'
      exact absurd hr hr'
  | inDeflated he hr flow regime =>
    refine ⟨by simp, by simp, by simp, ?_, ?_⟩
    · rintro c' ⟨⟩ hs'
      exact he.unsized hs'
    · rintro c' ⟨⟩ hr'
      exact absurd hr hr'
  | beyond regime => exact ⟨by simp, fun _ => .inr rfl, by simp, by simp, by simp⟩
  | lost he regime =>
    refine ⟨by simp, by simp, by simp, ?_, ?_⟩
    · rintro c ⟨⟩ hs
      exact he.unsized hs
    · rintro c ⟨⟩ -
      exact ⟨rfl, .inr rfl⟩

end Shape

/-- A payload whose end is accepted is left, or the walk is beyond the entries. -/
lemma left_of_finish_ok (h : w.finish = (.ok [], u)) : u.current = none ∨ u.place = .ended := by
  rcases finish_cases w with ⟨hrest, hfinish⟩ | ⟨e | rest, hfinish⟩
  · rw [hfinish] at h
    cases h
    exact .inr (Place.eq_ended hrest)
  · rw [hfinish] at h
    cases h
  · rw [hfinish] at h
    cases h
    exact .inl rfl

end Shapes

/-! ## Entries that are kept -/

/-- The entry of the second walk, if there is one, is that of the first. -/
def KeepsEntry (w u : Walk) : Prop :=
  ∀ c, u.current = some c → ∃ c', w.current = some c' ∧ c'.entry = c.entry

section Keeping

variable {w u : Walk}

/-- With the same entry, or none, there is no other one. -/
lemma keepsEntry_of_eq (h : u.current = none ∨ u.current = w.current) : w.KeepsEntry u := by
  intro c hc
  rcases h with h | h
  · rw [h] at hc
    cases hc
  · exact ⟨c, by rw [← h, hc], rfl⟩

/-- The entry is kept over two steps if it is kept over each. -/
lemma KeepsEntry.trans {v : Walk} (h : w.KeepsEntry v) (h' : v.KeepsEntry u) : w.KeepsEntry u := by
  intro c hc
  obtain ⟨c', hc', he⟩ := h' c hc
  obtain ⟨c'', hc'', he'⟩ := h c' hc'
  exact ⟨c'', hc'', he'.trans he⟩

/-- Leaving an entry at the end of its payload leads to no other one. -/
lemma keepsEntry_finish (w : Walk) : w.KeepsEntry w.finish.2 := by
  rcases finish_cases w with ⟨-, hfinish⟩ | ⟨e | rest, hfinish⟩
  · rw [hfinish]
    exact keepsEntry_of_eq (.inr rfl)
  · rw [hfinish]
    exact keepsEntry_of_eq (.inl rfl)
  · rw [hfinish]
    exact keepsEntry_of_eq (.inl rfl)

end Keeping

/-! ## Requests -/

/-- The walk after requests made one after the other. -/
def after [Inflater] : List Request → Walk → Walk
  | [], w => w
  | q :: qs, w => after qs (w.answer q).2

/-- A walk is beyond the entries with one that cannot be read. -/
def Abandons (w : Walk) (c : Current) : Prop :=
  w.place = .ended ∧ w.current = some c ∧ c.entry.refusal ≠ none

/-- Among the requests there is one that failed for the entry, which had been found before it, and
no other entry has been found since. -/
def FailedFor [Inflater] (w : Walk) (c : Current) (qs : List Request) : Prop :=
  ∃ before q later, qs = before ++ q :: later ∧ (w.after before).current = some c ∧
    ((w.after before).answer q).1.failure ≠ none ∧
    ∀ a ∈ (w.after before).transcript (q :: later), a.isFound = false

section Lawful

variable [LawfulInflater] {w u : Walk} {c : Current}

/-- Requests made in two turns. -/
lemma after_append (qs rs : List Request) (w : Walk) :
    w.after (qs ++ rs) = (w.after qs).after rs := by
  induction qs generalizing w with
  | nil => rfl
  | cons q qs ih => exact ih (w.answer q).2

/-- The answers to requests made in two turns. -/
lemma transcript_append (qs rs : List Request) (w : Walk) :
    w.transcript (qs ++ rs) = w.transcript qs ++ (w.after qs).transcript rs := by
  induction qs generalizing w with
  | nil => rfl
  | cons q qs ih =>
    rw [List.cons_append, transcript, transcript, List.cons_append, ih]
    rfl

/-- A read that delivers nothing has left the entry, or the walk is beyond the entries. -/
lemma left_of_read_nil {n : Nat} (hn : 0 < n) (h : w.read n = (.ok [], u)) :
    u.current = none ∨ u.place = .ended := by
  cases draws_of_read h with
  | nothing hnone => exact .inl (hnone.resolve_left (Nat.ne_of_gt hn))
  | ended hc hr hp hd hfinish => exact left_of_finish_ok hfinish
  | delivered hc hr hp hd hgot => exact absurd rfl hgot

/-- Behind an entry that has been left there is none, or the walk is beyond the entries. -/
lemma left_of_close_ok (h : w.close = (.ok (), u)) : u.current = none ∨ u.place = .ended := by
  cases leaves_of_close h with
  | nothing hc => exact .inl hc
  | passed => exact .inl rfl
  | ended hover hc hr hf =>
    have hend : w.ending = (.ok [], w.ending.2) := Prod.ext (ending_of_failure_none hf) rfl
    exact left_of_read_nil Nat.one_pos hend

/-! ## Steps between shapes -/

namespace Shape

/-- A payload that can be read can be begun. -/
lemma enter (h : w.Shape) (hc : w.current = some c) (hr : c.entry.refusal = none) :
    ∃ p, w.place.enter w.slicing c.entry = .ok p ∧ Shape { w with place := p } := by
  cases h with
  | atHeader => cases hc
  | @atPayload e he rest regime =>
    cases hc
    rcases he.begins hr regime.slicing rest with ⟨size, -, hs, henter⟩ | ⟨-, henter⟩
    · exact ⟨_, henter, .inStored he hr hs (Nat.add_zero size) rest regime⟩
    · exact ⟨_, henter, .inDeflated he hr _ regime⟩
  | inStored he hr hs hsum rest regime => exact ⟨_, rfl, .inStored he hr hs hsum rest regime⟩
  | inDeflated he hr flow regime => exact ⟨_, rfl, .inDeflated he hr flow regime⟩
  | beyond => cases hc
  | lost he regime => exact ⟨_, rfl, .lost he regime⟩

/-- A payload that has been begun leads to such a state. -/
lemma begun {p : Place} (h : w.Shape) (hc : w.current = some c) (hr : c.entry.refusal = none)
    (hp : w.place.enter w.slicing c.entry = .ok p) : Shape { w with place := p } := by
  obtain ⟨q, hq, hshape⟩ := h.enter hc hr
  rw [hp] at hq
  cases hq
  exact hshape

/-- A read leads to such a state. -/
lemma read (h : w.Shape) (n : Nat) : (w.read n).2.Shape := by
  have hdraws : w.Draws n (w.read n).1 (w.read n).2 := draws_of_read rfl
  generalize (w.read n).1 = r at hdraws
  generalize (w.read n).2 = u at hdraws
  cases hdraws with
  | nothing => exact h
  | refused => exact h
  | unbegun => exact h
  | failed hc hr hp hd => exact h.begun hc hr hp
  | @ended c p q _ _ hc hr hp hd hfinish =>
    have hq : Shape { w with place := q } := by
      rcases (h.begun hc hr hp).deliver hc hd with ⟨-, rfl⟩ | hshape
      · exact h.begun hc hr hp
      · rwa [Current.absorb_nil, ← hc] at hshape
    have hshape := hq.finish
    rwa [hfinish] at hshape
  | delivered hc hr hp hd hgot =>
    rcases (h.begun hc hr hp).deliver hc hd with ⟨hnil, -⟩ | hshape
    · exact absurd hnil hgot
    · exact hshape

/-- So does the read that meets the end of the payload, and delivering some of the bytes before. -/
lemma pass_ending (h : w.Shape) :
    (∀ n, 0 < n → n ≤ w.pending.length → (w.pass n).Shape) ∧ w.ending.2.Shape := by
  have hpass : ∀ n, 0 < n → n ≤ w.pending.length → (w.pass n).Shape := by
    intro n hn hle
    have hne : w.pending ≠ [] := List.ne_nil_of_length_pos (by omega)
    have hread := h.read n
    rwa [read_of_pending hn hne] at hread
  refine ⟨hpass, ?_⟩
  by_cases hnil : w.pending = []
  · rw [← read_of_empty Nat.one_pos hnil]
    exact h.read 1
  · exact (hpass _ (List.length_pos_of_ne_nil hnil) (Nat.le_refl _)).read 1

/-- Passing over bytes leads to such a state. -/
lemma skip (h : w.Shape) (n : Nat) : (w.skip n).2.Shape := by
  by_cases hn : n = 0
  · rwa [hn, skip_zero]
  · by_cases hle : n ≤ w.pending.length
    · rw [skip_of_le (Nat.pos_of_ne_zero hn) hle]
      exact h.pass_ending.1 n (Nat.pos_of_ne_zero hn) hle
    · rw [skip_of_lt (Nat.lt_of_not_le hle)]
      rcases w.failure with _ | e
      · exact h.pass_ending.2
      · exact h.pass_ending.2

/-- Leaving an entry leads to such a state. -/
lemma close (h : w.Shape) : w.close.2.Shape := by
  have hleaves : w.Leaves w.close.1 w.close.2 := leaves_of_close rfl
  generalize w.close.1 = r at hleaves
  generalize w.close.2 = u at hleaves
  cases hleaves with
  | nothing => exact h
  | cutOff hover =>
    obtain ⟨c, size, rest, hc, -, -, hplace⟩ := exists_of_passesOver hover
    cases h with
    | atPayload he rest regime => exact .lost he regime
    | _ => cases hplace
  | @passed rest => exact .atHeader rest w.regime
  | refused => exact h
  | failed => exact h.pass_ending.2
  | ended => exact h.pass_ending.2

/-- Moving on leads to such a state. -/
lemma next (h : w.Shape) : w.next.2.Shape := by
  have hmoves : w.Moves w.next.1 w.next.2 := moves_of_next rfl
  generalize w.next.1 = r at hmoves
  generalize w.next.2 = u at hmoves
  have hclosed : ∀ {r : Except Error Unit} {v : Walk}, w.close = (r, v) → v.Shape := by
    intro r v hclose
    have hshape := h.close
    rwa [hclose] at hshape
  cases hmoves with
  | stuck hclose => exact hclosed hclose
  | @lost e v input hclose hplace =>
    have hv := hclosed hclose
    cases hv with
    | atHeader rest regime => exact .beyond regime
    | _ => cases hplace
  | @finished v hclose =>
    rcases left_of_close_ok hclose with hnone | hplace
    · have hlost : { v with place := Place.ended } = ⟨.ended, none, v.regime⟩ := by rw [hnone]
      rw [hlost]
      exact .beyond v.regime
    · have hsame : { v with place := Place.ended } = v := by rw [← hplace]
      rw [hsame]
      exact hclosed hclose
  | @found v input rest e hclose hplace hheader =>
    obtain ⟨p, hp, rfl, -⟩ := Part.Headed.exists_of_header hheader
    exact .atPayload hp.workable rest v.regime

/-- Every request leads to such a state, whether it fails or not. -/
lemma answer (h : w.Shape) (q : Request) : (w.answer q).2.Shape := by
  cases q with
  | next => exact h.next
  | close => exact h.close
  | read n => exact h.read n
  | skip n => exact h.skip n

/-- So do any requests. -/
lemma after (h : w.Shape) (qs : List Request) : (w.after qs).Shape := by
  induction qs generalizing w with
  | nil => exact h
  | cons q qs ih => exact ih (h.answer q)

end Shape

/-! ## Entries that are refused -/

/-- Delivering bytes leads to no other entry. -/
lemma keepsEntry_pass (k : Nat) (w : Walk) : w.KeepsEntry (w.pass k) := by
  intro c hc
  obtain ⟨c', hc', rfl⟩ := Option.map_eq_some_iff.mp hc
  exact ⟨c', hc', rfl⟩

/-- A read leads to no other entry. -/
lemma keepsEntry_read (n : Nat) (w : Walk) : w.KeepsEntry (w.read n).2 := by
  have hdraws : w.Draws n (w.read n).1 (w.read n).2 := draws_of_read rfl
  generalize (w.read n).1 = r at hdraws
  generalize (w.read n).2 = u at hdraws
  cases hdraws with
  | nothing => exact keepsEntry_of_eq (.inr rfl)
  | refused => exact keepsEntry_of_eq (.inr rfl)
  | unbegun => exact keepsEntry_of_eq (.inr rfl)
  | failed => exact keepsEntry_of_eq (.inr rfl)
  | @ended c p q _ _ hc hr hp hd hfinish =>
    have hkeeps := keepsEntry_finish { w with place := q }
    rwa [hfinish] at hkeeps
  | @delivered c p q got hc =>
    intro c' hc'
    cases hc'
    exact ⟨c, hc, rfl⟩

/-- Nor does the read that meets the end of the payload. -/
lemma keepsEntry_ending (w : Walk) : w.KeepsEntry w.ending.2 :=
  (keepsEntry_pass _ w).trans (keepsEntry_read 1 _)

/-- Passing over bytes leads to no other entry. -/
lemma keepsEntry_skip (n : Nat) (w : Walk) : w.KeepsEntry (w.skip n).2 := by
  by_cases hn : n = 0
  · rw [hn, skip_zero]
    exact keepsEntry_of_eq (.inr rfl)
  · by_cases hle : n ≤ w.pending.length
    · rw [skip_of_le (Nat.pos_of_ne_zero hn) hle]
      exact keepsEntry_pass n w
    · rw [skip_of_lt (Nat.lt_of_not_le hle)]
      rcases w.failure with _ | e
      · exact keepsEntry_ending w
      · exact keepsEntry_ending w

/-- Leaving an entry leads to no other one. -/
lemma keepsEntry_close {r : Except Error Unit} (h : w.close = (r, u)) : w.KeepsEntry u := by
  cases leaves_of_close h with
  | nothing => exact keepsEntry_of_eq (.inr rfl)
  | cutOff => exact keepsEntry_of_eq (.inr rfl)
  | passed => exact keepsEntry_of_eq (.inl rfl)
  | refused => exact keepsEntry_of_eq (.inr rfl)
  | failed => exact keepsEntry_ending w
  | ended => exact keepsEntry_ending w

/-- A request that finds no entry leads to no other one. -/
lemma keepsEntry_answer {q : Request} (h : (w.answer q).1.isFound = false) :
    w.KeepsEntry (w.answer q).2 := by
  cases q with
  | next =>
    have hmoves : w.Moves w.next.1 w.next.2 := moves_of_next rfl
    have hfound : (Answer.entry w.next.1).isFound = false := h
    show w.KeepsEntry w.next.2
    generalize w.next.1 = r at hmoves hfound
    generalize w.next.2 = u at hmoves
    cases hmoves with
    | stuck hclose => exact keepsEntry_close hclose
    | lost hclose => exact (keepsEntry_close hclose).trans (keepsEntry_of_eq (.inr rfl))
    | finished hclose => exact (keepsEntry_close hclose).trans (keepsEntry_of_eq (.inr rfl))
    | found => cases hfound
  | close => exact keepsEntry_close rfl
  | read n => exact keepsEntry_read n w
  | skip n => exact keepsEntry_skip n w

/-- An entry that cannot be read is not read, and the walk stays where it is. -/
lemma read_skip_stay (hc : w.current = some c) (hr : c.entry.refusal ≠ none) (n : Nat) :
    (w.read n).2 = w ∧ (w.skip n).2 = w := by
  obtain ⟨feature, hfeature⟩ := Option.ne_none_iff_exists'.mp hr
  by_cases hn : n = 0
  · rw [hn, read_zero, skip_zero]
    exact ⟨rfl, rfl⟩
  · obtain ⟨hread, hskip⟩ := read_skip_of_refusal hc hfeature hn
    rw [hread, hskip]
    exact ⟨rfl, rfl⟩

/-- Moving on takes an entry that cannot be read beyond the entries only by failing. -/
lemma exists_next_error (h : w.next.2.Abandons c) : ∃ e, w.next.1 = .error e := by
  obtain ⟨hplace, hc, hr⟩ := h
  have hmoves : w.Moves w.next.1 w.next.2 := moves_of_next rfl
  generalize w.next.1 = r at hmoves
  generalize w.next.2 = u at hmoves hplace hc
  cases hmoves with
  | stuck => exact ⟨_, rfl⟩
  | lost => exact ⟨_, rfl⟩
  | finished hclose => exact absurd (refusal_of_close_ok hclose hc) hr
  | found => cases hplace

/-- Leaving an entry that cannot be read takes it beyond the entries only by failing. -/
lemma exists_close_error_of_abandons (h : w.close.2.Abandons c) : ∃ e, w.close.1 = .error e := by
  obtain ⟨-, hc, hr⟩ := h
  rcases hclose : w.close with ⟨e | u, v⟩
  · exact ⟨e, rfl⟩
  · rw [hclose] at hc
    exact absurd (refusal_of_close_ok hclose hc) hr

/-- A request after which an entry that cannot be read is beyond the entries has failed for that
entry, or found it there. -/
lemma Shape.abandons (h : w.Shape) {q : Request} (ha : (w.answer q).2.Abandons c) :
    (w.answer q).1.isFound = false ∧ w.current = some c ∧
      (w.Abandons c ∨ (w.answer q).1.failure ≠ none) := by
  have hfound : (w.answer q).1.isFound = false := by
    cases q with
    | next =>
      obtain ⟨e, he⟩ := exists_next_error ha
      rw [Walk.answer, he]
      rfl
    | _ => rfl
  obtain ⟨hplace, hc, hr⟩ := id ha
  obtain ⟨c', hc', he⟩ := keepsEntry_answer hfound c hc
  have hr' : c'.entry.refusal ≠ none := by rwa [he]
  obtain rfl : c' = c := by
    rw [h.untouched hc' hr', (h.answer q).untouched hc hr, he]
  refine ⟨hfound, hc', ?_⟩
  cases q with
  | next =>
    obtain ⟨e, he⟩ := exists_next_error ha
    rw [Walk.answer, he]
    exact .inr (Option.some_ne_none e)
  | close =>
    obtain ⟨e, he⟩ := exists_close_error_of_abandons ha
    rw [Walk.answer, he]
    exact .inr (Option.some_ne_none e)
  | read n =>
    rw [Walk.answer, (read_skip_stay hc' hr n).1] at hplace
    exact .inl ⟨hplace, hc', hr⟩
  | skip n =>
    rw [Walk.answer, (read_skip_stay hc' hr n).2] at hplace
    exact .inl ⟨hplace, hc', hr⟩

/-- An entry that cannot be read comes to be beyond the entries only behind a request that failed
for it. -/
lemma Shape.failedFor (h : w.Shape) (hplace : w.place ≠ .ended) {qs : List Request}
    (ha : (w.after qs).Abandons c) : w.FailedFor c qs := by
  induction qs using List.reverseRecOn with
  | nil => exact absurd ha.1 hplace
  | append_singleton qs q ih =>
    have hlast : w.after (qs ++ [q]) = ((w.after qs).answer q).2 := after_append qs [q] w
    rw [hlast] at ha
    obtain ⟨hfound, hc, hcases⟩ := (h.after qs).abandons ha
    rcases hcases with habandons | hfailure
    · obtain ⟨before, q', later, rfl, hc', hfailure, hnone⟩ := ih habandons
      refine ⟨before, q', later ++ [q], by simp, hc', hfailure, fun a hmem => ?_⟩
      rw [← List.cons_append, transcript_append, ← after_append] at hmem
      rcases List.mem_append.mp hmem with hmem | hmem
      · exact hnone a hmem
      · rw [List.mem_singleton.mp hmem]
        exact hfound
    · refine ⟨qs, q, [], rfl, hc, hfailure, fun a hmem => ?_⟩
      rw [List.mem_singleton.mp hmem]
      exact hfound

/-- An entry that cannot be read is passed over if it is at its payload, so leaving it is refused
only beyond the entries. -/
lemma Shape.abandons_of_close (h : w.Shape) {f : Fault} (hclose : w.close.1 = .error (.fault f)) :
    ∃ c feature, w.Abandons c ∧ c.entry.refusal = some feature ∧
      f = .unsupportedArchive feature := by
  by_cases hover : w.passesOver = true
  · rcases close_of_passesOver hover with ⟨e, he⟩ | ⟨rest, hrest⟩
    · rw [he] at hclose
      cases hclose
    · rw [hrest] at hclose
      cases hclose
  · have hover : w.passesOver = false := Bool.eq_false_iff.mpr hover
    rcases hc : w.current with _ | c
    · rw [close_of_current_none hc] at hclose
      cases hclose
    · rw [close_of_not_passesOver hc hover] at hclose
      rcases hr : c.entry.refusal with _ | feature
      · rw [hr] at hclose
        rcases hf : w.failure with _ | e
        · rw [hf] at hclose
          cases hclose
        · rw [hf] at hclose
          cases hclose
      · rw [hr] at hclose
        cases hclose
        have hrefused : c.entry.refusal ≠ none := by
          rw [hr]
          exact Option.some_ne_none feature
        refine ⟨c, feature, ⟨?_, hc, hrefused⟩, hr, rfl⟩
        cases h with
        | @atPayload e he rest regime =>
          cases hc
          have hsized : e.compressedSize.isSome = true := by
            rw [Option.isSome_iff_ne_none]
            exact fun hs => hrefused (he.unsized hs).1
          simp [passesOver, Current.untouched, hsized] at hover
        | inStored he hr' => cases hc; exact absurd hr' hrefused
        | inDeflated he hr' => cases hc; exact absurd hr' hrefused
        | lost => rfl
        | _ => cases hc

/-! ## Every state that can be reached -/

/-- Whatever is asked of a walk through any container, and whatever has failed on the way, the walk
is consistent.  If it is about to begin a payload that can be read, then that begins as its header
provides.  And if it refuses to leave an entry, then the entry cannot be read, and an earlier
request has failed for it. -/
theorem consistent_after (container : Bytes) (regime : Regime) (qs : List Request) :
    ((start container regime).after qs).Consistent ∧
      (∀ c rest, ((start container regime).after qs).current = some c → c.entry.refusal = none →
        ((start container regime).after qs).place = .atPayload rest →
          c.entry.Begins regime.slicing rest) ∧
      ∀ f, ((start container regime).after qs).close.1 = .error (.fault f) →
        ∃ c feature, ((start container regime).after qs).current = some c ∧
          c.entry.refusal = some feature ∧ f = .unsupportedArchive feature ∧
          (start container regime).FailedFor c qs := by
  have hstart : (start container regime).Shape := .atHeader container regime
  have hshape := hstart.after qs
  refine ⟨hshape.consistent, ?_, ?_⟩
  · intro c rest hc hr hplace
    generalize (start container regime).after qs = w at hshape hc hplace
    cases hshape with
    | atPayload he =>
      cases hc
      exact he.begins hr regime.slicing rest
    | _ => cases hplace
  · intro f hclose
    obtain ⟨c, feature, habandons, hr, hf⟩ := hshape.abandons_of_close hclose
    exact ⟨c, feature, habandons.2.1, hr, hf, hstart.failedFor Place.noConfusion habandons⟩

end Lawful

/-- A payload without a decoder that is cut off cannot be passed over, and is refused from then on.
-/
example :
    ((start (LocalHeader.encode ⟨20, 0x800, 12, 0, 0x21, 0, 5, 5, [97], []⟩) true).after
      [.next, .close]).close.1 = .error (.fault (.unsupportedArchive (.method "a" 12))) := by
  rfl

end Walk

end ZipMount
