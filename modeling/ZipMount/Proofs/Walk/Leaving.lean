import ZipMount.Proofs.Walk.Outlook

/-!
# Leaving an entry

A walk moves on by leaving its current entry first, in one of two ways.  An entry of recorded size of
which nothing has been delivered is passed over, `Walk.passesOver`: nothing is decoded, and the walk
is at the next header, or at no place at all if the entry is cut off.  Every other entry is read to
its end, if it can be read, so that leaving it comes to what reading it comes to.

`Draws`, `Leaves` and `Moves` list what can happen on reading, on leaving an entry and on moving on;
`draws_of_read`, `leaves_of_close` and `moves_of_next` say that nothing else does.
-/

namespace ZipMount

/-- A place where nothing is left to begin is not the start of a payload. -/
lemma Place.ne_atPayload [Inflater] {s : Slicing} {e : Entry} {p : Place}
    (h : p.enter s e = .ok p) (rest : Bytes) : p ≠ .atPayload rest := by
  rintro rfl
  unfold enter at h
  dsimp only at h
  split at h <;> cases h

namespace Walk

variable {w : Walk} {c : Current}

/-! ## Whether an entry is passed over -/

/-- Leaving the current entry passes over it by its recorded size. -/
def passesOver (w : Walk) : Bool :=
  match w.current, w.place with
  | some c, .atPayload _ => c.entry.compressedSize.isSome && c.produced = 0
  | _, _ => false

/-- Only at the start of a payload is an entry passed over. -/
lemma passesOver_eq_false (h : ∀ rest, w.place ≠ .atPayload rest) : w.passesOver = false := by
  unfold passesOver
  split
  next c rest hc hplace => exact absurd hplace (h rest)
  next => rfl

/-- An entry that is passed over is one of recorded size of which nothing has been delivered. -/
lemma exists_of_passesOver (h : w.passesOver = true) :
    ∃ c size rest, w.current = some c ∧ c.entry.compressedSize = some size ∧ c.produced = 0 ∧
      w.place = .atPayload rest := by
  unfold passesOver at h
  split at h
  next c rest hc hplace =>
    simp only [Bool.and_eq_true, decide_eq_true_eq] at h
    obtain ⟨size, hsize⟩ := Option.isSome_iff_exists.mp h.1
    exact ⟨c, size, rest, hc, hsize, h.2, hplace⟩
  next => cases h

/-- A payload that has been begun, or whose size is not recorded, is not passed over. -/
lemma passesOver_of_drained (hc : w.current = some c)
    (h : c.produced ≠ 0 ∨ c.entry.compressedSize = none) : w.passesOver = false := by
  unfold passesOver
  rw [hc]
  split
  next hsome _ =>
    cases hsome
    rcases h with h | h <;> simp [h]
  next => rfl

/-- A payload is passed over if all of it is there. -/
lemma passPayload_of_le {n : Nat} {rest : Bytes} (h : n ≤ rest.length) :
    passPayload n rest = .ok ((), rest.drop n) := by
  rw [passPayload, if_pos (List.length_take_of_le h)]

/-! ## Leaving and moving on -/

variable [Inflater]

/-- Leaving nothing does nothing. -/
lemma close_of_current_none (hc : w.current = none) : w.close = (.ok (), w) := by
  rw [close, hc]

/-- Moving on begins by leaving the entry. -/
lemma next_of_close {w' : Walk} (h : w.close = (.ok (), w')) (hc : w'.current = none) :
    w.next = w'.next := by
  rw [next, next, h, close_of_current_none hc]

/-- At a header or at the end of the entries, moving on depends on what stands there. -/
lemma next_start (input : Bytes) (regime : Regime) :
    (start input regime).next =
      if input = [] then (.ok none, ⟨.ended, none, regime⟩)
      else
        match header input with
        | .error e => (.error e, ⟨.ended, none, regime⟩)
        | .ok none => (.ok none, ⟨.ended, none, regime⟩)
        | .ok (some (e, rest)) =>
          (.ok (some e.record), ⟨.atPayload rest, some (Current.untouched e), regime⟩) := by
  rw [next, close_of_current_none rfl]
  rcases input with _ | ⟨b, rest⟩
  · rfl
  · rw [if_neg (List.cons_ne_nil b rest)]
    rcases hheader : header (b :: rest) with e | _ | ⟨e, more⟩
    · simp only [start, hheader]
    · simp only [start, hheader]
    · simp only [start, hheader]

/-- Passing over an entry leads to the next header, or to no place at all. -/
lemma close_of_passesOver (h : w.passesOver = true) :
    (∃ e, w.close = (.error (.io e), { w with place := .ended })) ∨
      ∃ rest, w.close = (.ok (), { w with place := .atHeader rest, current := none }) := by
  obtain ⟨c, size, rest, hc, hsize, hzero, hplace⟩ := exists_of_passesOver h
  unfold close
  simp only [hc, hsize, hzero, hplace]
  split
  next e _ => exact .inl ⟨e, rfl⟩
  next more _ => exact .inr ⟨more, rfl⟩

/-- An entry that is not passed over is left by reading it to its end, if it can be read. -/
lemma close_of_not_passesOver (hc : w.current = some c) (h : w.passesOver = false) :
    w.close = match c.entry.refusal with
      | some feature => (.error (.fault (.unsupportedArchive feature)), w)
      | none =>
        match w.failure with
        | none => (.ok (), w.ending.2)
        | some e => (.error (.io e), w.ending.2) := by
  have hall := readAll_eq w
  unfold close
  rw [hc]
  dsimp only
  split
  next size rest hsize hzero hplace =>
    simp [passesOver, hc, hplace, hsize, hzero] at h
  next =>
    rcases c.entry.refusal with _ | feature
    · rw [hall]
      rcases w.failure with _ | e <;> rfl
    · rfl

/-- Delivering bytes leads nowhere from where an entry would be passed over. -/
lemma passesOver_pass (h : w.passesOver = false) (k : Nat) : (w.pass k).passesOver = false := by
  by_cases hnil : w.pending = []
  · rw [pass_of_empty hnil]
    unfold enter
    split
    next => exact h
    next c hc =>
      split
      next => exact h
      next =>
        split
        next => exact h
        next p hp => exact passesOver_eq_false (Place.ne_atPayload (Place.enter_enter hp))
  · obtain ⟨c, p, hc, hr, hp⟩ := exists_of_pending_ne_nil hnil
    rw [pass_of_ok hc hr hp]
    exact passesOver_eq_false (Place.ne_atPayload (Place.enter_pass hp _))

/-- Leaving a payload that has been begun, or whose size is not recorded, meets its ending. -/
lemma close_of_drained (hc : w.current = some c) (hr : c.entry.refusal = none)
    (h : c.produced ≠ 0 ∨ c.entry.compressedSize = none) :
    w.close = match w.failure with
      | none => (.ok (), w.ending.2)
      | some e => (.error (.io e), w.ending.2) := by
  rw [close_of_not_passesOver hc (passesOver_of_drained hc h), hr]

/-! ## What can happen -/

/-- The ways of reading, with the answer and with where each leads. -/
inductive Draws (w : Walk) (n : Nat) : Except IoError Bytes → Walk → Prop
  | nothing (h : n = 0 ∨ w.current = none) : Draws w n (.ok []) w
  | refused {c : Current} {feature : Feature} (hc : w.current = some c)
      (hr : c.entry.refusal = some feature) :
      Draws w n (.error (.fault (.unsupportedArchive feature))) w
  | unbegun {c : Current} {e : IoError} (hc : w.current = some c) (hr : c.entry.refusal = none)
      (hp : w.place.enter w.slicing c.entry = .error e) : Draws w n (.error e) w
  | failed {c : Current} {p : Place} {e : IoError} (hc : w.current = some c)
      (hr : c.entry.refusal = none) (hp : w.place.enter w.slicing c.entry = .ok p)
      (hd : p.deliver n = .error e) : Draws w n (.error e) { w with place := p }
  | ended {c : Current} {p q : Place} {r : Except IoError Bytes} {u : Walk}
      (hc : w.current = some c) (hr : c.entry.refusal = none)
      (hp : w.place.enter w.slicing c.entry = .ok p) (hd : p.deliver n = .ok ([], q))
      (hfinish : finish { w with place := q } = (r, u)) : Draws w n r u
  | delivered {c : Current} {p q : Place} {got : Bytes} (hc : w.current = some c)
      (hr : c.entry.refusal = none) (hp : w.place.enter w.slicing c.entry = .ok p)
      (hd : p.deliver n = .ok (got, q)) (hgot : got ≠ []) :
      Draws w n (.ok got) { w with place := q, current := some (c.absorb got) }

/-- Reading is one of these. -/
lemma draws_of_read {n : Nat} {w' : Walk} {r : Except IoError Bytes} (h : w.read n = (r, w')) :
    w.Draws n r w' := by
  by_cases hn : n = 0
  · rw [hn, read_zero] at h
    cases h
    exact .nothing (.inl hn)
  · rcases hc : w.current with _ | c
    · simp only [read, hc] at h
      cases h
      exact .nothing (.inr hc)
    · rcases hr : c.entry.refusal with _ | feature
      · rcases hp : w.place.enter w.slicing c.entry with e | p
        · simp only [read, hc, hr, hp, if_neg hn] at h
          cases h
          exact .unbegun hc hr hp
        · rw [read_of_ok hc hr hp (Nat.pos_of_ne_zero hn)] at h
          rcases hd : p.deliver n with e | ⟨_ | ⟨b, got⟩, q⟩
          · rw [hd] at h
            cases h
            exact .failed hc hr hp hd
          · rw [hd] at h
            exact .ended hc hr hp hd h
          · rw [hd] at h
            cases h
            exact .delivered hc hr hp hd (List.cons_ne_nil b got)
      · simp only [read, hc, hr, if_neg hn] at h
        cases h
        exact .refused hc hr

/-- The ways of leaving an entry, with the outcome and with where each leads. -/
inductive Leaves (w : Walk) : Except Error Unit → Walk → Prop
  | nothing (hc : w.current = none) : Leaves w (.ok ()) w
  | cutOff {e : Error} (hover : w.passesOver = true) : Leaves w (.error e) { w with place := .ended }
  | passed {rest : Bytes} (hover : w.passesOver = true) :
      Leaves w (.ok ()) { w with place := .atHeader rest, current := none }
  | refused {c : Current} {feature : Feature} (hover : w.passesOver = false) (hc : w.current = some c)
      (hr : c.entry.refusal = some feature) :
      Leaves w (.error (.fault (.unsupportedArchive feature))) w
  | failed {c : Current} {e : IoError} (hover : w.passesOver = false) (hc : w.current = some c)
      (hr : c.entry.refusal = none) (hf : w.failure = some e) : Leaves w (.error (.io e)) w.ending.2
  | ended {c : Current} (hover : w.passesOver = false) (hc : w.current = some c)
      (hr : c.entry.refusal = none) (hf : w.failure = none) : Leaves w (.ok ()) w.ending.2

/-- Leaving an entry is one of these. -/
lemma leaves_of_close {w' : Walk} {r : Except Error Unit} (h : w.close = (r, w')) :
    w.Leaves r w' := by
  rcases hc : w.current with _ | c
  · rw [close_of_current_none hc] at h
    cases h
    exact .nothing hc
  · by_cases hover : w.passesOver = true
    · rcases close_of_passesOver hover with ⟨e, he⟩ | ⟨rest, hrest⟩
      · rw [he] at h
        cases h
        exact .cutOff hover
      · rw [hrest] at h
        cases h
        exact .passed hover
    · have hover : w.passesOver = false := Bool.eq_false_iff.mpr hover
      rw [close_of_not_passesOver hc hover] at h
      rcases hr : c.entry.refusal with _ | feature
      · rcases hf : w.failure with _ | e
        · rw [hr, hf] at h
          cases h
          exact .ended hover hc hr hf
        · rw [hr, hf] at h
          cases h
          exact .failed hover hc hr hf
      · rw [hr] at h
        cases h
        exact .refused hover hc hr

/-- The ways of moving on, with the outcome and with where each leads. -/
inductive Moves (w : Walk) : Except Error (Option Record) → Walk → Prop
  | stuck {e : Error} {v : Walk} (hclose : w.close = (.error e, v)) : Moves w (.error e) v
  | lost {e : Error} {v : Walk} {input : Bytes} (hclose : w.close = (.ok (), v))
      (hplace : v.place = .atHeader input) (hheader : header input = .error e) :
      Moves w (.error e) { v with place := .ended }
  | finished {v : Walk} (hclose : w.close = (.ok (), v))
      (hnone : ∀ input, v.place = .atHeader input → input = [] ∨ header input = .ok none) :
      Moves w (.ok none) { v with place := .ended }
  | found {v : Walk} {input rest : Bytes} {e : Entry} (hclose : w.close = (.ok (), v))
      (hplace : v.place = .atHeader input) (hheader : header input = .ok (some (e, rest))) :
      Moves w (.ok (some e.record))
        { v with place := .atPayload rest, current := some (Current.untouched e) }

/-- Moving on is one of these. -/
lemma moves_of_next {w' : Walk} {r : Except Error (Option Record)} (h : w.next = (r, w')) :
    w.Moves r w' := by
  unfold next at h
  split at h
  next e v hclose =>
    cases h
    exact .stuck hclose
  next v hclose =>
    dsimp only at h
    split at h
    next hplace =>
      cases h
      refine .finished hclose fun input hinput => ?_
      rw [hplace] at hinput
      exact .inl (Place.atHeader.inj hinput).symm
    next rest hne hplace =>
      split at h
      next e hheader =>
        cases h
        exact .lost hclose hplace hheader
      next hheader =>
        cases h
        refine .finished hclose fun input hinput => ?_
        rw [hplace] at hinput
        obtain rfl := Place.atHeader.inj hinput
        exact .inr hheader
      next e ahead hheader =>
        cases h
        exact .found hclose hplace hheader
    next _ hnot =>
      cases h
      exact .finished hclose fun input hinput => absurd hinput (hnot input)

/-! ## Passing over an entry -/

/-- Leaving an untouched payload of recorded size comes to what passing over it comes to. -/
lemma close_of_pass {e e' : Entry} {size : Nat} {rest more : Bytes} (hp : w.place = .atPayload rest)
    (hc : w.current = some (Current.untouched e)) (hs : e.compressedSize = some size)
    (hraw : (do passPayload size; settle e : Reader Entry) rest = .ok (e', more)) :
    w.close = (.ok (), ⟨.atHeader more, none, w.regime⟩) := by
  rw [close, hc]
  simp only [Current.untouched, hs, hp, hraw]

/-- Leaving an untouched payload of recorded size fails if passing over it does. -/
lemma close_of_pass_error {e : Entry} {x : IoError} {size : Nat} {rest : Bytes}
    (hp : w.place = .atPayload rest) (hc : w.current = some (Current.untouched e))
    (hs : e.compressedSize = some size)
    (hraw : (do passPayload size; settle e : Reader Entry) rest = .error x) :
    w.close = (.error (.io x), { w with place := .ended }) := by
  rw [close, hc]
  simp only [Current.untouched, hs, hp, hraw]

/-- Leaving an untouched payload of recorded size leads behind its descriptor. -/
lemma close_of_passed {e e' : Entry} {size : Nat} {rest more : Bytes}
    (hp : w.place = .atPayload rest) (hc : w.current = some (Current.untouched e))
    (hs : e.compressedSize = some size) (hle : size ≤ rest.length)
    (hsettle : settle e (rest.drop size) = .ok (e', more)) :
    w.close = (.ok (), ⟨.atHeader more, none, w.regime⟩) := by
  have hraw : (do passPayload size; settle e : Reader Entry) rest = .ok (e', more) := by
    rw [Reader.bind_of_ok (passPayload_of_le hle), hsettle]
  exact close_of_pass hp hc hs hraw

/-- An untouched payload of recorded size cannot be left if it is cut off. -/
lemma close_of_short {e : Entry} {size : Nat} {rest : Bytes} (hp : w.place = .atPayload rest)
    (hc : w.current = some (Current.untouched e)) (hs : e.compressedSize = some size)
    (hshort : rest.length < size) :
    w.close = (.error (.io .shortPayload), { w with place := .ended }) := by
  have hpass : passPayload size rest = .error .shortPayload := by
    rw [passPayload, if_neg]
    rw [List.length_take]
    omega
  exact close_of_pass_error hp hc hs (Reader.bind_of_error hpass)

/-- Leaving an untouched payload of recorded size succeeds only if the payload is all there and the
descriptor behind it can be read. -/
lemma exists_of_close_passed {e : Entry} {size : Nat} {rest : Bytes} {v : Walk}
    (hp : w.place = .atPayload rest) (hc : w.current = some (Current.untouched e))
    (hs : e.compressedSize = some size) (h : w.close = (.ok (), v)) :
    size ≤ rest.length ∧ ∃ e' more, settle e (rest.drop size) = .ok (e', more) := by
  by_cases hle : size ≤ rest.length
  · refine ⟨hle, ?_⟩
    have hraw : (do passPayload size; settle e : Reader Entry) rest =
        settle e (rest.drop size) :=
      Reader.bind_of_ok (passPayload_of_le hle)
    cases hsettle : settle e (rest.drop size) with
    | error x =>
      rw [close_of_pass_error hp hc hs (hraw.trans hsettle)] at h
      cases h
    | ok q => exact ⟨q.1, q.2, rfl⟩
  · rw [close_of_short hp hc hs (Nat.lt_of_not_le hle)] at h
    cases h

end Walk

end ZipMount
