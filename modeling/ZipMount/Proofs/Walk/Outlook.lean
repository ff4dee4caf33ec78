import Mathlib
import ZipMount.Walk

/-!
# What lies ahead of a walk inside a payload

A walk delivers the payload of its current entry in pieces of whatever size is asked for.  What it
will deliver is settled beforehand: `Walk.pending` are the bytes that are still to come, and
`Walk.ending` is what the first read after them gives.  Reading `n` bytes takes the first `n` of the
pending bytes, and all that `Walk.pass` changes is how many of them are left; so a payload does not
depend on the pieces in which it is read.

`read_of_pending` and `read_of_empty` say this for one read.  The operations that read more than
once, `readUpTo`, `skip` and `readAll`, are then equal to closed expressions in the pending bytes
and the ending, and are never opened again.
-/

namespace ZipMount

/-- Dropping as much as can be taken is dropping as much as was asked for. -/
lemma drop_length_take {α : Type} (k : Nat) (l : List α) : l.drop (l.take k).length = l.drop k := by
  by_cases h : k ≤ l.length
  · rw [List.length_take_of_le h]
  · rw [List.take_of_length_le (by omega), List.drop_length, List.drop_eq_nil_of_le (by omega)]

namespace Place

/-- The bytes that can be delivered before the payload ends or fails. -/
def pending : Place → Bytes
  | inStored rest remaining => rest.take remaining
  | inDeflated flow => flow.pending
  | _ => []

/-- The place after the next `k` bytes have been delivered. -/
def pass (k : Nat) : Place → Place
  | inStored rest remaining => inStored (rest.drop k) (remaining - k)
  | inDeflated flow => inDeflated { flow with pending := flow.pending.drop k }
  | place => place

@[simp] lemma length_pending (p : Place) : p.pending.length = p.available := by
  cases p <;> simp [pending, available]

@[simp] lemma pending_pass (k : Nat) (p : Place) : (p.pass k).pending = p.pending.drop k := by
  cases p <;> simp [pass, pending, List.drop_take]

/-- Once all pending bytes have been delivered, nothing is pending. -/
lemma pending_pass_length (p : Place) : (p.pass p.pending.length).pending = [] := by
  rw [pending_pass, List.drop_length]

@[simp] lemma pass_zero (p : Place) : p.pass 0 = p := by
  cases p <;> rfl

@[simp] lemma pass_pass (j k : Nat) (p : Place) : (p.pass j).pass k = p.pass (j + k) := by
  cases p <;> simp [pass, Nat.sub_sub]

/-- Beginning a payload leaves a place where nothing is left to begin. -/
lemma enter_enter [Inflater] {s : Slicing} {e : Entry} {p q : Place} (h : p.enter s e = .ok q) :
    q.enter s e = .ok q := by
  unfold enter at h
  split at h
  · split at h <;> cases h <;> rfl
  · rename_i hne
    cases h
    cases p with
    | atPayload rest => exact absurd rfl (hne rest)
    | _ => rfl

/-- Delivering does not lead back to the start of a payload. -/
lemma enter_pass [Inflater] {s : Slicing} {e : Entry} {p q : Place} (h : p.enter s e = .ok q)
    (k : Nat) :
    (q.pass k).enter s e = .ok (q.pass k) := by
  have hq := enter_enter h
  cases q with
  | atPayload rest =>
    unfold enter at hq
    dsimp only at hq
    split at hq <;> cases hq
  | _ => rfl

/-- While bytes are pending, the next ones are delivered. -/
lemma deliver_of_pending {n : Nat} {p : Place} (hn : 0 < n) (h : p.pending ≠ []) :
    p.deliver n = .ok (p.pending.take n, p.pass (p.pending.take n).length) := by
  cases p with
  | inStored rest remaining =>
    have hrem : remaining ≠ 0 := by
      rintro rfl
      exact h rfl
    have htake : rest.take (min n remaining) = (rest.take remaining).take n := by
      rw [List.take_take]
    have hne : rest.take (min n remaining) ≠ [] := by
      rw [htake]
      intro hnil
      rcases List.take_eq_nil_iff.mp hnil with h0 | h0
      · omega
      · exact h h0
    unfold deliver
    dsimp only
    rw [if_neg hrem]
    split
    next hnil => exact absurd hnil hne
    next => rw [htake]; rfl
  | inDeflated flow =>
    have hne : flow.pending.take n ≠ [] := by
      intro hnil
      rcases List.take_eq_nil_iff.mp hnil with h0 | h0
      · omega
      · exact h h0
    unfold deliver
    dsimp only
    split
    next hnil _ => exact absurd hnil hne
    next => rfl
  | _ => exact absurd rfl h

/-- When nothing is pending, it does not matter how much is asked for. -/
lemma deliver_of_empty {p : Place} (h : p.pending = []) (n : Nat) :
    p.deliver n = p.deliver 1 ∧
      ((∃ e, p.deliver 1 = .error e) ∨ p.deliver 1 = .ok ([], p)) := by
  cases p with
  | inStored rest remaining =>
    unfold deliver
    dsimp only
    by_cases hrem : remaining = 0
    · simp [hrem]
    · have hrest : rest = [] := by
        rcases List.take_eq_nil_iff.mp h with h0 | h0
        · exact absurd h0 hrem
        · exact h0
      simp [hrem, hrest]
  | inDeflated flow =>
    obtain ⟨bytes, ending⟩ := flow
    have hnil : bytes = [] := h
    subst hnil
    cases ending <;> simp [deliver]
  | _ => exact ⟨rfl, Or.inr rfl⟩

/-- What follows the payload that a place is inside of: the bytes after it, or the failure that cuts
it short. -/
def beyond : Place → Option (Except IoError Bytes)
  | inStored rest remaining =>
    some (if remaining ≤ rest.length then .ok (rest.drop remaining) else .error .shortStored)
  | inDeflated flow => some flow.ending
  | _ => none

/-- Behind a payload that has begun, there are further bytes or a failure. -/
lemma exists_beyond [Inflater] {s : Slicing} {e : Entry} {rest : Bytes} {p : Place}
    (h : (atPayload rest).enter s e = .ok p) :
    ∃ r, p.beyond = some r := by
  unfold enter at h
  dsimp only at h
  split at h
  · cases h
    exact ⟨_, rfl⟩
  · cases h
    exact ⟨_, rfl⟩
  · cases h

/-- Delivering a payload does not change what follows it. -/
lemma beyond_pass {k : Nat} {p : Place} (hk : k ≤ p.pending.length) :
    (p.pass k).beyond = p.beyond := by
  cases p with
  | inStored rest remaining =>
    rw [length_pending, available] at hk
    have hle : remaining - k ≤ (rest.drop k).length ↔ remaining ≤ rest.length := by
      rw [List.length_drop]
      omega
    have hdrop : (rest.drop k).drop (remaining - k) = rest.drop remaining := by
      rw [List.drop_drop, Nat.add_sub_cancel' (by omega)]
    simp only [pass, beyond, hle, hdrop]
  | _ => rfl

/-- A payload that is cut short fails once nothing is pending. -/
lemma deliver_of_beyond_error {p : Place} {e : IoError} (h : p.pending = [])
    (hb : p.beyond = some (.error e)) : p.deliver 1 = .error e := by
  cases p with
  | inStored rest remaining =>
    rw [beyond] at hb
    split at hb
    · cases hb
    · cases hb
      rcases List.take_eq_nil_iff.mp h with h0 | h0
      · omega
      · subst h0
        have hrem : remaining ≠ 0 := by
          rintro rfl
          simp_all
        simp [deliver, hrem]
  | inDeflated flow =>
    obtain ⟨bytes, ending⟩ := flow
    obtain rfl : bytes = [] := h
    cases hb
    rfl
  | _ => cases hb

/-- A whole payload ends once nothing is pending, in front of what follows it. -/
lemma deliver_of_beyond_ok {p : Place} {rest : Bytes} (h : p.pending = [])
    (hb : p.beyond = some (.ok rest)) : p.deliver 1 = .ok ([], p) ∧ p.rest? = some rest := by
  cases p with
  | inStored bytes remaining =>
    rw [beyond] at hb
    split at hb
    next hle =>
      have hrem : remaining = 0 := by
        rcases List.take_eq_nil_iff.mp h with h0 | h0
        · exact h0
        · rw [h0, List.length_nil] at hle
          omega
      subst hrem
      cases hb
      exact ⟨rfl, rfl⟩
    next => cases hb
  | inDeflated flow =>
    obtain ⟨bytes, ending⟩ := flow
    obtain rfl : bytes = [] := h
    cases hb
    exact ⟨rfl, rfl⟩
  | _ => cases hb

end Place

namespace Current

@[simp] lemma absorb_nil (c : Current) : c.absorb [] = c := rfl

@[simp] lemma absorb_append (c : Current) (a b : Bytes) :
    c.absorb (a ++ b) = (c.absorb a).absorb b := by
  simp [absorb, Nat.add_assoc]

end Current

namespace Walk

/-! ## Leaving an entry at the end of its payload -/

section Finishing

variable {w : Walk} {c : Current}

/-- What follows a delivered payload: the bytes after its descriptor, unless that cannot be read or
the payload is not as recorded. -/
def conclusion (verify : Bool) (c : Current) (rest : Bytes) : Except IoError Bytes :=
  match settle c.entry rest with
  | .error e => .error e
  | .ok (e, rest) =>
    if verify then
      match e.check (Checksum.finish c.register) c.produced with
      | .error f => .error (.fault f)
      | .ok () => .ok rest
    else .ok rest

/-- The ending of a payload with the given conclusion. -/
def concluded (regime : Regime) : Except IoError Bytes → Except IoError Bytes × Walk
  | .error e => (.error e, ⟨.ended, none, regime⟩)
  | .ok rest => (.ok [], ⟨.atHeader rest, none, regime⟩)

/-- Leaving an entry at the end of its payload. -/
lemma finish_eq {rest : Bytes} (hc : w.current = some c) (hrest : w.place.rest? = some rest) :
    w.finish = concluded w.regime (conclusion w.verify c rest) := by
  simp only [finish, hc, hrest, conclusion]
  cases settle c.entry rest with
  | error e => rfl
  | ok q =>
    obtain ⟨e, rest'⟩ := q
    simp only [verdict]
    cases w.verify with
    | false => rfl
    | true => cases e.check (Checksum.finish c.register) c.produced <;> rfl

/-- All that leaving an entry at the end of its payload can do: nothing beyond the entries, and
otherwise what the conclusion of some payload leads to. -/
lemma finish_cases (w : Walk) :
    (w.place.rest? = none ∧ w.finish = (.ok [], w)) ∨ ∃ r, w.finish = concluded w.regime r := by
  cases hrest : w.place.rest? with
  | none => exact .inl ⟨rfl, by simp only [finish, hrest]⟩
  | some rest =>
    right
    cases hc : w.current with
    | none => exact ⟨.ok rest, by simp only [finish, hrest, hc, concluded]⟩
    | some c => exact ⟨_, finish_eq hc hrest⟩

/-- Leaving an entry without failing leaves none, unless the walk is nowhere already. -/
lemma finish_of_ok (h : w.finish.1 = .ok []) : w.finish.2 = w ∨ w.finish.2.current = none := by
  rcases finish_cases w with ⟨-, hfinish⟩ | ⟨e | rest, hfinish⟩
  · rw [hfinish]
    exact .inl rfl
  · rw [hfinish] at h
    cases h
  · rw [hfinish]
    exact .inr rfl

/-- Leaving an entry at its end delivers nothing. -/
lemma finish_ok {got : Bytes} (h : w.finish.1 = .ok got) : got = [] := by
  unfold finish at h
  split at h
  · cases h
    rfl
  · cases h
    rfl
  · dsimp only at h
    split at h
    · cases h
    · split at h <;> cases h
      rfl

/-- A conclusion that is not a failure is drawn from a descriptor that can be read. -/
lemma settle_of_conclusion {verify : Bool} {rest more : Bytes}
    (h : conclusion verify c rest = .ok more) : ∃ e', settle c.entry rest = .ok (e', more) := by
  unfold conclusion at h
  split at h
  next => cases h
  next e' rest' hsettle =>
    obtain rfl : rest' = more := by
      split at h
      · split at h
        · cases h
        · cases h
          rfl
      · cases h
        rfl
    exact ⟨e', hsettle⟩

end Finishing

/-! ## The pending bytes and the ending -/

variable [Inflater]

/-- The walk is at an entry whose payload can be read. -/
def Readable (w : Walk) : Prop :=
  ∃ c, w.current = some c ∧ c.entry.refusal = none

/-- The bytes of the payload that are still to be delivered. -/
def pending (w : Walk) : Bytes :=
  match w.current with
  | none => []
  | some c => if c.entry.refusal.isSome then [] else w.enter.place.pending

/-- The walk after the next `k` bytes have been delivered. -/
def pass (k : Nat) (w : Walk) : Walk :=
  { w.enter with
    place := w.enter.place.pass (w.pending.take k).length
    current := w.current.map fun c => c.absorb (w.pending.take k) }

/-- What the first read after the pending bytes gives. -/
def ending (w : Walk) : Except IoError Bytes × Walk :=
  (w.pass w.pending.length).read 1

section Reading

variable {w : Walk} {c : Current}

/-- Beginning the payload keeps the entry. -/
lemma current_enter (w : Walk) : w.enter.current = w.current := by
  unfold enter
  split
  · rfl
  · split
    · rfl
    · split <;> rfl

/-- Where a walk at a readable entry is once the payload has begun. -/
lemma enter_of_ok {p : Place} (hc : w.current = some c) (hr : c.entry.refusal = none)
    (hp : w.place.enter w.slicing c.entry = .ok p) : w.enter = { w with place := p } := by
  simp [enter, hc, hr, hp]

/-- A payload that cannot begin leaves the walk where it is. -/
lemma enter_of_error {e : IoError} (hc : w.current = some c) (hr : c.entry.refusal = none)
    (hp : w.place.enter w.slicing c.entry = .error e) : w.enter = w := by
  simp [enter, hc, hr, hp]

/-- The pending bytes of a payload that has begun. -/
lemma pending_of_ok {p : Place} (hc : w.current = some c) (hr : c.entry.refusal = none)
    (hp : w.place.enter w.slicing c.entry = .ok p) : w.pending = p.pending := by
  simp [pending, hc, hr, enter_of_ok hc hr hp]

/-- Reading nothing does nothing. -/
@[simp] lemma read_zero (w : Walk) : w.read 0 = (.ok [], w) := by
  cases hc : w.current <;> simp [read, hc]

/-- Reading a payload that has begun. -/
lemma read_of_ok {p : Place} {n : Nat} (hc : w.current = some c) (hr : c.entry.refusal = none)
    (hp : w.place.enter w.slicing c.entry = .ok p) (hn : 0 < n) :
    w.read n = match p.deliver n with
      | .error e => (.error e, { w with place := p })
      | .ok ([], p) => finish { w with place := p }
      | .ok (got, p) => (.ok got, { w with place := p, current := some (c.absorb got) }) := by
  have hne : n ≠ 0 := Nat.ne_of_gt hn
  cases hd : p.deliver n with
  | error e => simp [read, hc, hr, hp, hd, hne]
  | ok q =>
    obtain ⟨got, q⟩ := q
    cases got <;> simp [read, hc, hr, hp, hd, hne]

/-- Bytes are pending only in a payload that can be read and has begun or can begin. -/
lemma exists_of_pending_ne_nil (h : w.pending ≠ []) :
    ∃ c p, w.current = some c ∧ c.entry.refusal = none ∧ w.place.enter w.slicing c.entry = .ok p := by
  cases hc : w.current with
  | none => exact absurd (by simp [pending, hc]) h
  | some c =>
    cases hr : c.entry.refusal with
    | some feature => exact absurd (by simp [pending, hc, hr]) h
    | none =>
      cases hp : w.place.enter w.slicing c.entry with
      | ok p => exact ⟨c, p, rfl, hr, hp⟩
      | error e =>
        -- Only a payload that has not begun can fail to begin, and such a place delivers nothing.
        have hplace : w.place.pending = [] := by
          cases hw : w.place with
          | atPayload rest => rfl
          | _ => rw [hw] at hp; cases hp
        exact absurd (by simp [pending, hc, hr, enter_of_error hc hr hp, hplace]) h

/-- A walk inside a payload after some of it has been delivered. -/
lemma pass_of_ok {p : Place} (hc : w.current = some c) (hr : c.entry.refusal = none)
    (hp : w.place.enter w.slicing c.entry = .ok p) (k : Nat) :
    w.pass k =
      ⟨p.pass (p.pending.take k).length, some (c.absorb (p.pending.take k)), w.regime⟩ := by
  rw [pass, pending_of_ok hc hr hp, enter_of_ok hc hr hp, hc]
  rfl

/-- Where nothing is pending, passing only begins the payload. -/
lemma pass_of_empty (h : w.pending = []) (k : Nat) : w.pass k = w.enter := by
  have hcur : w.current = w.enter.current := (current_enter w).symm
  rw [pass, h, hcur]
  cases hc : w.enter.current <;> simp [← hc]

/-- While bytes are pending, some of them are among the next ones. -/
lemma take_pending_ne_nil {n : Nat} (hn : 0 < n) (h : w.pending ≠ []) : w.pending.take n ≠ [] := by
  intro hnil
  rcases List.take_eq_nil_iff.mp hnil with h0 | h0
  · omega
  · exact h h0

/-- While bytes are pending, a read delivers the next ones. -/
lemma read_of_pending {n : Nat} (hn : 0 < n) (h : w.pending ≠ []) :
    w.read n = (.ok (w.pending.take n), w.pass n) := by
  have hnext := take_pending_ne_nil hn h
  obtain ⟨c, p, hc, hr, hp⟩ := exists_of_pending_ne_nil h
  rw [pending_of_ok hc hr hp] at h hnext ⊢
  rw [read_of_ok hc hr hp hn, Place.deliver_of_pending hn h, pass_of_ok hc hr hp]
  cases htake : p.pending.take n with
  | nil => exact absurd htake hnext
  | cons b got => rfl

/-- When nothing is pending, a read meets the ending. -/
lemma read_of_empty {n : Nat} (hn : 0 < n) (h : w.pending = []) : w.read n = w.ending := by
  rw [ending, pass_of_empty h]
  cases hc : w.current with
  | none => simp [read, enter, hc]
  | some c =>
    cases hr : c.entry.refusal with
    | some feature =>
      have henter : w.enter = w := by simp [enter, hc, hr]
      rw [henter]
      simp [read, hc, hr, Nat.ne_of_gt hn]
    | none =>
      cases hp : w.place.enter w.slicing c.entry with
      | error e =>
        rw [enter_of_error hc hr hp]
        simp [read, hc, hr, hp, Nat.ne_of_gt hn]
      | ok p =>
        have hnone : p.pending = [] := by rw [← pending_of_ok hc hr hp, h]
        have hp' : { w with place := p }.place.enter w.slicing c.entry = .ok p := Place.enter_enter hp
        rw [enter_of_ok hc hr hp, read_of_ok hc hr hp hn,
          read_of_ok (w := { w with place := p }) hc hr hp' Nat.one_pos,
          (Place.deliver_of_empty hnone n).1]

/-- Beginning a payload twice is beginning it once. -/
lemma enter_enter (w : Walk) : w.enter.enter = w.enter := by
  cases hc : w.current with
  | none =>
    have henter : w.enter = w := by simp [enter, hc]
    rw [henter, henter]
  | some c =>
    cases hr : c.entry.refusal with
    | some feature =>
      have henter : w.enter = w := by simp [enter, hc, hr]
      rw [henter, henter]
    | none =>
      cases hp : w.place.enter w.slicing c.entry with
      | error e =>
        rw [enter_of_error hc hr hp]
        exact enter_of_error hc hr hp
      | ok p =>
        rw [enter_of_ok hc hr hp]
        exact enter_of_ok hc hr (Place.enter_enter hp)

/-- Beginning the payload delivers nothing. -/
@[simp] lemma pending_enter (w : Walk) : w.enter.pending = w.pending := by
  rw [pending, current_enter, enter_enter]
  rfl

/-- Passing takes bytes from the front of those that are pending. -/
@[simp] lemma pending_pass (k : Nat) (w : Walk) : (w.pass k).pending = w.pending.drop k := by
  by_cases h : w.pending = []
  · rw [pass_of_empty h, pending_enter, h, List.drop_nil]
  · obtain ⟨c, p, hc, hr, hp⟩ := exists_of_pending_ne_nil h
    set j := (p.pending.take k).length with hj
    have hafter : Walk.pending ⟨p.pass j, some (c.absorb (p.pending.take k)), w.regime⟩ =
        (p.pass j).pending :=
      pending_of_ok (c := c.absorb (p.pending.take k)) rfl hr (Place.enter_pass hp j)
    rw [pass_of_ok hc hr hp, hafter, pending_of_ok hc hr hp, Place.pending_pass, hj]
    exact drop_length_take k p.pending

/-- Once all pending bytes have been delivered, nothing is pending. -/
lemma pending_pass_length (w : Walk) : (w.pass w.pending.length).pending = [] := by
  rw [pending_pass, List.drop_length]

/-- Passing twice is passing once over both stretches. -/
lemma pass_pass (j k : Nat) (w : Walk) : (w.pass j).pass k = w.pass (j + k) := by
  by_cases h : w.pending = []
  · rw [pass_of_empty h, pass_of_empty h, pass_of_empty (by rw [pending_enter, h]), enter_enter]
  · obtain ⟨c, p, hc, hr, hp⟩ := exists_of_pending_ne_nil h
    set i := (p.pending.take j).length with hi
    have hpend : (p.pass i).pending = p.pending.drop j := by
      rw [Place.pending_pass, hi, drop_length_take]
    have hafter : Walk.pass k ⟨p.pass i, some (c.absorb (p.pending.take j)), w.regime⟩ =
        ⟨(p.pass i).pass ((p.pass i).pending.take k).length,
          some ((c.absorb (p.pending.take j)).absorb ((p.pass i).pending.take k)), w.regime⟩ :=
      pass_of_ok (w := ⟨p.pass i, some (c.absorb (p.pending.take j)), w.regime⟩) rfl hr
        (Place.enter_pass hp i) k
    rw [pass_of_ok hc hr hp, hafter, pass_of_ok hc hr hp, Place.pass_pass, hpend, hi,
      ← Current.absorb_append, ← List.length_append, ← List.take_add]

/-- Passing over more bytes than are pending is passing over all of them. -/
lemma pass_of_le {k : Nat} (h : w.pending.length ≤ k) : w.pass k = w.pass w.pending.length := by
  rw [pass, pass, List.take_of_length_le h, List.take_length]

/-- Passing counts only the bytes that are pending. -/
lemma pass_length_take (k : Nat) (w : Walk) : w.pass (w.pending.take k).length = w.pass k := by
  have htake : w.pending.take (w.pending.take k).length = w.pending.take k := by
    rw [List.length_take, ← List.take_take, List.take_length]
  rw [pass, pass, htake]

/-- Passing leaves the ending as it is. -/
@[simp] lemma ending_pass (k : Nat) (w : Walk) : (w.pass k).ending = w.ending := by
  have hend : (w.pass k).pass (w.pending.length - k) = w.pass w.pending.length := by
    rw [pass_pass]
    by_cases hk : k ≤ w.pending.length
    · rw [Nat.add_sub_cancel' hk]
    · exact pass_of_le (by omega)
  rw [ending, ending, pending_pass, List.length_drop, hend]

/-- Beginning the payload leaves the ending as it is. -/
@[simp] lemma ending_enter (w : Walk) : w.enter.ending = w.ending := by
  have hpass : w.enter.pass w.pending.length = w.pass w.pending.length := by
    rw [pass, pass, enter_enter, pending_enter, current_enter]
  rw [ending, ending, pending_enter, hpass]

/-! ## Operations that read more than once -/

/-- The failure that ends a payload, if one does. -/
def failure (w : Walk) : Option IoError :=
  match w.ending.1 with
  | .error e => some e
  | .ok _ => none

/-- Nothing is pending of a payload that cannot begin. -/
lemma pending_of_enter_error {e : IoError} (hc : w.current = some c)
    (hp : w.place.enter w.slicing c.entry = .error e) : w.pending = [] := by
  by_contra hne
  obtain ⟨c', p, hc', -, hp'⟩ := exists_of_pending_ne_nil hne
  rw [hc] at hc'
  cases hc'
  rw [hp] at hp'
  cases hp'

/-- A payload that cannot begin fails for that reason. -/
lemma failure_of_enter_error {e : IoError} (hc : w.current = some c) (hr : c.entry.refusal = none)
    (hp : w.place.enter w.slicing c.entry = .error e) : w.failure = some e := by
  rw [failure, ← read_of_empty Nat.one_pos (pending_of_enter_error hc hp)]
  simp [read, hc, hr, hp]

/-- Passing leaves the failure as it is. -/
@[simp] lemma failure_pass (k : Nat) (w : Walk) : (w.pass k).failure = w.failure := by
  rw [failure, failure, ending_pass]

/-- Beginning the payload leaves the failure as it is. -/
@[simp] lemma failure_enter (w : Walk) : w.enter.failure = w.failure := by
  rw [failure, failure, ending_enter]

/-- When nothing is pending, a read delivers nothing. -/
lemma read_of_empty_ok {n : Nat} {got : Bytes} (hn : 0 < n) (h : w.pending = [])
    (hok : (w.read n).1 = .ok got) : got = [] := by
  cases hc : w.current with
  | none =>
    simp only [read, hc] at hok
    cases hok
    rfl
  | some c =>
    cases hr : c.entry.refusal with
    | some feature => simp [read, hc, hr, Nat.ne_of_gt hn] at hok
    | none =>
      cases hp : w.place.enter w.slicing c.entry with
      | error e => simp [read, hc, hr, hp, Nat.ne_of_gt hn] at hok
      | ok p =>
        have hnone : p.pending = [] := by rw [← pending_of_ok hc hr hp, h]
        obtain ⟨hsame, hcases⟩ := Place.deliver_of_empty hnone n
        rw [read_of_ok hc hr hp hn, hsame] at hok
        rcases hcases with ⟨e, he⟩ | hend
        · rw [he] at hok
          cases hok
        · rw [hend] at hok
          exact finish_ok hok

/-- The ending of a payload that does not fail delivers nothing. -/
lemma ending_of_ok {got : Bytes} (h : w.ending.1 = .ok got) : got = [] := by
  exact read_of_empty_ok Nat.one_pos (pending_pass_length w) h

/-- A payload without a failure ends by delivering nothing. -/
lemma ending_of_failure_none (h : w.failure = none) : w.ending.1 = .ok [] := by
  cases hend : w.ending.1 with
  | error e => simp [failure, hend] at h
  | ok got => rw [ending_of_ok hend]

/-- Without an entry, nothing is pending and nothing fails. -/
lemma over_of_current_none (hc : w.current = none) : w.pending = [] ∧ w.failure = none := by
  have hpend : w.pending = [] := by simp [pending, hc]
  have hread : w.read 1 = (.ok [], w) := by simp [read, hc]
  refine ⟨hpend, ?_⟩
  rw [failure, ← read_of_empty Nat.one_pos hpend, hread]

/-- A read that delivers nothing has met the ending. -/
lemma of_read_nil {n : Nat} {w' : Walk} (hn : 0 < n) (h : w.read n = (.ok [], w')) :
    w.pending = [] ∧ w.failure = none ∧ w' = w.ending.2 := by
  by_cases hnil : w.pending = []
  · rw [read_of_empty hn hnil] at h
    refine ⟨hnil, ?_, by rw [h]⟩
    rw [failure, h]
  · rw [read_of_pending hn hnil] at h
    injection h with hgot hrest
    injection hgot with hgot
    exact absurd hgot (take_pending_ne_nil hn hnil)

/-- A read that fails has met the ending. -/
lemma of_read_error {n : Nat} {w' : Walk} {e : IoError} (hn : 0 < n)
    (h : w.read n = (.error e, w')) : w.pending = [] ∧ w.failure = some e := by
  by_cases hnil : w.pending = []
  · rw [read_of_empty hn hnil] at h
    refine ⟨hnil, ?_⟩
    rw [failure, h]
  · rw [read_of_pending hn hnil] at h
    cases h

/-- A read that delivers something has taken it from the front of what is pending. -/
lemma of_read_got {n : Nat} {w' : Walk} {got : Bytes} (hn : 0 < n)
    (h : w.read n = (.ok got, w')) (hgot : got ≠ []) :
    w.pending ≠ [] ∧ got = w.pending.take n ∧ w' = w.pass n := by
  by_cases hnil : w.pending = []
  · rw [read_of_empty hn hnil] at h
    exact absurd (ending_of_ok (w := w) (by rw [h])) hgot
  · rw [read_of_pending hn hnil] at h
    cases h
    exact ⟨hnil, rfl, rfl⟩

/-- Asking for no more than is pending takes the front of it. -/
lemma readUpTo_of_le {n : Nat} (hn : 0 < n) (h : n ≤ w.pending.length) :
    w.readUpTo n = ((w.pending.take n, none), w.pass n) := by
  have hne : w.pending ≠ [] := List.ne_nil_of_length_pos (by omega)
  have hlen : (w.pending.take n).length = n := List.length_take_of_le h
  rw [readUpTo, if_neg (Nat.ne_of_gt hn), read_of_pending hn hne]
  cases htake : w.pending.take n with
  | nil => rfl
  | cons b got =>
    rw [htake, List.length_cons] at hlen
    dsimp only
    rw [hlen, Nat.sub_self, readUpTo, if_pos rfl, List.append_nil]

/-- Asking for something when nothing is pending meets the ending. -/
lemma readUpTo_of_empty {n : Nat} (hn : 0 < n) (h : w.pending = []) :
    w.readUpTo n = (([], w.failure), w.ending.2) := by
  rw [readUpTo, if_neg (Nat.ne_of_gt hn), read_of_empty hn h, failure]
  cases hend : w.ending with
  | mk r w' =>
    cases r with
    | error e => rfl
    | ok got =>
      obtain rfl : got = [] := ending_of_ok (w := w) (by rw [hend])
      rfl

/-- Asking for more than is pending takes all of it and meets the ending. -/
lemma readUpTo_of_lt {n : Nat} (h : w.pending.length < n) :
    w.readUpTo n = ((w.pending, w.failure), w.ending.2) := by
  have hn : 0 < n := by omega
  by_cases hne : w.pending = []
  · rw [readUpTo_of_empty hn hne, hne]
  · have hall : w.pending.take n = w.pending := List.take_of_length_le (Nat.le_of_lt h)
    have hnone : (w.pass n).pending = [] := by
      rw [pending_pass]
      exact List.drop_eq_nil_of_le (Nat.le_of_lt h)
    rw [readUpTo, if_neg (Nat.ne_of_gt hn), read_of_pending hn hne, hall]
    cases hpend : w.pending with
    | nil => exact absurd hpend hne
    | cons b got =>
      dsimp only
      rw [hpend, List.length_cons] at h
      rw [readUpTo_of_empty (by omega) hnone, ending_pass, failure_pass, List.append_nil]

/-- Passing over nothing does nothing. -/
@[simp] lemma skip_zero (w : Walk) : w.skip 0 = (.ok 0, w) := by
  rw [skip, readUpTo, if_pos rfl]
  rfl

/-- Passing over no more than is pending passes over just that. -/
lemma skip_of_le {n : Nat} (hn : 0 < n) (h : n ≤ w.pending.length) :
    w.skip n = (.ok n, w.pass n) := by
  rw [skip, readUpTo_of_le hn h]
  dsimp only
  rw [List.length_take_of_le h]

/-- Passing over more than is pending meets the ending, and tells how much was pending unless the
ending is a failure. -/
lemma skip_of_lt {n : Nat} (h : w.pending.length < n) :
    w.skip n = match w.failure with
      | none => (.ok w.pending.length, w.ending.2)
      | some e => (.error e, w.ending.2) := by
  rw [skip, readUpTo_of_lt h]
  cases w.failure <;> rfl

/-- No more bytes are pending than can be delivered. -/
lemma length_pending_le (w : Walk) : w.pending.length ≤ w.enter.place.available := by
  rw [pending]
  split
  · exact Nat.zero_le _
  · split
    · exact Nat.zero_le _
    · exact Nat.le_of_eq (Place.length_pending _)

/-- Reading everything takes what is pending and meets the ending. -/
lemma readAll_eq (w : Walk) : w.readAll = ((w.pending, w.failure), w.ending.2) := by
  have hlt : w.enter.pending.length < w.enter.place.available + 1 := by
    rw [pending_enter]
    exact Nat.lt_succ_of_le (length_pending_le w)
  rw [readAll, readUpTo_of_lt hlt, pending_enter, failure_enter, ending_enter]

/-! ## The end of a payload -/

/-- A read that meets the end of a payload without failing leaves the entry, unless the walk is
nowhere already. -/
lemma read_of_empty_cases (hnil : w.pending = []) (h : (w.read 1).1 = .ok []) :
    (w.read 1).2 = w.enter ∨ (w.read 1).2.current = none := by
  cases hc : w.current with
  | none => simp [read, hc]
  | some c =>
    cases hr : c.entry.refusal with
    | some feature => simp [read, hc, hr] at h
    | none =>
      cases hp : w.place.enter w.slicing c.entry with
      | error e => simp [read, hc, hr, hp] at h
      | ok p =>
        have hp0 : p.pending = [] := by rw [← pending_of_ok hc hr hp, hnil]
        rw [read_of_ok hc hr hp Nat.one_pos] at h ⊢
        rcases (Place.deliver_of_empty hp0 1).2 with ⟨e, he⟩ | hend
        · rw [he] at h
          cases h
        · rw [hend] at h ⊢
          rw [enter_of_ok hc hr hp]
          exact finish_of_ok h

/-- Once a payload has ended without failing, nothing is pending any more and nothing fails. -/
lemma over_of_failure_none (h : w.failure = none) :
    w.ending.2.pending = [] ∧ w.ending.2.failure = none := by
  have hnil := pending_pass_length w
  have hfail : (w.pass w.pending.length).failure = none := by rw [failure_pass, h]
  have hok := ending_of_failure_none h
  rw [ending] at hok ⊢
  rcases read_of_empty_cases hnil hok with hsame | hleft
  · rw [hsame, pending_enter, failure_enter]
    exact ⟨hnil, hfail⟩
  · exact over_of_current_none hleft

/-- The ending of a payload that has begun is what the first read after its bytes gives. -/
lemma ending_eq_read {p : Place} (hc : w.current = some c) (hr : c.entry.refusal = none)
    (hp : w.place.enter w.slicing c.entry = .ok p) :
    w.ending = match (p.pass p.pending.length).deliver 1 with
      | .error e => (.error e,
          ⟨p.pass p.pending.length, some (c.absorb p.pending), w.regime⟩)
      | .ok ([], q) => finish ⟨q, some (c.absorb p.pending), w.regime⟩
      | .ok (got, q) => (.ok got, ⟨q, some ((c.absorb p.pending).absorb got), w.regime⟩) := by
  have hpass := pass_of_ok hc hr hp p.pending.length
  rw [List.take_length] at hpass
  have hr' : (c.absorb p.pending).entry.refusal = none := hr
  rw [ending, pending_of_ok hc hr hp, hpass]
  exact read_of_ok rfl hr' (Place.enter_pass hp _) Nat.one_pos

/-- A whole payload ends with its conclusion, drawn after all pending bytes. -/
lemma ending_of_beyond_ok {p : Place} {rest : Bytes} (hc : w.current = some c)
    (hr : c.entry.refusal = none) (hp : w.place.enter w.slicing c.entry = .ok p)
    (hb : p.beyond = some (.ok rest)) :
    w.ending = concluded w.regime (conclusion w.verify (c.absorb p.pending) rest) := by
  have hb' : (p.pass p.pending.length).beyond = some (.ok rest) := by
    rw [Place.beyond_pass (Nat.le_refl _), hb]
  obtain ⟨hend, hrest⟩ := Place.deliver_of_beyond_ok (Place.pending_pass_length p) hb'
  rw [ending_eq_read hc hr hp, hend]
  exact finish_eq rfl hrest

/-- A payload that is cut short ends with that failure. -/
lemma ending_of_beyond_error {p : Place} {e : IoError} (hc : w.current = some c)
    (hr : c.entry.refusal = none) (hp : w.place.enter w.slicing c.entry = .ok p)
    (hb : p.beyond = some (.error e)) : w.ending.1 = .error e := by
  have hb' : (p.pass p.pending.length).beyond = some (.error e) := by
    rw [Place.beyond_pass (Nat.le_refl _), hb]
  have hend := Place.deliver_of_beyond_error (Place.pending_pass_length p) hb'
  rw [ending_eq_read hc hr hp, hend]

/-- A payload that is cut short fails for that reason. -/
lemma failure_of_beyond_error {p : Place} {e : IoError} (hc : w.current = some c)
    (hr : c.entry.refusal = none) (hp : w.place.enter w.slicing c.entry = .ok p)
    (hb : p.beyond = some (.error e)) : w.failure = some e := by
  rw [failure, ending_of_beyond_error hc hr hp hb]

/-- Behind a payload that does not fail are bytes from which a conclusion can be drawn. -/
lemma exists_conclusion {rest : Bytes} (hp : w.place = .atPayload rest) (hc : w.current = some c)
    (hr : c.entry.refusal = none) (hf : w.failure = none) :
    ∃ p left more, w.place.enter w.slicing c.entry = .ok p ∧ p.beyond = some (.ok left) ∧
      conclusion w.verify (c.absorb p.pending) left = .ok more := by
  cases henter : w.place.enter w.slicing c.entry with
  | error x =>
    rw [failure_of_enter_error hc hr henter] at hf
    cases hf
  | ok p =>
    obtain ⟨r, hb⟩ := Place.exists_beyond (hp ▸ henter)
    cases r with
    | error x =>
      rw [failure_of_beyond_error hc hr henter hb] at hf
      cases hf
    | ok left =>
      have hend := ending_of_beyond_ok hc hr henter hb
      cases hcon : conclusion w.verify (c.absorb p.pending) left with
      | error x =>
        rw [hcon] at hend
        simp [failure, hend, concluded] at hf
      | ok more => exact ⟨p, left, more, rfl, hb, hcon⟩

/-! ## Straight reads -/

/-- Reading the current entry front to back, in pieces of any positive sizes, delivers the given bytes
and then meets the end, or the given failure. -/
inductive ReadsThrough : Walk → Bytes → Option IoError → Prop
  | ended {w w' : Walk} {n : Nat} (hn : 0 < n) (hr : w.read n = (.ok [], w')) :
      ReadsThrough w [] none
  | failed {w w' : Walk} {n : Nat} {e : IoError} (hn : 0 < n) (hr : w.read n = (.error e, w')) :
      ReadsThrough w [] (some e)
  | delivered {w w' : Walk} {n : Nat} {got data : Bytes} {failure : Option IoError} (hn : 0 < n)
      (hr : w.read n = (.ok got, w')) (hgot : got ≠ []) (rest : ReadsThrough w' data failure) :
      ReadsThrough w (got ++ data) failure

/-- A straight read delivers what is pending and comes to the failure, whatever the pieces. -/
lemma ReadsThrough.eq {data : Bytes} {failure : Option IoError} (h : w.ReadsThrough data failure) :
    data = w.pending ∧ failure = w.failure := by
  induction h with
  | ended hn hr =>
    obtain ⟨hnil, hfail, -⟩ := of_read_nil hn hr
    exact ⟨hnil.symm, hfail.symm⟩
  | failed hn hr =>
    obtain ⟨hnil, hfail⟩ := of_read_error hn hr
    exact ⟨hnil.symm, hfail.symm⟩
  | delivered hn hr hgot rest ih =>
    obtain ⟨-, rfl, rfl⟩ := of_read_got hn hr hgot
    obtain ⟨hdata, hfail⟩ := ih
    rw [failure_pass] at hfail
    refine ⟨?_, hfail⟩
    rw [hdata, pending_pass, List.take_append_drop]

/-- With nothing pending, a straight read is over at once. -/
lemma readsThrough_of_empty (hnil : w.pending = []) : w.ReadsThrough [] w.failure := by
  rcases hr : w.read 1 with ⟨e | got, w'⟩
  · rw [(of_read_error Nat.one_pos hr).2]
    exact .failed Nat.one_pos hr
  · obtain rfl : got = [] := read_of_empty_ok Nat.one_pos hnil (by rw [hr])
    rw [(of_read_nil Nat.one_pos hr).2.1]
    exact .ended Nat.one_pos hr

/-- Every entry can be read straight: in one piece, for one. -/
lemma readsThrough_pending (w : Walk) : w.ReadsThrough w.pending w.failure := by
  by_cases hnil : w.pending = []
  · rw [hnil]
    exact readsThrough_of_empty hnil
  · have hlen : 0 < w.pending.length := List.length_pos_of_ne_nil hnil
    have hread := read_of_pending hlen hnil
    rw [List.take_length] at hread
    have hrest := readsThrough_of_empty (pending_pass_length w)
    rw [failure_pass] at hrest
    have hall := ReadsThrough.delivered hlen hread hnil hrest
    rwa [List.append_nil] at hall

end Reading

end Walk

end ZipMount
