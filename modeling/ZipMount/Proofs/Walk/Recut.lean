import ZipMount.Proofs.Inflater
import ZipMount.Proofs.Walk.Alike
import ZipMount.Proofs.Walk.Tour

/-!
# One container, cut in two ways

The buffer in front of a container cuts what is ahead of a walk into slices.  Take two walks through
one container that verify alike, under buffers of two sizes.  An untouched walk looks into a payload
only where no size is recorded, and there only for its end, so the two move alike (`Recut.next`): to
the same error, to the end, or to the same payload, where they are `Recut` again.

Ahead of walks that are recut are the same bytes with the same ending, unless the deflate stream is
damaged (`Recut.endedAlike`).  Damage is found out in some slice, and the cuts say where this slice
begins.  So one walk may deliver more bytes than the other one before both fail, for the same reason.
-/

namespace ZipMount

namespace Walk

/-- A walk at the first byte of the payload of an entry. -/
def untouched (e : Entry) (rest : Bytes) (regime : Regime) : Walk :=
  ⟨.atPayload rest, some (Current.untouched e), regime⟩

/-- Both walks are at the first byte of the payload of the same entry, have the same bytes ahead, and
verify alike.  The cuts may differ. -/
inductive Recut : Record → Walk → Walk → Prop
  | mk (e : Entry) (rest : Bytes) (regime regime' : Regime)
      (hverify : regime'.verify = regime.verify) :
      Recut e.record (untouched e rest regime) (untouched e rest regime')

/-- The payload is a deflate stream that turns out to be damaged. -/
def Damaged [Inflater] (w : Walk) : Prop :=
  w.failure = some .corruptDeflate

/-- The same bytes are pending and come to the same failure or lead to the same header; or the payload
is damaged, and what is pending of one walk is the beginning of what is pending of the other one. -/
inductive EndedAlike [Inflater] (u w : Walk) : Prop
  | failed {e : IoError} (hpending : u.pending = w.pending) (hu : u.failure = some e)
      (hw : w.failure = some e)
  | passed {rest : Bytes} (hpending : u.pending = w.pending)
      (hu : u.ending = concluded u.regime (.ok rest)) (hw : w.ending = concluded w.regime (.ok rest))
  | damaged (hu : u.Damaged) (hw : w.Damaged)
      (hfront : u.pending <+: w.pending ∨ w.pending <+: u.pending)

section Alike

variable [Inflater] {u w : Walk} {c : Current}

/-- Payloads of the same bytes with the same behind them end alike. -/
lemma endedAlike_of_enter {p q : Place} {beyond : Except IoError Bytes}
    (hverify : w.verify = u.verify) (hc : u.current = some c) (hc' : w.current = some c)
    (hr : c.entry.refusal = none) (hp : u.place.enter u.slicing c.entry = .ok p)
    (hq : w.place.enter w.slicing c.entry = .ok q) (hpending : p.pending = q.pending)
    (hbeyond : p.beyond = some beyond) (hbeyond' : q.beyond = some beyond) : EndedAlike u w := by
  have hsame : u.pending = w.pending := by
    rw [pending_of_ok hc hr hp, pending_of_ok hc' hr hq, hpending]
  cases beyond with
  | error e =>
    exact .failed hsame (failure_of_beyond_error hc hr hp hbeyond)
      (failure_of_beyond_error hc' hr hq hbeyond')
  | ok left =>
    have hu := ending_of_beyond_ok hc hr hp hbeyond
    have hw := ending_of_beyond_ok hc' hr hq hbeyond'
    rw [hverify, ← hpending] at hw
    cases hconclusion : conclusion u.verify (c.absorb p.pending) left with
    | error e =>
      rw [hconclusion] at hu hw
      exact .failed hsame (by rw [failure, hu, concluded]) (by rw [failure, hw, concluded])
    | ok rest =>
      rw [hconclusion] at hu hw
      exact .passed hsame hu hw

/-- Walks at the same header move alike. -/
lemma next_start_recut {regime regime' : Regime} (hverify : regime'.verify = regime.verify)
    (input : Bytes) : MovedAlike Recut (start input regime).next (start input regime').next := by
  rw [next_start, next_start]
  by_cases hnil : input = []
  · rw [if_pos hnil, if_pos hnil]
    exact .ended _ _
  · rw [if_neg hnil, if_neg hnil]
    rcases header input with e | _ | ⟨e, rest⟩
    · exact .failed e _ _
    · exact .ended _ _
    · exact .found (.mk e rest regime regime' hverify)

/-- Walks that go through payloads which end alike move alike. -/
lemma EndedAlike.next (h : EndedAlike u w) (hverify : w.verify = u.verify)
    (hc : u.current = some c) (hc' : w.current = some c) (hover : u.passesOver = false)
    (hover' : w.passesOver = false) : MovedAlike Recut u.next w.next := by
  have hclose := close_of_not_passesOver hc hover
  have hclose' := close_of_not_passesOver hc' hover'
  have hfails : ∀ {v : Walk} {x : Error} {v' : Walk}, v.close = (.error x, v') →
      v.next.1 = .error x := fun hv => by rw [Walk.next, hv]
  cases hr : c.entry.refusal with
  | some feature =>
    rw [hr] at hclose hclose'
    exact .of_error (hfails hclose) (hfails hclose')
  | none =>
    rw [hr] at hclose hclose'
    cases h with
    | failed hpending hu hw =>
      rw [hu] at hclose
      rw [hw] at hclose'
      exact .of_error (hfails hclose) (hfails hclose')
    | passed hpending hu hw =>
      rw [failure, hu] at hclose
      rw [failure, hw] at hclose'
      rw [next_of_close hclose rfl, next_of_close hclose' rfl]
      exact next_start_recut hverify _
    | damaged hu hw hfront =>
      rw [Damaged] at hu hw
      rw [hu] at hclose
      rw [hw] at hclose'
      exact .of_error (hfails hclose) (hfails hclose')

/-- Walks that pass over the same payload move alike, whatever the payload holds. -/
lemma next_passed_recut {e : Entry} {size : Nat} (hs : e.compressedSize = some size) (rest : Bytes)
    {regime regime' : Regime} (hverify : regime'.verify = regime.verify) :
    MovedAlike Recut (untouched e rest regime).next (untouched e rest regime').next := by
  cases hraw : (do passPayload size; settle e : Reader Entry) rest with
  | error x =>
    have hfails : ∀ regime, (untouched e rest regime).next.1 = .error (.io x) := by
      intro regime
      rw [next, close_of_pass_error rfl rfl hs hraw]
    exact .of_error (hfails regime) (hfails regime')
  | ok settled =>
    obtain ⟨e', more⟩ := settled
    have hnext : ∀ regime, (untouched e rest regime).next = (start more regime).next := by
      intro regime
      rw [next_of_close (close_of_pass rfl rfl hs hraw) rfl]
      rfl
    rw [hnext, hnext]
    exact next_start_recut hverify more

end Alike

namespace Recut

variable [LawfulInflater] {r : Record} {u w : Walk}

/-- What is ahead of walks that are recut ends alike. -/
lemma endedAlike (h : Recut r u w) : EndedAlike u w := by
  obtain ⟨e, rest, regime, regime', hverify⟩ := h
  have hc : ∀ s, (untouched e rest s).current = some (Current.untouched e) := fun _ => rfl
  cases hr : e.refusal with
  | some feature =>
    obtain ⟨hnil, hfail⟩ := outlook_of_refusal (hc regime) hr
    obtain ⟨hnil', hfail'⟩ := outlook_of_refusal (hc regime') hr
    exact .failed (hnil.trans hnil'.symm) hfail hfail'
  | none =>
    rcases hm : e.method with _ | _ | code
    · have henter : ∀ s : Slicing, (Place.atPayload rest).enter s e =
          .ok (.inStored rest (e.compressedSize.getD 0)) := fun s => by rw [Place.enter, hm]
      exact endedAlike_of_enter hverify (hc _) (hc _) hr (henter _) (henter _) rfl rfl rfl
    · have henter : ∀ s : Slicing, (Place.atPayload rest).enter s e =
          .ok (.inDeflated (Inflater.inflow (s.slices rest))) := fun s => by rw [Place.enter, hm]
      have hcut : (regime'.slicing.slices rest).flatten = (regime.slicing.slices rest).flatten := by
        rw [Slicing.flatten_slices, Slicing.flatten_slices]
      rcases LawfulInflater.inflow_of_resliced hcut with hsame | ⟨hbad', hbad, hfront⟩
      · have henter' := henter regime'.slicing
        rw [hsame] at henter'
        exact endedAlike_of_enter hverify (hc _) (hc _) hr (henter _) henter' rfl rfl rfl
      · have hdamaged := failure_of_beyond_error (hc regime) hr (henter _) (congrArg some hbad)
        have hdamaged' := failure_of_beyond_error (hc regime') hr (henter _) (congrArg some hbad')
        refine .damaged hdamaged hdamaged' ?_
        rw [pending_of_ok (hc regime) hr (henter _), pending_of_ok (hc regime') hr (henter _)]
        exact hfront.symm
    · have henter : ∀ s : Slicing, (Place.atPayload rest).enter s e =
          .error (.undecodableMethod code) := fun s => by rw [Place.enter, hm]
      have hnil := pending_of_enter_error (hc regime) (henter _)
      have hnil' := pending_of_enter_error (hc regime') (henter _)
      exact .failed (hnil.trans hnil'.symm) (failure_of_enter_error (hc regime) hr (henter _))
        (failure_of_enter_error (hc regime') hr (henter _))

/-- Walks that are recut move alike. -/
lemma next (h : Recut r u w) : MovedAlike Recut u.next w.next := by
  have hended := h.endedAlike
  obtain ⟨e, rest, regime, regime', hverify⟩ := h
  cases hs : e.compressedSize with
  | some size => exact next_passed_recut hs rest hverify
  | none =>
    exact hended.next hverify rfl rfl (passesOver_of_drained rfl (.inr hs))
      (passesOver_of_drained rfl (.inr hs))

/-- Walks that are recut come to the same failure, or to none. -/
lemma failure_eq (h : Recut r u w) : u.failure = w.failure := by
  cases h.endedAlike with
  | failed hpending hu hw => rw [hu, hw]
  | passed hpending hu hw => rw [failure, failure, hu, hw, concluded, concluded]
  | damaged hu hw hfront => rw [hu, hw]

/-- Unless the payload is damaged, walks that are recut deliver the same bytes. -/
lemma pending_eq (h : Recut r u w) (hsound : ¬ u.Damaged) : u.pending = w.pending := by
  cases h.endedAlike with
  | failed hpending => exact hpending
  | passed hpending => exact hpending
  | damaged hu => exact absurd hu hsound

end Recut

end Walk

end ZipMount
