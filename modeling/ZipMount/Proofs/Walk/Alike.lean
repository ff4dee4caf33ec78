import ZipMount.Proofs.Walk.Outlook

/-!
# Walks that move alike

Walks through two containers, or two walks through one, can be followed side by side as long as they
come to entries with the same record.  `Walk.MovedAlike R` is how far this goes: both have moved to the
same error, or to the end, or to such entries, where `R` relates the walks.

What `R` has to be is left open, but for one thing: walks that it relates move alike.  Then a search
comes to the same in both (`MovedAlike.find`), and scans report the same (`MovedAlike.records_eq`).
-/

namespace ZipMount

namespace Walk

/-- Two walks have moved to the same error, to the end, or to entries with the same record, where the
walks are related. -/
inductive MovedAlike (R : Record → Walk → Walk → Prop) :
    Except Error (Option Record) × Walk → Except Error (Option Record) × Walk → Prop
  | failed (e : Error) (u w : Walk) : MovedAlike R (.error e, u) (.error e, w)
  | ended (u w : Walk) : MovedAlike R (.ok none, u) (.ok none, w)
  | found {r : Record} {u w : Walk} (h : R r u w) :
      MovedAlike R (.ok (some r), u) (.ok (some r), w)

namespace MovedAlike

variable {R : Record → Walk → Walk → Prop}

/-- Walks that have moved to the same error have moved alike. -/
lemma of_error {a b : Except Error (Option Record) × Walk} {e : Error} (ha : a.1 = .error e)
    (hb : b.1 = .error e) : MovedAlike R a b := by
  obtain ⟨_, u⟩ := a
  obtain ⟨_, w⟩ := b
  subst ha hb
  exact .failed e u w

variable [Inflater] {u w : Walk} (hR : ∀ {r u w}, R r u w → MovedAlike R u.next w.next)
include hR

/-- From walks that move on alike, a search with a bound comes to the same. -/
lemma findWithin (h : MovedAlike R u.next w.next) (fuel : Nat) (q : Record → Bool) :
    MovedAlike R (u.findWithin fuel q) (w.findWithin fuel q) := by
  induction fuel generalizing u w with
  | zero => exact .ended u w
  | succ fuel ih =>
    rw [Walk.findWithin, Walk.findWithin]
    generalize u.next = moved at h ⊢
    generalize w.next = moved' at h ⊢
    cases h with
    | failed e u' w' => exact .failed e u' w'
    | ended u' w' => exact .ended u' w'
    | @found r u' w' h =>
      dsimp only
      by_cases hq : q r = true
      · rw [if_pos hq, if_pos hq]
        exact .found h
      · rw [if_neg hq, if_neg hq]
        exact ih (hR h)

/-- From walks that move on alike, a search comes to the same. -/
lemma find (h : MovedAlike R u.next w.next) (hhorizon : w.horizon = u.horizon)
    (q : Record → Bool) : MovedAlike R (u.find q) (w.find q) := by
  rw [Walk.find, Walk.find, hhorizon]
  exact findWithin hR h _ q

/-- From walks that move on alike, a scan with a bound reports the same. -/
lemma sweepWithin_eq (h : MovedAlike R u.next w.next) (fuel : Nat) :
    (u.sweepWithin (fun v => ((), v)) fuel).1 = (w.sweepWithin (fun v => ((), v)) fuel).1 := by
  induction fuel generalizing u w with
  | zero => rfl
  | succ fuel ih =>
    rw [Walk.sweepWithin, Walk.sweepWithin]
    generalize u.next = moved at h ⊢
    generalize w.next = moved' at h ⊢
    cases h with
    | failed => rfl
    | ended => rfl
    | @found r u' w' h => exact congrArg (fun found => ((r, ()) :: found.1, found.2)) (ih (hR h))

/-- From walks that move on alike, a scan reports the same. -/
lemma records_eq (h : MovedAlike R u.next w.next) (hhorizon : w.horizon = u.horizon) :
    u.records = w.records := by
  rw [Walk.records, Walk.records, Walk.sweep, Walk.sweep, hhorizon]
  exact congrArg (fun found => (found.1.map Prod.fst, found.2)) (sweepWithin_eq hR h u.horizon)

end MovedAlike

end Walk

end ZipMount
