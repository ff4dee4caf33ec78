import ZipMount.Proofs.Handle.Calls

/-!
# How a handle passes over gaps

A gap between the stream and the position is passed over in bulk, unless the stream cannot do that;
then the bytes are read and thrown away.  The first time that a handle has to do so it makes up its
mind for good: it never asks any stream to skip again, be it one that could.  A failure is no reason
to change the way, and neither is there a way back.

Whichever way it goes, a handle asks for something and for no more than is left of the gap, so it
moves no stream past the position (`Permitted`).  `Guided` follows a run from its calls alone and
says this of every request; the main statement is `legs_guided`.
-/

namespace ZipMount

namespace Handle

variable {ω σ : Type}

/-- The calls that a request may make at the given places: none, if it does not want any bytes. -/
def Leg.Permits (src : EntrySource ω σ) (chunk : Nat) (leg : Leg σ) (place : Option Nat)
    (c : StreamCall σ) : Prop :=
  0 < leg.request.wanted ∧
    Permitted src leg.position leg.request.wanted chunk leg.latched place c

/-- A run in which every call is one that its request may make, and in which a handle takes to
passing over gaps by reading when there is a gap to pass over on a stream without bulk skips, and at
no other time.  The run begins with the stream at the given place. -/
inductive Guided (src : EntrySource ω σ) (chunk : Nat) : Option Nat → Bool → List (Leg σ) → Prop
  | nil {place : Option Nat} {latched : Bool} : Guided src chunk place latched []
  | cons {place place' : Option Nat} {latched : Bool} {leg : Leg σ} {legs : List (Leg σ)}
      (calls : Leads (leg.Permits src chunk) place leg.calls place')
      (latch : leg.latched = (latched || (gapStream leg.position place leg.calls).any
        fun s => !src.supportsSkip s))
      (rest : Guided src chunk place' leg.latched legs) :
      Guided src chunk place latched (leg :: legs)

/-- What a leg says of the legs after it: once gaps are passed over by reading, they are for good,
and no stream is asked to skip. -/
def Leg.Latches (earlier later : Leg σ) : Prop :=
  earlier.latched = true → later.latched = true ∧ later.calls.all (!StreamCall.isSkip ·) = true

end Handle

/-- Calls that one rule admits are admitted by a weaker one. -/
lemma Leads.mono {σ : Type} {rule rule' : Option Nat → StreamCall σ → Prop}
    {place place' : Option Nat} {cs : List (StreamCall σ)} (h : Leads rule place cs place')
    (himp : ∀ place c, rule place c → rule' place c) : Leads rule' place cs place' := by
  induction h with
  | nil => exact .nil
  | cons head tail ih => exact .cons (himp _ _ head) ih

namespace Handle

section Guided

variable {ω σ : Type} {src : EntrySource ω σ} {h : Handle σ} {w : ω} {chunk : Nat}
  {place place' : Option Nat} {latched : Bool} {leg : Leg σ} {legs : List (Leg σ)}

/-- A handle that passes over gaps by reading does not skip. -/
lemma not_isSkip_of_leads {calls : List (StreamCall σ)} (hl : leg.latched = true)
    (h : Leads (leg.Permits src chunk) place calls place') :
    calls.all (!StreamCall.isSkip ·) = true := by
  induction h with
  | nil => rfl
  | cons head tail ih =>
    rw [List.all_cons, ih, Bool.and_true]
    obtain ⟨-, hpermitted⟩ := head
    cases hpermitted with
    | skip hway => rw [hl] at hway; cases hway
    | _ => rfl

/-- Every leg of a run that begins with passing over gaps by reading keeps to it. -/
lemma Guided.of_latched (hg : Guided src chunk place latched legs) (hl : latched = true) :
    ∀ leg ∈ legs, leg.latched = true ∧ leg.calls.all (!StreamCall.isSkip ·) = true := by
  induction hg with
  | nil =>
    intro leg hleg
    cases hleg
  | cons calls latch rest ih =>
    rw [hl, Bool.true_or] at latch
    intro leg hleg
    rcases List.mem_cons.mp hleg with rfl | hrest
    · exact ⟨latch, not_isSkip_of_leads latch calls⟩
    · exact ih latch leg hrest

/-- A guided run takes to passing over gaps by reading at most once. -/
lemma Guided.pairwise (hg : Guided src chunk place latched legs) : legs.Pairwise Leg.Latches := by
  induction hg with
  | nil => exact .nil
  | @cons place place' latched leg legs calls latch rest ih =>
    exact .cons (fun later hlater hleg => rest.of_latched hleg later hlater) ih

/-- Any requests: the run of a handle is guided. -/
lemma guided_legs (hc : h.chunk = chunk) (hpos : 0 < chunk) (qs : List Request) :
    Guided src chunk h.place h.skipsByReading (h.legs src qs w) := by
  induction qs generalizing h w with
  | nil => exact .nil
  | cons q qs ih =>
    subst hc
    rw [legs_cons src hpos]
    rcases Nat.eq_zero_or_pos q.wanted with hq | hq
    · obtain ⟨hnone, hplace, hway, hchunk⟩ := calls_of_wanted_zero src hq w (h := h)
      have hrest := ih (h := (h.answer src q w).2.1) (w := (h.answer src q w).2.2) hchunk
      rw [hplace] at hrest
      refine .cons ?_ ?_ hrest
      · rw [hnone]
        exact .nil
      · rw [hnone, hway]
        simp [gapStream]
    · have hcalls := readCalls_of_wanted_pos src hpos hq w
      exact .cons (hcalls.leads.mono fun _ _ hp => ⟨hq, hp⟩) hcalls.latch (ih hcalls.chunk_eq)

end Guided

/-- A handle is guided in passing over gaps, over any streams and whatever is asked of it.  It goes
over to reading only where there is a gap to pass over on a stream that cannot skip, and then for
good: no stream is asked to skip again, and before that no bytes are thrown away.  What it asks for
on the way is something, no more than is left of the gap and no more than its chunk at once, so that
no stream that keeps to what it is asked for is moved past the position. -/
theorem legs_guided {ω σ : Type} (src : EntrySource ω σ) (path : VirtualPath) (s : σ)
    (length skipBuffer : Nat) (qs : List Request) (w : ω) :
    Guided src (max skipBuffer 1) (some 0) false
        ((ofStream path s length skipBuffer).legs src qs w) ∧
      ((ofStream path s length skipBuffer).legs src qs w).Pairwise Leg.Latches := by
  have hg : Guided src (max skipBuffer 1) (some 0) false
      ((ofStream path s length skipBuffer).legs src qs w) :=
    guided_legs (h := ofStream path s length skipBuffer) rfl
      (Nat.lt_of_lt_of_le Nat.one_pos (Nat.le_max_right _ _)) qs
  exact ⟨hg, hg.pairwise⟩

end Handle

end ZipMount
