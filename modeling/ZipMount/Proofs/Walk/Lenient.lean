import ZipMount.Proofs.Walk.Tour

/-!
# Verifying only adds errors

A walk that verifies does one thing more than a walk that does not.  At the end of a payload it
compares what it has delivered with what is recorded, and if they differ it says so.  Everything else
is done without a look at whether the walk verifies: where it is, what is pending, how an entry is
passed over and where the next header stands.

`Walk.lenient` is the walk that does not verify and is otherwise the same.  One request leads the walk
and the lenient one to the same answer and to walks that are again the same but for verifying, unless
the walk reports that a payload is not as recorded (`answer_lenient`).  So the answers to any requests
agree up to the first such report, and to the last one if there is none
(`transcript_agreeUntilMismatch`).
-/

namespace ZipMount

/-! ## Reports of a mismatch -/

/-- The fault says that a payload is not as recorded: it has another length or another checksum. -/
def Fault.isMismatch : Fault → Bool
  | .invalidArchive (.length ..) | .checksumMismatch .. => true
  | _ => false

/-- A mismatch that surfaced while reading. -/
def IoError.isMismatch : IoError → Bool
  | .fault f => f.isMismatch
  | _ => false

/-- A mismatch, reported by the file system or by a stream. -/
def Error.isMismatch (e : Error) : Bool :=
  e.toIo.isMismatch

section Check

variable {e : Entry} {crc : UInt32} {held : Nat} {f : Fault}

/-- What comparing the checksum alone complains of is a mismatch. -/
lemma Entry.isMismatch_of_check_unsized (hsize : e.declaredSize = none)
    (h : e.check crc held = .error f) : f.isMismatch = true := by
  rw [check, hsize] at h
  dsimp only at h
  split at h
  next =>
    split at h
    next =>
      obtain rfl := Except.error.inj h
      rfl
    next => cases h
  next => cases h

/-- What comparing a payload with its record complains of is a mismatch. -/
lemma Entry.isMismatch_of_check (h : e.check crc held = .error f) : f.isMismatch = true := by
  rcases hsize : e.declaredSize with _ | declared
  · exact isMismatch_of_check_unsized hsize h
  · rw [check, hsize] at h
    dsimp only at h
    split at h
    next =>
      obtain rfl := Except.error.inj h
      rfl
    next =>
      -- The length is as recorded, and what is left is what is done without a length.
      have hrest : ({ e with declaredSize := none } : Entry).check crc held = .error f := h
      exact isMismatch_of_check_unsized rfl hrest

end Check

namespace Walk

/-- The answer reports that a payload is not as recorded. -/
def Answer.reportsMismatch : Answer → Bool
  | .entry (.error e) | .closed (.error e) => e.isMismatch
  | .got (.error e) | .passed (.error e) => e.isMismatch
  | _ => false

/-- The answers are the same up to the first one of the strict walk that reports a mismatch, and all
the same if none does. -/
def AgreeUntilMismatch (strict lenient : List Answer) : Prop :=
  ∃ common rest rest', strict = common ++ rest ∧ lenient = common ++ rest' ∧
    (∀ a ∈ common, a.reportsMismatch = false) ∧
    (rest = [] ∧ rest' = [] ∨ ∃ a later, rest = a :: later ∧ a.reportsMismatch = true)

/-- One more answer in front that is the same and reports no mismatch. -/
lemma AgreeUntilMismatch.cons {a : Answer} {strict lenient : List Answer}
    (ha : a.reportsMismatch = false) (h : AgreeUntilMismatch strict lenient) :
    AgreeUntilMismatch (a :: strict) (a :: lenient) := by
  obtain ⟨common, rest, rest', rfl, rfl, hcommon, hrest⟩ := h
  exact ⟨a :: common, rest, rest', rfl, rfl, List.forall_mem_cons.mpr ⟨ha, hcommon⟩, hrest⟩

/-- Behind a report of a mismatch, nothing is said of the answers. -/
lemma AgreeUntilMismatch.mismatch {a : Answer} (ha : a.reportsMismatch = true)
    (strict lenient : List Answer) : AgreeUntilMismatch (a :: strict) lenient :=
  ⟨[], a :: strict, lenient, rfl, rfl, fun _ hb => absurd hb List.not_mem_nil,
    .inr ⟨a, strict, rfl, ha⟩⟩

/-- The walk that does not verify, and is the same otherwise. -/
def lenient (w : Walk) : Walk := { w with regime := ⟨false, w.slicing⟩ }

/-- A conclusion that complains of no mismatch is drawn without verifying. -/
lemma conclusion_lenient {verify : Bool} {c : Current} {rest : Bytes}
    (h : ∀ e, conclusion verify c rest = .error e → e.isMismatch = false) :
    conclusion false c rest = conclusion verify c rest := by
  unfold conclusion at h ⊢
  generalize settle c.entry rest = settled at h ⊢
  rcases settled with e | ⟨e, more⟩
  · rfl
  · rcases verify with _ | _
    · rfl
    · rcases hcheck : e.check (Checksum.finish c.register) c.produced with f | _
      · have hnot : f.isMismatch = false := h (.fault f) (by simp [hcheck])
        rw [Entry.isMismatch_of_check hcheck] at hnot
        cases hnot
      · simp [hcheck]

/-- The same conclusion leads to the same outcome. -/
lemma concluded_lenient (regime : Regime) (r : Except IoError Bytes) :
    concluded ⟨false, regime.slicing⟩ r =
      ((concluded regime r).1, (concluded regime r).2.lenient) := by
  rcases r with e | rest <;> rfl

/-- An end of a payload that shows no mismatch is the end without verifying. -/
lemma finish_lenient {w : Walk} (h : ∀ e, w.finish.1 = .error e → e.isMismatch = false) :
    w.lenient.finish = (w.finish.1, w.finish.2.lenient) := by
  rcases hrest : w.place.rest? with _ | rest
  · simp [finish, lenient, hrest]
  · rcases hc : w.current with _ | c
    · simp [finish, lenient, hrest, hc]
    · have hsame : w.lenient.finish =
          concluded ⟨false, w.slicing⟩ (conclusion false c rest) :=
        finish_eq (w := w.lenient) hc hrest
      rw [finish_eq hc hrest] at h ⊢
      rw [hsame, conclusion_lenient, concluded_lenient w.regime]
      intro e he
      apply h e
      rw [he]
      rfl

section Lenient

variable [LawfulInflater] {w : Walk} {c : Current}

/-- A payload is begun without verifying. -/
lemma enter_lenient (w : Walk) : w.lenient.enter = w.enter.lenient := by
  unfold enter
  rcases hc : w.current with _ | c
  · simp [lenient, hc]
  · rcases hr : c.entry.refusal with _ | feature
    · rcases hp : w.place.enter w.slicing c.entry with e | p <;> simp [lenient, hc, hr, hp]
    · simp [lenient, hc, hr]

/-- What is pending does not depend on verifying. -/
lemma pending_lenient (w : Walk) : w.lenient.pending = w.pending := by
  unfold pending
  rw [enter_lenient]
  rfl

/-- Delivering pending bytes does not depend on verifying. -/
lemma pass_lenient (k : Nat) (w : Walk) : w.lenient.pass k = (w.pass k).lenient := by
  unfold pass
  rw [enter_lenient, pending_lenient]
  rfl

/-- A read that shows no mismatch is the read without verifying. -/
lemma read_lenient {n : Nat} (h : ∀ e, (w.read n).1 = .error e → e.isMismatch = false) :
    w.lenient.read n = ((w.read n).1, (w.read n).2.lenient) := by
  rcases hc : w.current with _ | c
  · simp [read, lenient, hc]
  · by_cases hn : n = 0
    · subst hn
      rw [read_zero, read_zero]
    · rcases hr : c.entry.refusal with _ | feature
      · rcases hp : w.place.enter w.slicing c.entry with e | p
        · simp [read, lenient, hc, hn, hr, hp]
        · have hpos := Nat.pos_of_ne_zero hn
          rw [read_of_ok hc hr hp hpos] at h ⊢
          rw [read_of_ok (w := w.lenient) hc hr hp hpos]
          rcases hd : p.deliver n with e | ⟨got, q⟩
          · rfl
          · rcases got with _ | ⟨b, got⟩
            · rw [hd] at h
              exact finish_lenient (w := { w with place := q }) h
            · rfl
      · simp [read, lenient, hc, hn, hr]

/-- The ending of a payload that does not fail by a mismatch is that without verifying. -/
lemma ending_lenient (h : ∀ e, w.failure = some e → e.isMismatch = false) :
    w.lenient.ending = (w.ending.1, w.ending.2.lenient) := by
  unfold ending
  rw [pending_lenient, pass_lenient]
  apply read_lenient
  intro e he
  apply h e
  rw [failure, ending, he]

/-- The failure of a payload is that without verifying, if it is no mismatch. -/
lemma failure_lenient (h : ∀ e, w.failure = some e → e.isMismatch = false) :
    w.lenient.failure = w.failure := by
  rw [failure, ending_lenient h, failure]

/-- Passing over bytes, without a mismatch. -/
lemma skip_lenient {n : Nat} (h : ∀ e, (w.skip n).1 = .error e → e.isMismatch = false) :
    w.lenient.skip n = ((w.skip n).1, (w.skip n).2.lenient) := by
  by_cases hn : n = 0
  · subst hn
    rw [skip_zero, skip_zero]
  · by_cases hle : n ≤ w.pending.length
    · have hle' : n ≤ w.lenient.pending.length := by rwa [pending_lenient]
      have hpos := Nat.pos_of_ne_zero hn
      rw [skip_of_le hpos hle, skip_of_le hpos hle', pass_lenient]
    · have hlt := Nat.lt_of_not_le hle
      have hlt' : w.lenient.pending.length < n := by rwa [pending_lenient]
      rw [skip_of_lt hlt] at h ⊢
      have hfail : ∀ e, w.failure = some e → e.isMismatch = false := by
        intro e he
        apply h e
        rw [he]
      rw [skip_of_lt hlt', failure_lenient hfail, ending_lenient hfail, pending_lenient]
      rcases w.failure with _ | e <;> rfl

/-- Leaving an entry, without a mismatch. -/
lemma close_lenient (h : ∀ e, w.close.1 = .error e → e.isMismatch = false) :
    w.lenient.close = (w.close.1, w.close.2.lenient) := by
  rcases hc : w.current with _ | c
  · rw [close_of_current_none hc, close_of_current_none (w := w.lenient) hc]
  · by_cases hover : w.passesOver = true
    · obtain ⟨c, size, rest, hc, hsize, hzero, hplace⟩ := exists_of_passesOver hover
      simp only [close, lenient, hc, hsize, hzero, hplace]
      split <;> rfl
    · have hover : w.passesOver = false := Bool.eq_false_iff.mpr hover
      rw [close_of_not_passesOver hc hover] at h ⊢
      rw [close_of_not_passesOver (w := w.lenient) hc hover]
      rcases hr : c.entry.refusal with _ | feature
      · rw [hr] at h
        have hfail : ∀ e, w.failure = some e → e.isMismatch = false := by
          intro e he
          rw [he] at h
          exact h (.io e) rfl
        rw [failure_lenient hfail, ending_lenient hfail]
        rcases w.failure with _ | e <;> rfl
      · rfl

/-- Moving on, without a mismatch. -/
lemma next_lenient (h : ∀ e, w.next.1 = .error e → e.isMismatch = false) :
    w.lenient.next = (w.next.1, w.next.2.lenient) := by
  have hclose : ∀ e, w.close.1 = .error e → e.isMismatch = false := by
    intro e he
    apply h e
    rw [next]
    rcases hw : w.close with ⟨r, v⟩
    rw [hw] at he
    obtain rfl : r = .error e := he
    rfl
  rw [next, close_lenient hclose, next]
  rcases w.close with ⟨e | _, v⟩
  · rfl
  · dsimp only [lenient]
    split
    next => rfl
    next => split <;> rfl
    next => rfl

end Lenient

/-! ## Runs -/

/-- One request whose answer reports no mismatch has the same answer without verifying. -/
lemma answer_lenient [LawfulInflater] {w : Walk} {q : Request}
    (h : (w.answer q).1.reportsMismatch = false) :
    w.lenient.answer q = ((w.answer q).1, (w.answer q).2.lenient) := by
  rcases q with _ | _ | n | n
  · have hnext := next_lenient (w := w) fun e he => by rwa [answer, he] at h
    rw [answer, hnext, answer]
  · have hclose := close_lenient (w := w) fun e he => by rwa [answer, he] at h
    rw [answer, hclose, answer]
  · have hread := read_lenient (w := w) (n := n) fun e he => by rwa [answer, he] at h
    rw [answer, hread, answer]
  · have hskip := skip_lenient (w := w) (n := n) fun e he => by rwa [answer, he] at h
    rw [answer, hskip, answer]

/-- Of two walks through any container, one that verifies and one that does not, the same things are
asked.  Their answers are the same up to the first one by which the walk that verifies reports that a
payload has another checksum or another length than recorded; and if it reports none, all their answers
are the same. -/
theorem transcript_agreeUntilMismatch [LawfulInflater] (container : Bytes) (s : Slicing)
    (qs : List Request) :
    AgreeUntilMismatch ((start container ⟨true, s⟩).transcript qs)
      ((start container ⟨false, s⟩).transcript qs) := by
  have hlenient : start container ⟨false, s⟩ = (start container ⟨true, s⟩).lenient := rfl
  rw [hlenient]
  generalize start container ⟨true, s⟩ = w
  induction qs generalizing w with
  | nil => exact ⟨[], [], [], rfl, rfl, fun _ ha => absurd ha List.not_mem_nil, .inl ⟨rfl, rfl⟩⟩
  | cons q qs ih =>
    rw [transcript, transcript]
    rcases hreports : (w.answer q).1.reportsMismatch with _ | _
    · rw [answer_lenient hreports]
      exact (ih (w.answer q).2).cons hreports
    · exact .mismatch hreports _ _

end Walk

end ZipMount
