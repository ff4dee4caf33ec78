import ZipMount.Proofs.Handle.Service

/-!
# A handle is a cursor over the bytes of its entry

Seen from outside, a handle over forward-only streams is a cursor over a byte string that never
changes.  `Cursor.Step` says what such a cursor may answer: moving it only changes the position, a
read delivers the bytes that begin at the position and moves behind them, and a read that fails
leaves the position alone.  How many bytes a read delivers, and whether it fails, is up to the
streams; which bytes it delivers is not.

The main statement is `transcript_isRun`: whatever is asked of a handle and whichever calls of its
streams fail on the way, its answers are those of a run of the cursor.  It is an induction over the
requests with the invariant `Handle.Follows`; `Handle.Follows.answer_step` is its step.
-/

namespace ZipMount

namespace Handle

/-- What a host asks of a handle. -/
inductive Request
  | setPosition (position : Nat)
  | seek (s : Seek)
  | read (n : Nat)
  deriving DecidableEq, Repr

/-- What a handle answers. -/
inductive Answer
  | moved
  | sought (r : Except IoError Nat)
  | got (r : Except Error Bytes)

variable {ω σ : Type}

/-- The answer to a request, and the handle and the world after it. -/
def answer (src : EntrySource ω σ) (q : Request) (h : Handle σ) (w : ω) : Answer × Handle σ × ω :=
  match q with
  | .setPosition p => (.moved, h.setPosition p, w)
  | .seek s => (.sought (h.seek s).1, (h.seek s).2, w)
  | .read n => (.got (h.read src n w).1, (h.read src n w).2)

/-- The answers to requests made one after the other, each with the position after it. -/
def transcript (src : EntrySource ω σ) : List Request → Handle σ → ω → List (Answer × Nat)
  | [], _, _ => []
  | q :: qs, h, w =>
    let (a, h, w) := h.answer src q w
    (a, h.position) :: transcript src qs h w

/-- The handle and the world after requests made one after the other. -/
def after (src : EntrySource ω σ) : List Request → Handle σ → ω → Handle σ × ω
  | [], h, w => (h, w)
  | q :: qs, h, w => after src qs (h.answer src q w).2.1 (h.answer src q w).2.2

end Handle

/-! ## The cursor -/

namespace Cursor

open Handle (Request Answer)

/-- The place that a seek names, seen from a cursor at `p` over an entry of the given length. -/
def goal (length p : Nat) : Seek → Int
  | .fromStart q => q
  | .fromEnd offset => length + offset
  | .fromCurrent offset => p + offset

/-- What a cursor at `p` over the bytes of an entry may answer to a request, and where it is then.
An end of the bytes is shown only if `ends` says so, and reads fail only with errors in `fails`. -/
inductive Step (data : Bytes) (length : Nat) (ends : Prop) (fails : Error → Prop) (p : Nat) :
    Request → Answer → Nat → Prop
  | setPosition (q : Nat) : Step data length ends fails p (.setPosition q) .moved q
  | seek {s : Seek} {q : Nat} (h : goal length p s = q) (hq : q < 2 ^ 64) :
      Step data length ends fails p (.seek s) (.sought (.ok q)) q
  | seekRefused {s : Seek} (h : ¬ (0 ≤ goal length p s ∧ goal length p s < 2 ^ 64)) :
      Step data length ends fails p (.seek s) (.sought (.error .seekOutOfRange)) p
  | readNothing : Step data length ends fails p (.read 0) (.got (.ok [])) p
  | read {n : Nat} {got : Bytes} (hne : got ≠ []) (hlen : got.length ≤ n)
      (h : got <+: data.drop p) :
      Step data length ends fails p (.read n) (.got (.ok got)) (p + got.length)
  | readEnd {n : Nat} (hn : 0 < n) (hends : ends) (h : data.length ≤ p) :
      Step data length ends fails p (.read n) (.got (.ok [])) p
  | readFails {n : Nat} {e : Error} (hn : 0 < n) (h : fails e) :
      Step data length ends fails p (.read n) (.got (.error e)) p

/-- What a cursor at `p` may answer to requests made one after the other; each answer comes with the
position after it. -/
inductive Run (data : Bytes) (length : Nat) (ends : Prop) (fails : Error → Prop) :
    Nat → List Request → List (Answer × Nat) → Prop
  | nil (p : Nat) : Run data length ends fails p [] []
  | cons {p p' : Nat} {q : Request} {qs : List Request} {a : Answer} {as : List (Answer × Nat)}
      (head : Step data length ends fails p q a p') (tail : Run data length ends fails p' qs as) :
      Run data length ends fails p (q :: qs) ((a, p') :: as)

/-- A read that succeeds delivers bytes from the position on, and none only at an end that is
shown. -/
lemma Step.of_read_ok {data : Bytes} {length : Nat} {ends : Prop} {fails : Error → Prop}
    {p q n : Nat} {got : Bytes} (h : Step data length ends fails p (.read n) (.got (.ok got)) q)
    (hn : 0 < n) : got <+: data.drop p ∧ (got = [] → ends) := by
  cases h with
  | readNothing => omega
  | read hne hlen hslice => exact ⟨hslice, fun hnil => absurd hnil hne⟩
  | readEnd hn hends hover => exact ⟨List.nil_prefix, fun _ => hends⟩

end Cursor

/-! ## The handle refines the cursor -/

namespace Handle

variable {ω σ : Type} {src : EntrySource ω σ} {path : VirtualPath} {v : Service ω σ}
  {length : Nat} {h : Handle σ} {w : ω}

/-- A seek leads to the place it names if there can be a position there, and nowhere else. -/
lemma Follows.seek_step (hf : h.Follows v path length) (s : Seek) (fails : Error → Prop) :
    Cursor.Step v.data length v.ends fails h.position (.seek s) (.sought (h.seek s).1)
      (h.seek s).2.position ∧ (h.seek s).2.Follows v path length := by
  have hgoal : h.target s = Cursor.goal length h.position s := by
    rw [← hf.length_eq]
    cases s <;> rfl
  unfold seek
  rw [hgoal]
  by_cases hrange : 0 ≤ Cursor.goal length h.position s ∧
      Cursor.goal length h.position s < positionBound
  · rw [if_pos hrange]
    obtain ⟨h0, hlt⟩ := hrange
    have hcast : Cursor.goal length h.position s = (Cursor.goal length h.position s).toNat :=
      (Int.toNat_of_nonneg h0).symm
    refine ⟨.seek hcast ?_, hf.setPosition _⟩
    rw [positionBound] at hlt
    omega
  · rw [if_neg hrange]
    exact ⟨.seekRefused hrange, hf⟩

/-- A read delivers the bytes at the position, or fails and leaves the position alone. -/
lemma Follows.read_step (hv : src.Keeps path v) (hf : h.Follows v path length) (hw : v.world w)
    (n : Nat) :
    Cursor.Step v.data length v.ends (src.Fails path) h.position (.read n)
      (.got (h.read src n w).1) (h.read src n w).2.1.position ∧
      (h.read src n w).2.1.Follows v path length ∧ v.world (h.read src n w).2.2 := by
  unfold read
  split
  next hn =>
    subst hn
    exact ⟨.readNothing, hf, hw⟩
  next hn =>
    have hpos : 0 < n := Nat.pos_of_ne_zero hn
    have hx := sync_follows hv hf hw
    split
    next e h₁ w₁ heq =>
      rw [heq] at hx
      have hstay : h₁.position = h.position := hx.position_eq
      rw [hstay]
      exact ⟨.readFails hpos (hx.error e rfl), hx.follows, hx.world⟩
    next h₁ w₁ heq =>
      rw [heq] at hx
      have hstay : h₁.position = h.position := hx.position_eq
      obtain ⟨hends, hlen⟩ := hx.none rfl
      rw [hstay]
      exact ⟨.readEnd hpos hends hlen, hx.follows, hx.world⟩
    next s h₁ w₁ heq =>
      rw [heq] at hx
      have hstay : h₁.position = h.position := hx.position_eq
      obtain ⟨hs, hat⟩ := hx.some s rfl
      split
      next e s₂ w₂ heq₂ =>
        have hback : h₁.discard.position = h.position := hstay
        rw [hback]
        exact ⟨.readFails hpos (.reading heq₂), hx.follows.discard,
          hv.world_read heq₂ hx.world⟩
      next got s₂ w₂ heq₂ =>
        obtain ⟨hlen, hslice, hend, hs₂⟩ := hv.read heq₂ hx.world hs hpos
        have hhold : { h₁ with
            stream := some s₂
            streamPosition := h₁.streamPosition + got.length }.Follows v path length :=
          hx.follows.hold (by rw [hat]; exact hs₂)
        refine ⟨?_, hhold.setPosition (h₁.position + got.length), hv.world_read heq₂ hx.world⟩
        dsimp only
        rw [hstay]
        cases got with
        | nil =>
          obtain ⟨hends, hover⟩ := hend rfl
          exact .readEnd hpos hends hover
        | cons b rest => exact .read (List.cons_ne_nil b rest) hlen hslice

/-- One request: the handle answers as the cursor at its position may, and follows its service
after it. -/
lemma Follows.answer_step (hv : src.Keeps path v) (hf : h.Follows v path length) (hw : v.world w)
    (q : Request) :
    Cursor.Step v.data length v.ends (src.Fails path) h.position q (h.answer src q w).1
      (h.answer src q w).2.1.position ∧
      (h.answer src q w).2.1.Follows v path length ∧ v.world (h.answer src q w).2.2 := by
  cases q with
  | setPosition p => exact ⟨.setPosition p, hf.setPosition p, hw⟩
  | seek s =>
    obtain ⟨hstep, hf'⟩ := hf.seek_step s (src.Fails path)
    exact ⟨hstep, hf', hw⟩
  | read n => exact hf.read_step hv hw n

/-- Any requests: the handle answers as the cursor at its position may. -/
lemma Follows.transcript_run (hv : src.Keeps path v) (hf : h.Follows v path length)
    (hw : v.world w) (qs : List Request) :
    Cursor.Run v.data length v.ends (src.Fails path) h.position qs (h.transcript src qs w) := by
  induction qs generalizing h w with
  | nil => exact .nil h.position
  | cons q qs ih =>
    obtain ⟨hstep, hf', hw'⟩ := hf.answer_step hv hw q
    exact .cons hstep (ih hf' hw')

/-- The invariant holds after any requests. -/
lemma Follows.after (hv : src.Keeps path v) (hf : h.Follows v path length) (hw : v.world w)
    (qs : List Request) :
    (h.after src qs w).1.Follows v path length ∧ v.world (h.after src qs w).2 := by
  induction qs generalizing h w with
  | nil => exact ⟨hf, hw⟩
  | cons q qs ih =>
    obtain ⟨-, hf', hw'⟩ := hf.answer_step hv hw q
    exact ih hf' hw'

/-- A handle is a cursor over the bytes of its entry, whatever is asked of it and whichever calls of
its streams fail: each read that succeeds delivers the bytes at the position and moves behind them,
none only at the end; each read that fails leaves the position, so the next one delivers the same
bytes; and seeks are exact. -/
theorem transcript_isRun {src : EntrySource ω σ} {path : VirtualPath} {data : Bytes}
    {world : ω → Prop} {consumed : σ → Nat → Prop}
    (hv : src.Keeps path ⟨data, True, world, consumed⟩) {s : σ} {w : ω} (hs : consumed s 0)
    (hw : world w) (length skipBuffer : Nat) (qs : List Request) :
    Cursor.Run data length True (src.Fails path) 0 qs
      ((ofStream path s length skipBuffer).transcript src qs w) := by
  have hf : (ofStream path s length skipBuffer).Follows ⟨data, True, world, consumed⟩ path length :=
    follows_ofStream hs path length skipBuffer
  exact hf.transcript_run hv hw qs

/-- Streams without bulk skip that fail once while a gap is read and once while they are opened. -/
def faltering : Script where
  data := [10, 11, 12, 13, 14]
  bulkSkip := false
  missingSkip := true
  maxRead := some 2
  maxSkip := none
  mishaps := [⟨.reading, 2, .interrupted⟩, ⟨.opening, 1, .timedOut⟩]

/-- After both failures the bytes at the position are delivered as if nothing had happened. -/
theorem faltering_isRun :
    Cursor.Run [10, 11, 12, 13, 14] 5 True ((Rehearsal.source faltering).Fails ⟨"zip2:m!a"⟩) 0
      [.setPosition 3, .read 2, .read 2, .read 2, .seek (.fromEnd (-6)), .seek (.fromCurrent (-4)),
        .read 4]
      [(.moved, 3), (.got (.error (.io (.described .interrupted "injected"))), 3),
        (.got (.error (.io (.described .timedOut "injected"))), 3), (.got (.ok [13, 14]), 5),
        (.sought (.error .seekOutOfRange), 5), (.sought (.ok 1), 1), (.got (.ok [11, 12]), 3)] := by
  have hkeeps : (Rehearsal.source faltering).Keeps ⟨"zip2:m!a"⟩ (Rehearsal.service faltering) :=
    Rehearsal.source_keeps (by decide) (by decide) ⟨"zip2:m!a"⟩
  have hstart : (Rehearsal.service faltering).consumed faltering.data 0 :=
    ⟨rfl, Nat.zero_le _⟩
  refine Eq.mp (congrArg (Cursor.Run faltering.data 5 True _ 0 _) ?_)
    (transcript_isRun (w := Rehearsal.begin faltering) hkeeps hstart rfl 5 4 _)
  cbv

end Handle

end ZipMount
