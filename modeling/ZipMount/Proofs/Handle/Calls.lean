import ZipMount.Proofs.Handle.Cursor

/-!
# The calls that a handle makes

A handle is answerable for what it asks of its streams, not only for what it answers.  To see its
calls, `EntrySource.recorded` keeps a record of them beside the world; the answers and the world are
as they were (`Handle.answer_recorded`).  `Handle.legs` is a run of a handle with the calls of each
request.

A record can be read without the handle.  `StreamCall.placeAfter` follows the stream in use from
call to call by what the calls report, and `Leads` says that every call is one that a rule admits at
the place where the stream is then.  What one read does is said once, by `Handle.ReadCalls`: which
calls it makes at which places, how often it opens the entry, and when it takes to passing over gaps
by reading.
-/

namespace ZipMount

/-- A call for a stream or on one, and what came of it. -/
inductive StreamCall (σ : Type)
  | opening (r : Except Error σ)
  | skip (s : σ) (asked : Nat) (r : Except IoError Nat)
  | read (s : σ) (asked : Nat) (r : Except IoError Bytes)

variable {ω σ : Type}

namespace StreamCall

/-- The number of bytes that the stream in use has handed over after a call, if it had handed over
the given number before.  It is not known after a failure. -/
def placeAfter (place : Option Nat) : StreamCall σ → Option Nat
  | opening (.ok _) => some 0
  | skip _ _ (.ok k) => place.map (· + k)
  | read _ _ (.ok got) => place.map (· + got.length)
  | _ => none

/-- The call opens the entry. -/
def isOpening : StreamCall σ → Bool
  | opening _ => true
  | _ => false

/-- The stream that the call is made on, unless it opens one. -/
def stream? : StreamCall σ → Option σ
  | opening _ => none
  | skip s _ _ | read s _ _ => some s

/-- The call passes over bytes in bulk. -/
def isSkip : StreamCall σ → Bool
  | skip _ _ _ => true
  | _ => false

end StreamCall

/-- Each call is one that the rule admits at the place where it is made, and the last one leaves the
stream at the second place. -/
inductive Leads (rule : Option Nat → StreamCall σ → Prop) :
    Option Nat → List (StreamCall σ) → Option Nat → Prop
  | nil {place : Option Nat} : Leads rule place [] place
  | cons {place place' : Option Nat} {c : StreamCall σ} {cs : List (StreamCall σ)}
      (head : rule place c) (tail : Leads rule (c.placeAfter place) cs place') :
      Leads rule place (c :: cs) place'

namespace Leads

variable {rule : Option Nat → StreamCall σ → Prop} {place place' place'' : Option Nat}
  {cs ds : List (StreamCall σ)}

/-- A single admitted call leads to the place behind it. -/
lemma single {c : StreamCall σ} (h : rule place c) : Leads rule place [c] (c.placeAfter place) :=
  .cons h .nil

/-- Calls after one another lead from the first place to the last one. -/
lemma append (h : Leads rule place cs place') (h' : Leads rule place' ds place'') :
    Leads rule place (cs ++ ds) place'' := by
  induction h with
  | nil => exact h'
  | cons head tail ih => exact .cons head (ih h')

end Leads

namespace EntrySource

/-- The same streams, with a record of the calls beside the world. -/
def recorded (src : EntrySource ω σ) : EntrySource (ω × List (StreamCall σ)) σ where
  openEntry path w :=
    let (r, w') := src.openEntry path w.1
    (r, w', w.2 ++ [.opening r])
  read n s w :=
    let (r, s', w') := src.read n s w.1
    (r, s', w', w.2 ++ [.read s n r])
  supportsSkip := src.supportsSkip
  skip n s w :=
    let (r, s', w') := src.skip n s w.1
    (r, s', w', w.2 ++ [.skip s n r])

/-- A read is recorded behind the calls before it. -/
lemma recorded_read {src : EntrySource ω σ} {n : Nat} {s s' : σ} {w w' : ω}
    {r : Except IoError Bytes} (h : src.read n s w = (r, s', w')) (log : List (StreamCall σ)) :
    src.recorded.read n s (w, log) = (r, s', w', log ++ [.read s n r]) := by
  simp only [recorded, h]

/-- A skip is recorded behind the calls before it. -/
lemma recorded_skip {src : EntrySource ω σ} {n : Nat} {s s' : σ} {w w' : ω}
    {r : Except IoError Nat} (h : src.skip n s w = (r, s', w')) (log : List (StreamCall σ)) :
    src.recorded.skip n s (w, log) = (r, s', w', log ++ [.skip s n r]) := by
  simp only [recorded, h]

/-- No call hands over more than it is asked for. -/
structure Bounded (src : EntrySource ω σ) : Prop where
  read : ∀ {n s w got s' w'}, src.read n s w = (.ok got, s', w') → got.length ≤ n
  skip : ∀ {n s w k s' w'}, src.skip n s w = (.ok k, s', w') → k ≤ n

end EntrySource

namespace Handle

/-- The number of bytes that the stream of a handle has handed over, if there is a stream. -/
def place (h : Handle σ) : Option Nat :=
  h.stream.map fun _ => h.streamPosition

/-- The calls that a read of `n` bytes at position `p` may make, by the place where the stream is.
Behind an opening, the stream is brought to the position, by bulk skips or else by reads of at most
`chunk` bytes, and never asked for more than is left of the gap; at the position, the bytes are read
that are wanted. -/
inductive Permitted (src : EntrySource ω σ) (p n chunk : Nat) (byReading : Bool) :
    Option Nat → StreamCall σ → Prop
  | opening {place : Option Nat} {r : Except Error σ} :
      Permitted src p n chunk byReading place (.opening r)
  | skip {k a : Nat} {s : σ} {r : Except IoError Nat} (hway : byReading = false) (hpos : 0 < a)
      (hgap : k + a ≤ p) (hland : src.Bounded → ∀ m, r = .ok m → k + m ≤ p) :
      Permitted src p n chunk byReading (some k) (.skip s a r)
  | discard {k a : Nat} {s : σ} {r : Except IoError Bytes} (hway : byReading = true) (hpos : 0 < a)
      (hgap : k + a ≤ p) (hchunk : a ≤ chunk)
      (hland : src.Bounded → ∀ got, r = .ok got → k + got.length ≤ p) :
      Permitted src p n chunk byReading (some k) (.read s a r)
  | deliver {s : σ} {r : Except IoError Bytes} :
      Permitted src p n chunk byReading (some p) (.read s n r)

/-- The stream on which calls begin to pass over a gap before position `p`, if they do. -/
def gapStream (p : Nat) : Option Nat → List (StreamCall σ) → Option σ
  | _, [] => none
  | place, .opening r :: cs => gapStream p (StreamCall.placeAfter place (.opening r)) cs
  | place, .skip s _ _ :: _ => if place.any (· < p) then some s else none
  | place, .read s _ _ :: _ => if place.any (· < p) then some s else none

/-- What a read of `n` bytes, by which a handle becomes another, asks of its streams. -/
structure ReadCalls (src : EntrySource ω σ) (n : Nat) (h h' : Handle σ)
    (calls : List (StreamCall σ)) : Prop where
  leads : Leads (Permitted src h.position n h.chunk h'.skipsByReading) h.place calls h'.place
  openings : calls.countP StreamCall.isOpening = if h.place.any (· ≤ h.position) then 0 else 1
  latch : h'.skipsByReading =
    (h.skipsByReading || (gapStream h.position h.place calls).any fun s => !src.supportsSkip s)
  chunk_eq : h'.chunk = h.chunk

/-- A handle that has a stream at a place counts it so. -/
lemma streamPosition_of_place {h : Handle σ} {k : Nat} (hp : h.place = some k) :
    h.streamPosition = k := by
  obtain ⟨s, -, hk⟩ := Option.map_eq_some_iff.mp hp
  exact hk

/-- An outcome with a record of calls beside the world. -/
def beside {α β : Type} (calls : List (StreamCall σ)) (x : α × β × ω) :
    α × β × ω × List (StreamCall σ) :=
  (x.1, x.2.1, x.2.2, calls)

section Steps

variable {src : EntrySource ω σ} {h : Handle σ} {p n chunk : Nat} {s : σ}
  {calls log : List (StreamCall σ)} {w : ω}

/-! ## Passing over a gap -/

/-- The calls by which a stream at `place` is moved over what is left of a gap that begins at
`base`. -/
structure Passing (src : EntrySource ω σ) (p n chunk : Nat) (byReading : Bool) (base place : Nat)
    (s : σ) (r : Except IoError Nat) (calls : List (StreamCall σ)) : Prop where
  leads : Leads (Permitted src p n chunk byReading) (some place) calls (r.toOption.map (base + ·))
  silent : calls.countP StreamCall.isOpening = 0
  first : gapStream p (some place) calls = if place < p then some s else none

/-- A call on a stream begins to pass over a gap if there is one. -/
lemma gapStream_of_stream? {c : StreamCall σ} (hc : c.stream? = some s) (place : Nat)
    (cs : List (StreamCall σ)) :
    gapStream p (some place) (c :: cs) = if place < p then some s else none := by
  cases c with
  | opening r => cases hc
  | skip t a r =>
    cases hc
    simp [gapStream]
  | read t a r =>
    cases hc
    simp [gapStream]

/-- A call on a stream is no opening. -/
lemma isOpening_of_stream? {c : StreamCall σ} (hc : c.stream? = some s) : c.isOpening = false := by
  cases c with
  | opening r => cases hc
  | skip t a r => rfl
  | read t a r => rfl

/-- An admitted call on the stream is the last one by which it is moved. -/
lemma Passing.single {byReading : Bool} {base place : Nat} {r : Except IoError Nat}
    {c : StreamCall σ} (hc : c.stream? = some s)
    (hpermitted : Permitted src p n chunk byReading (some place) c)
    (hend : c.placeAfter (some place) = r.toOption.map (base + ·)) :
    Passing src p n chunk byReading base place s r [c] where
  leads := hend ▸ .single hpermitted
  silent := by simp [isOpening_of_stream? hc]
  first := gapStream_of_stream? hc place []

/-- Behind an admitted call on the stream, it is moved further. -/
lemma Passing.cons {byReading : Bool} {base place place' : Nat} {t : σ} {r : Except IoError Nat}
    {c : StreamCall σ} (hc : c.stream? = some s)
    (hpermitted : Permitted src p n chunk byReading (some place) c)
    (hplace : c.placeAfter (some place) = some place')
    (hrest : Passing src p n chunk byReading base place' t r calls) :
    Passing src p n chunk byReading base place s r (c :: calls) where
  leads := .cons hpermitted (hplace ▸ hrest.leads)
  silent := by simp [isOpening_of_stream? hc, hrest.silent]
  first := gapStream_of_stream? hc place calls

/-- Where no gap is left, the stream is not moved. -/
lemma Passing.nil {byReading : Bool} {base done : Nat} (hle : p ≤ base + done) :
    Passing src p n chunk byReading base (base + done) s (.ok done) [] where
  leads := .nil
  silent := rfl
  first := by rw [gapStream, if_neg (Nat.not_lt.mpr hle)]

/-- Bulk skips pass over a gap. -/
lemma skipInBulk_recorded {base gap : Nat} (hp : base + gap = p) (done : Nat)
    (log : List (StreamCall σ)) :
    ∃ calls, skipInBulk src.recorded gap done s (w, log) =
        beside (log ++ calls) (skipInBulk src gap done s w) ∧
      Passing src p n chunk false base (base + done) s (skipInBulk src gap done s w).1 calls := by
  fun_induction skipInBulk src gap done s w generalizing log with
  | case1 done s w hlt e s' w' heq =>
    refine ⟨[.skip s (gap - done) (.error e)], ?_, .single rfl ?_ rfl⟩
    · rw [skipInBulk, if_pos hlt, EntrySource.recorded_skip heq]
      rfl
    · exact .skip rfl (by omega) (by omega) fun _ m hm => by cases hm
  | case2 done s w hlt s' w' heq =>
    refine ⟨[.skip s (gap - done) (.ok 0)], ?_, .single rfl ?_ rfl⟩
    · rw [skipInBulk, if_pos hlt, EntrySource.recorded_skip heq]
      rfl
    · exact .skip rfl (by omega) (by omega) fun _ m hm => by cases hm; omega
  | case3 done s w hlt m s' w' heq ih =>
    obtain ⟨calls, hrest, hpassing⟩ := ih (log ++ [.skip s (gap - done) (.ok (m + 1))])
    have hplace : StreamCall.placeAfter (some (base + done)) (.skip s (gap - done) (.ok (m + 1))) =
        some (base + (done + (m + 1))) := congrArg some (Nat.add_assoc _ _ _)
    refine ⟨.skip s (gap - done) (.ok (m + 1)) :: calls, ?_, .cons rfl ?_ hplace hpassing⟩
    · rw [skipInBulk, if_pos hlt, EntrySource.recorded_skip heq]
      dsimp only
      rw [hrest, List.append_assoc]
      rfl
    · refine .skip rfl (by omega) (by omega) fun hb k hk => ?_
      cases hk
      have hle := hb.skip heq
      omega
  | case4 done s w hge =>
    refine ⟨[], ?_, .nil (by omega)⟩
    rw [skipInBulk, if_neg hge, List.append_nil]
    rfl

/-- Reads whose bytes are thrown away pass over a gap. -/
lemma skipByReading_recorded {base gap : Nat} (hc : 0 < chunk) (hp : base + gap = p)
    (done : Nat) (log : List (StreamCall σ)) :
    ∃ calls, skipByReading src.recorded chunk gap done s (w, log) =
        beside (log ++ calls) (skipByReading src chunk gap done s w) ∧
      Passing src p n chunk true base (base + done) s (skipByReading src chunk gap done s w).1
        calls := by
  fun_induction skipByReading src chunk gap done s w generalizing log with
  | case1 done s w hlt e s' w' heq =>
    refine ⟨[.read s (min (gap - done) chunk) (.error e)], ?_, .single rfl ?_ rfl⟩
    · rw [skipByReading, if_pos hlt, EntrySource.recorded_read heq]
      rfl
    · exact .discard rfl (by omega) (by omega) (by omega) fun _ m hm => by cases hm
  | case2 done s w hlt s' w' heq =>
    refine ⟨[.read s (min (gap - done) chunk) (.ok [])], ?_, .single rfl ?_ rfl⟩
    · rw [skipByReading, if_pos hlt, EntrySource.recorded_read heq]
      rfl
    · refine .discard rfl (by omega) (by omega) (by omega) fun _ got hgot => ?_
      cases hgot
      exact Nat.le_trans (Nat.add_le_add_left (Nat.le_of_lt hlt) base) (Nat.le_of_eq hp)
  | case3 done s w hlt b got s' w' heq ih =>
    obtain ⟨calls, hrest, hpassing⟩ :=
      ih (log ++ [.read s (min (gap - done) chunk) (.ok (b :: got))])
    have hplace : StreamCall.placeAfter (some (base + done))
        (.read s (min (gap - done) chunk) (.ok (b :: got))) =
        some (base + (done + (got.length + 1))) := congrArg some (Nat.add_assoc _ _ _)
    refine ⟨.read s (min (gap - done) chunk) (.ok (b :: got)) :: calls, ?_,
      .cons rfl ?_ hplace hpassing⟩
    · rw [skipByReading, if_pos hlt, EntrySource.recorded_read heq]
      dsimp only
      rw [hrest, List.append_assoc]
      rfl
    · refine .discard rfl (by omega) (by omega) (by omega) fun hb more hmore => ?_
      cases hmore
      have hle := hb.read heq
      omega
  | case4 done s w hge =>
    refine ⟨[], ?_, .nil (by omega)⟩
    rw [skipByReading, if_neg hge, List.append_nil]
    rfl

/-- A gap is passed over the way the handle does it. -/
lemma skipForward_recorded {base gap : Nat} (hc : 0 < h.chunk) (hp : base + gap = p)
    (log : List (StreamCall σ)) :
    ∃ calls, skipForward src.recorded h gap s (w, log) =
        beside (log ++ calls) (skipForward src h gap s w) ∧
      Passing src p n h.chunk h.skipsByReading base base s (skipForward src h gap s w).1 calls := by
  unfold skipForward
  cases h.skipsByReading with
  | true => exact skipByReading_recorded hc hp 0 log
  | false => exact skipInBulk_recorded hp 0 log

/-! ## Finding a stream -/

/-- How a handle finds a stream: it has one that is not past the position, or it opens the entry. -/
inductive Finding (h : Handle σ) : Except Error σ → Handle σ → List (StreamCall σ) → Prop
  | held {s : σ} (hs : h.stream = some s) (hle : h.streamPosition ≤ h.position) :
      Finding h (.ok s) h []
  | opened {s : σ} (hneed : h.place.any (· ≤ h.position) = false) :
      Finding h (.ok s) { h with stream := some s, streamPosition := 0 } [.opening (.ok s)]
  | failed {e : Error} (hneed : h.place.any (· ≤ h.position) = false) :
      Finding h (.error e) { h with stream := none } [.opening (.error e)]

/-- A handle finds a stream in one of these ways. -/
lemma revive_recorded (src : EntrySource ω σ) (h : Handle σ) (w : ω) (log : List (StreamCall σ)) :
    ∃ calls, h.revive src.recorded (w, log) = beside (log ++ calls) (h.revive src w) ∧
      Finding h (h.revive src w).1 (h.revive src w).2.1 calls := by
  unfold revive
  split
  next s hs =>
    refine ⟨[], by rw [List.append_nil]; rfl, ?_⟩
    split at hs
    next => cases hs
    next hle => exact .held hs (Nat.le_of_not_lt hle)
  next hs =>
    have hneed : h.place.any (· ≤ h.position) = false := by
      unfold place
      split at hs
      next hlt =>
        cases h.stream with
        | none => rfl
        | some s => simpa using hlt
      next => rw [hs]; rfl
    rcases hopen : src.openEntry h.path w with ⟨e | s, w'⟩
    · refine ⟨[.opening (.error e)], ?_, .failed hneed⟩
      simp only [EntrySource.recorded, hopen, beside]
    · refine ⟨[.opening (.ok s)], ?_, .opened hneed⟩
      simp only [EntrySource.recorded, hopen, beside]

/-- A stream that has been found is not past the position. -/
lemma Finding.found {h₁ : Handle σ} (hf : Finding h (.ok s) h₁ calls) :
    h₁.place = some h₁.streamPosition ∧ h₁.streamPosition ≤ h₁.position ∧
      h₁.position = h.position ∧ h₁.chunk = h.chunk := by
  cases hf with
  | held hs hle => exact ⟨by rw [place, hs]; rfl, hle, rfl, rfl⟩
  | opened hneed => exact ⟨rfl, Nat.zero_le _, rfl, rfl⟩

/-- Finding a stream makes calls that are admitted, and does not pass over a gap. -/
lemma Finding.readCalls {r : Except Error σ} {h' : Handle σ} (hf : Finding h r h' calls)
    (src : EntrySource ω σ) (n : Nat) : ReadCalls src n h h' calls := by
  cases hf with
  | @held s hs hle =>
    have hplace : h.place = some h.streamPosition := by rw [place, hs]; rfl
    exact ⟨.nil, by simp [hplace, hle], by simp [gapStream], rfl⟩
  | opened hneed =>
    refine ⟨.single .opening, ?_, by simp [gapStream], rfl⟩
    rw [hneed]
    rfl
  | failed hneed =>
    refine ⟨.single .opening, ?_, by simp [gapStream], rfl⟩
    rw [hneed]
    rfl

/-! ## Reading -/

/-- Passing over a gap on the stream that has been found makes calls that are admitted. -/
lemma Finding.readCalls_cross {h₁ h₂ : Handle σ} {opens : List (StreamCall σ)}
    {r : Except IoError Nat} (hf : Finding h (.ok s) h₁ opens)
    (hlt : h₁.streamPosition < h₁.position)
    (hway : h₂.skipsByReading = (h₁.skipsByReading || !src.supportsSkip s))
    (hchunk : h₂.chunk = h₁.chunk) (hplace : h₂.place = r.toOption.map (h₁.streamPosition + ·))
    (hp : Passing src h₁.position n h₁.chunk h₂.skipsByReading h₁.streamPosition h₁.streamPosition s
      r calls) : ReadCalls src n h h₂ (opens ++ calls) := by
  have hleads := hp.leads
  have hfirst := hp.first
  rw [← hplace] at hleads
  rw [if_pos hlt] at hfirst
  cases hf with
  | held hs hle =>
    have hat : h.place = some h.streamPosition := by rw [place, hs]; rfl
    refine ⟨?_, ?_, ?_, hchunk⟩
    · rw [hat]
      exact hleads
    · simp [hat, hle, hp.silent]
    · rw [hat, List.nil_append, hfirst]
      exact hway
  | opened hneed =>
    refine ⟨.cons .opening hleads, ?_, ?_, hchunk⟩
    · rw [hneed, List.countP_append, hp.silent]
      rfl
    · rw [List.singleton_append, gapStream, StreamCall.placeAfter, hfirst]
      exact hway

/-- Where bringing the stream to the position leaves it: there, if it is provided, short of that if
the entry has ended, and nowhere after a failure. -/
structure SyncPlace (h : Handle σ) (r : Except Error (Option σ)) (h' : Handle σ) : Prop where
  error : ∀ e, r = .error e → h'.place = none
  none : r = .ok none → h'.place = some h'.streamPosition
  some : ∀ s, r = .ok (some s) → h'.place = some h.position

/-- A stream is brought to the position by calls that are admitted. -/
lemma sync_recorded (src : EntrySource ω σ) (hc : 0 < h.chunk) (n : Nat) (w : ω)
    (log : List (StreamCall σ)) :
    ∃ calls, h.sync src.recorded (w, log) = beside (log ++ calls) (h.sync src w) ∧
      ReadCalls src n h (h.sync src w).2.1 calls ∧
      SyncPlace h (h.sync src w).1 (h.sync src w).2.1 := by
  obtain ⟨opens, hrecord, hfinding⟩ := revive_recorded src h w log
  unfold sync
  rw [hrecord]
  rcases hrevive : h.revive src w with ⟨e | s, h₁, w₁⟩
  · rw [hrevive] at hfinding
    refine ⟨opens, rfl, hfinding.readCalls src n, fun _ _ => ?_, ?_, ?_⟩
    · cases hfinding
      rfl
    · intro hnone
      cases hnone
    · intro t ht
      cases ht
  · rw [hrevive] at hfinding
    dsimp only [beside] at hfinding ⊢
    obtain ⟨hplace, hle, hstay, hchunk⟩ := hfinding.found
    by_cases hlt : h₁.streamPosition < h₁.position
    · rw [if_pos hlt, if_pos hlt]
      have hsupport : src.recorded.supportsSkip s = src.supportsSkip s := rfl
      rw [hsupport]
      set h₂ : Handle σ :=
        { h₁ with skipsByReading := h₁.skipsByReading || !src.supportsSkip s }
      obtain ⟨calls, hrecord', hpassing⟩ :
          ∃ calls, skipForward src.recorded h₂ (h₁.position - h₁.streamPosition) s
              (w₁, log ++ opens) = beside (log ++ opens ++ calls)
                (skipForward src h₂ (h₁.position - h₁.streamPosition) s w₁) ∧
            Passing src h₁.position n h₁.chunk h₂.skipsByReading h₁.streamPosition
              h₁.streamPosition s
              (skipForward src h₂ (h₁.position - h₁.streamPosition) s w₁).1 calls :=
        skipForward_recorded (hchunk ▸ hc) (Nat.add_sub_cancel' (Nat.le_of_lt hlt)) (log ++ opens)
      rw [hrecord']
      rcases hskip : skipForward src h₂ (h₁.position - h₁.streamPosition) s w₁ with
        ⟨e | m, s₂, w₂⟩
      · rw [hskip] at hpassing
        refine ⟨opens ++ calls, ?_, hfinding.readCalls_cross hlt rfl rfl rfl hpassing,
          fun _ _ => rfl, ?_, ?_⟩
        · rw [← List.append_assoc]
          rfl
        · intro hnone
          cases hnone
        · intro t ht
          cases ht
      · rw [hskip] at hpassing
        refine ⟨opens ++ calls, ?_, hfinding.readCalls_cross hlt rfl rfl rfl hpassing, ?_,
          fun _ => rfl, fun t ht => ?_⟩
        · rw [← List.append_assoc]
          rfl
        · intro e he
          cases he
        · have hreached : h₁.streamPosition + m = h₁.position := by
            by_contra hne
            simp [hne] at ht
          rw [← hstay, ← hreached]
          rfl
    · rw [if_neg hlt, if_neg hlt]
      refine ⟨opens, rfl, hfinding.readCalls src n, ?_, fun _ => hplace, fun t ht => ?_⟩
      · intro e he
        cases he
      · rw [hplace, ← hstay, Nat.le_antisymm hle (Nat.le_of_not_lt hlt)]

/-- A read at the position is no passing over a gap. -/
lemma gapStream_append {rule : Option Nat → StreamCall σ → Prop} {place : Option Nat}
    {r : Except IoError Bytes} (h : Leads rule place calls (some p)) :
    gapStream p place (calls ++ [.read s n r]) = gapStream p place calls := by
  generalize hend : some p = place' at h
  induction h with
  | nil =>
    rw [← hend, List.nil_append]
    simp [gapStream]
  | @cons place place' c cs head tail ih =>
    cases c with
    | opening r =>
      rw [List.cons_append, gapStream, gapStream]
      exact ih hend
    | skip => rfl
    | read => rfl

/-- A read at the position is admitted behind the calls that lead there. -/
lemma ReadCalls.deliver {h₁ h₂ : Handle σ} {r : Except IoError Bytes}
    (hr : ReadCalls src n h h₁ calls) (hat : h₁.place = some h.position)
    (hway : h₂.skipsByReading = h₁.skipsByReading) (hchunk : h₂.chunk = h₁.chunk)
    (hplace : h₂.place = StreamCall.placeAfter (some h.position) (.read s n r)) :
    ReadCalls src n h h₂ (calls ++ [.read s n r]) := by
  have hleads := hr.leads
  rw [hat] at hleads
  refine ⟨?_, ?_, ?_, hchunk.trans hr.chunk_eq⟩
  · rw [hway, hplace]
    exact hleads.append (.single .deliver)
  · rw [List.countP_append, hr.openings]
    rfl
  · rw [gapStream_append hleads, hway]
    exact hr.latch

/-- What a read that asks for something asks of the streams. -/
lemma read_recorded (src : EntrySource ω σ) (hc : 0 < h.chunk) (hn : 0 < n) (w : ω)
    (log : List (StreamCall σ)) :
    ∃ calls, h.read src.recorded n (w, log) = beside (log ++ calls) (h.read src n w) ∧
      ReadCalls src n h (h.read src n w).2.1 calls := by
  obtain ⟨calls, hrecord, hcalls, hat⟩ := sync_recorded src hc n w log
  unfold read
  rw [if_neg (Nat.ne_of_gt hn), if_neg (Nat.ne_of_gt hn), hrecord]
  rcases hsync : h.sync src w with ⟨e | _ | s, h₁, w₁⟩
  · rw [hsync] at hcalls
    exact ⟨calls, rfl, hcalls⟩
  · rw [hsync] at hcalls
    exact ⟨calls, rfl, hcalls⟩
  · rw [hsync] at hcalls hat
    dsimp only [beside] at hcalls hat ⊢
    have hplace : h₁.place = some h.position := hat.some s rfl
    rcases hread : src.read n s w₁ with ⟨e | got, s₂, w₂⟩
    · rw [EntrySource.recorded_read hread]
      dsimp only
      refine ⟨calls ++ [.read s n (.error e)], ?_, ?_⟩
      · rw [← List.append_assoc]
      · have hlost : h₁.discard.place =
            StreamCall.placeAfter (some h.position) (.read s n (.error e)) := rfl
        exact hcalls.deliver hplace rfl rfl hlost
    · rw [EntrySource.recorded_read hread]
      dsimp only
      refine ⟨calls ++ [.read s n (.ok got)], ?_, ?_⟩
      · rw [← List.append_assoc]
      · refine hcalls.deliver hplace rfl rfl ?_
        rw [StreamCall.placeAfter, Option.map_some, ← streamPosition_of_place hplace]
        rfl

end Steps

/-! ## Requests -/

/-- The number of bytes that a request wants; none, unless it is a read. -/
def Request.wanted : Request → Nat
  | .read n => n
  | _ => 0

/-- The calls that a request makes. -/
def calls (src : EntrySource ω σ) (q : Request) (h : Handle σ) (w : ω) : List (StreamCall σ) :=
  (h.answer src.recorded q (w, [])).2.2.2

section Requests

variable {h : Handle σ}

/-- Keeping a record changes neither the answer nor the handle and the world after it. -/
lemma answer_recorded (src : EntrySource ω σ) (hc : 0 < h.chunk) (q : Request) (w : ω) :
    h.answer src.recorded q (w, []) = beside (h.calls src q w) (h.answer src q w) := by
  cases q with
  | setPosition p => rfl
  | seek s => rfl
  | read n =>
    by_cases hn : 0 < n
    · obtain ⟨calls, hrecord, -⟩ := read_recorded src hc hn w []
      rw [Handle.calls, answer, hrecord]
      rfl
    · have hzero : n = 0 := Nat.eq_zero_of_not_pos hn
      rw [Handle.calls, answer, answer, read, read, if_pos hzero, if_pos hzero]
      rfl

/-- A request that wants no bytes makes no calls, and keeps the stream and the way over gaps. -/
lemma calls_of_wanted_zero (src : EntrySource ω σ) {q : Request} (hq : q.wanted = 0) (w : ω) :
    h.calls src q w = [] ∧ (h.answer src q w).2.1.place = h.place ∧
      (h.answer src q w).2.1.skipsByReading = h.skipsByReading ∧
      (h.answer src q w).2.1.chunk = h.chunk := by
  cases q with
  | setPosition p => exact ⟨rfl, rfl, rfl, rfl⟩
  | seek s =>
    rw [answer, seek]
    split <;> exact ⟨rfl, rfl, rfl, rfl⟩
  | read n =>
    obtain rfl : n = 0 := hq
    exact ⟨rfl, rfl, rfl, rfl⟩

/-- What a request that wants bytes asks of the streams. -/
lemma readCalls_of_wanted_pos (src : EntrySource ω σ) {q : Request} (hc : 0 < h.chunk)
    (hq : 0 < q.wanted) (w : ω) :
    ReadCalls src q.wanted h (h.answer src q w).2.1 (h.calls src q w) := by
  cases q with
  | setPosition p => cases hq
  | seek s => cases hq
  | read n =>
    obtain ⟨calls, hrecord, hcalls⟩ := read_recorded (n := n) src hc hq w []
    have hmade : h.calls src (.read n) w = calls := by
      show (h.read src.recorded n (w, [])).2.2.2 = calls
      rw [hrecord]
      rfl
    rw [hmade]
    exact hcalls

end Requests

/-! ## Runs -/

/-- One request of a run, with what it did. -/
structure Leg (σ : Type) where
  request : Request
  /-- The position before the request. -/
  position : Nat
  calls : List (StreamCall σ)
  answer : Answer
  /-- Whether the handle passes over gaps by reading after the request. -/
  latched : Bool

/-- The legs of a run in which requests are made one after the other. -/
def legs (src : EntrySource ω σ) : List Request → Handle σ → ω → List (Leg σ)
  | [], _, _ => []
  | q :: qs, h, w =>
    let (a, h', w', calls) := h.answer src.recorded q (w, [])
    ⟨q, h.position, calls, a, h'.skipsByReading⟩ :: legs src qs h' w'

/-- The first leg of a run is that of its first request, as it is without a record. -/
lemma legs_cons {h : Handle σ} (src : EntrySource ω σ) (hc : 0 < h.chunk) (q : Request)
    (qs : List Request) (w : ω) :
    h.legs src (q :: qs) w =
      ⟨q, h.position, h.calls src q w, (h.answer src q w).1,
          (h.answer src q w).2.1.skipsByReading⟩ ::
        legs src qs (h.answer src q w).2.1 (h.answer src q w).2.2 := by
  rw [legs, answer_recorded src hc]
  rfl

end Handle

end ZipMount
