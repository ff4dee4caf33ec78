import ZipMount.Proofs.Mount.Portions
import ZipMount.Proofs.Walk.Forward

/-!
# Loops and how often they go round

What goes through a container does so in loops, and what stops a loop is only what it meets.  The
functions that stand for them recurse along numbers that bound the rounds.  `Loops` is the loop as
such, without a bound, and `Loops.of_rounds` says when a function gives what the loop comes to: if
it unfolds as the loop does, and if every round uses up something.  A loop that goes along with
another one, round by round, comes to the same (`Loops.of_view`).

Loops are inside the single operations of a walk already.  The sizes of an entry are looked for
among the extra fields of its header (`loops_resolving`), raw payloads are passed over in pieces
(`loops_passing`), and payloads are decoded in pieces until there are enough bytes or until their
end (`loops_readUpTo`, `loops_readAll`).  However large the sizes are that headers claim, each round
of these uses up bytes that are there; `callsStop` sums this up.
-/

namespace ZipMount

/-- A loop that begins at `a` goes round `n` times and stops with `b`. -/
inductive Loops {α β : Type} (body : α → β ⊕ α) : Nat → α → β → Prop
  | stop {a : α} {b : β} (h : body a = .inl b) : Loops body 0 a b
  | again {n : Nat} {a a' : α} {b : β} (h : body a = .inr a') (rest : Loops body n a' b) :
      Loops body (n + 1) a b

/-- A loop of which every round uses up some of a size stops, with what a function gives that
unfolds as the loop does. -/
lemma Loops.of_rounds {α β : Type} {body : α → β ⊕ α} (size : α → Nat) (f : Nat → α → β) {k : Nat}
    (hround : ∀ fuel a, body a = .inl (f (fuel + 1) a) ∨
      ∃ a', body a = .inr a' ∧ size a' + k ≤ size a ∧ f (fuel + 1) a = f fuel a')
    (hk : 0 < k) {fuel : Nat} {a : α} (hfuel : size a < fuel) :
    ∃ n, k * n ≤ size a ∧ Loops body n a (f fuel a) := by
  induction fuel generalizing a with
  | zero => omega
  | succ fuel ih =>
    rcases hround fuel a with hstop | ⟨a', hagain, huse, hf⟩
    · exact ⟨0, Nat.zero_le _, .stop hstop⟩
    · obtain ⟨n, hn, hloops⟩ := ih (a := a') (by omega)
      rw [hf]
      exact ⟨n + 1, by rw [Nat.mul_succ]; omega, .again hagain hloops⟩

/-- A loop of which each round goes along with a round of another one comes to the same. -/
lemma Loops.of_view {α α' β β' : Type} {body : α → β ⊕ α} {body' : α' → β' ⊕ α'} (view : α' → α)
    (g : β → β') (hstop : ∀ a b, body (view a) = .inl b → body' a = .inl (g b))
    (hagain : ∀ a x, body (view a) = .inr x → ∃ a', body' a = .inr a' ∧ view a' = x)
    {n : Nat} {a : α'} {b : β} (h : Loops body n (view a) b) : Loops body' n a (g b) := by
  generalize hx : view a = x at h
  induction h generalizing a with
  | stop hbody =>
    subst hx
    exact .stop (hstop a _ hbody)
  | again hbody _ ih =>
    subst hx
    obtain ⟨a', hbody', hview⟩ := hagain a _ hbody
    exact .again hbody' (ih hview)

/-! ## Extra fields -/

/-- The sizes that the data of a zip64 field gives. -/
def sizesIn (uncompressed compressed : Nat) (data : Bytes) : Except Error (Nat × Nat) :=
  match resolveSizes uncompressed compressed data with
  | .ok (sizes, _) => .ok sizes
  | .error e => .error (.io e)

/-- The sizes that the first zip64 field among the given fields gives. -/
def sizesAmong (uncompressed compressed : Nat) (fields : List ExtraField) :
    Except Error (Nat × Nat) :=
  match fields.find? (·.tag = zip64Tag) with
  | none => .error (.fault (.invalidArchive .zip64FieldMissing))
  | some f => sizesIn uncompressed compressed f.data

/-- The sizes of an entry are those among all its extra fields. -/
lemma zip64Sizes_eq_sizesAmong (extra : Bytes) (uncompressed compressed : Nat) :
    zip64Sizes extra uncompressed compressed =
      sizesAmong uncompressed compressed (ExtraField.all extra) := rfl

/-- Looks for the zip64 field among extra fields, and takes the sizes from the first one. -/
def resolving (uncompressed compressed : Nat) (extra : Bytes) :
    Except Error (Nat × Nat) ⊕ Bytes :=
  match ExtraField.read extra with
  | .error _ => .inl (.error (.fault (.invalidArchive .zip64FieldMissing)))
  | .ok (f, rest) =>
    if f.tag = zip64Tag then
      .inl (match resolveSizes uncompressed compressed f.data with
        | .ok (sizes, _) => .ok sizes
        | .error e => .error (.io e))
    else .inr rest

/-- Looking for the zip64 field goes round once for each field at most. -/
lemma loops_resolving (uncompressed compressed : Nat) (extra : Bytes) :
    ∃ rounds ≤ extra.length / 4,
      Loops (resolving uncompressed compressed) rounds extra
        (zip64Sizes extra uncompressed compressed) := by
  have hround : ∀ fuel extra,
      resolving uncompressed compressed extra =
          .inl (sizesAmong uncompressed compressed (ExtraField.upTo (fuel + 1) extra)) ∨
        ∃ rest, resolving uncompressed compressed extra = .inr rest ∧
          rest.length / 4 + 1 ≤ extra.length / 4 ∧
          sizesAmong uncompressed compressed (ExtraField.upTo (fuel + 1) extra) =
            sizesAmong uncompressed compressed (ExtraField.upTo fuel rest) := by
    intro fuel extra
    rcases hread : ExtraField.read extra with e | ⟨f, rest⟩
    · left
      simp only [resolving, sizesAmong, ExtraField.upTo, hread, List.find?_nil]
    · by_cases htag : f.tag = zip64Tag
      · left
        simp only [resolving, sizesAmong, sizesIn, ExtraField.upTo, hread, htag, if_true,
          decide_true, List.find?_cons_of_pos]
      · right
        obtain ⟨-, hinput⟩ := ExtraField.eq_of_read hread
        have hlen : rest.length + 4 ≤ extra.length := by
          rw [hinput]
          simp only [ExtraField.encode, List.length_append, Bytes.length_le]
          omega
        refine ⟨rest, ?_, by omega, ?_⟩
        · simp only [resolving, hread, htag, if_false]
        · simp only [sizesAmong, ExtraField.upTo, hread, htag, decide_false, Bool.false_eq_true,
            not_false_eq_true, List.find?_cons_of_neg]
  rcases extra with _ | ⟨b, rest⟩
  · exact ⟨0, Nat.zero_le _, .stop rfl⟩
  · have hfuel : (b :: rest).length / 4 < (b :: rest).length := by
      rw [List.length_cons]
      omega
    obtain ⟨rounds, hle, hloops⟩ := Loops.of_rounds (fun extra : Bytes => extra.length / 4)
      (fun fuel extra => sizesAmong uncompressed compressed (ExtraField.upTo fuel extra))
      hround Nat.one_pos hfuel
    exact ⟨rounds, by rwa [Nat.one_mul] at hle, hloops⟩

namespace Walk

variable {portion : Nat → Nat}

/-! ## Raw payloads -/

/-- Passes over a payload of `n` bytes in portions, of which so many have been passed. -/
def passing (portion : Nat → Nat) (n : Nat) :
    Nat × Bytes → Except IoError (Unit × Bytes) ⊕ Nat × Bytes
  | (done, rest) =>
    match rest.take (min (portion done) (n - done)) with
    | [] => .inl (if done < n then .error .shortPayload else .ok ((), rest))
    | got => .inr (done + got.length, rest.drop got.length)

/-- Passing over a first stretch and then what is left of a payload is passing over it. -/
lemma passPayload_drop {k n : Nat} {rest : Bytes} (hkn : k ≤ n) (hle : k ≤ rest.length) :
    passPayload n rest = passPayload (n - k) (rest.drop k) := by
  have hdrop : (rest.drop k).drop (n - k) = rest.drop n := by
    rw [List.drop_drop, Nat.add_sub_cancel' hkn]
  have hall : (rest.take n).length = n ↔ ((rest.drop k).take (n - k)).length = n - k := by
    rw [List.length_take, List.length_take, List.length_drop]
    omega
  simp only [passPayload, hdrop, hall]

/-- Passing over a payload of any recorded size goes round no more often than there are bytes. -/
lemma loops_passing (hportion : ∀ k, 0 < portion k) (n : Nat) (rest : Bytes) :
    ∃ rounds ≤ rest.length, Loops (passing portion n) rounds (0, rest) (passPayload n rest) := by
  have hround : ∀ (_ : Nat) (a : Nat × Bytes),
      passing portion n a = .inl (passPayload (n - a.1) a.2) ∨
        ∃ a', passing portion n a = .inr a' ∧ a'.2.length + 1 ≤ a.2.length ∧
          passPayload (n - a.1) a.2 = passPayload (n - a'.1) a'.2 := by
    rintro - ⟨done, rest⟩
    have hpos := hportion done
    rcases hgot : rest.take (min (portion done) (n - done)) with _ | ⟨b, got⟩
    · left
      simp only [passing, hgot]
      by_cases hdone : done < n
      · have hnil : rest = [] := by
          rcases List.take_eq_nil_iff.mp hgot with hzero | hnil
          · omega
          · exact hnil
        have hleft : ([] : Bytes).length ≠ n - done := by
          rw [List.length_nil]
          omega
        rw [if_pos hdone, hnil, passPayload, List.take_nil, if_neg hleft]
      · have hleft : n - done = 0 := by omega
        rw [if_neg hdone, hleft]
        rfl
    · right
      have hlen : got.length + 1 = min (min (portion done) (n - done)) rest.length := by
        rw [← List.length_take, hgot, List.length_cons]
      have hleft : got.length + 1 ≤ n - done := by omega
      have hthere : got.length + 1 ≤ rest.length := by omega
      refine ⟨(done + (got.length + 1), rest.drop (got.length + 1)), ?_, ?_, ?_⟩
      · simp only [passing, hgot, List.length_cons]
      · dsimp only
        rw [List.length_drop]
        omega
      · dsimp only
        rw [passPayload_drop hleft hthere, Nat.sub_sub]
  obtain ⟨rounds, hle, hloops⟩ := Loops.of_rounds (fun a : Nat × Bytes => a.2.length)
    (fun _ a => passPayload (n - a.1) a.2) hround Nat.one_pos (a := (0, rest)) (Nat.lt_succ_self _)
  exact ⟨rounds, by simpa using hle, hloops⟩

/-! ## Decoding -/

variable [Inflater]

/-- Reads a payload in portions, of which so many bytes are held. -/
def copying (ask : Nat → Nat) : Bytes × Walk → ((Bytes × Option IoError) × Walk) ⊕ Bytes × Walk
  | (held, w) =>
    match w.read (ask held.length) with
    | (.error e, w) => .inl ((held, some e), w)
    | (.ok [], w) => .inl ((held, none), w)
    | (.ok got, w) => .inr (held ++ got, w)

variable {ask : Nat → Nat} {held : Bytes} {w : Walk}

/-- Once nothing is pending, reading stops. -/
lemma copying_of_empty (hask : 0 < ask held.length) (hnil : w.pending = []) :
    copying ask (held, w) = .inl ((held, w.failure), w.ending.2) := by
  rw [copying, read_of_empty hask hnil, failure]
  rcases hend : w.ending with ⟨e | got, w'⟩
  · rfl
  · obtain rfl : got = [] := ending_of_ok (w := w) (by rw [hend])
    rfl

/-- While bytes are pending, reading goes on with some of them. -/
lemma copying_of_pending (hask : 0 < ask held.length) (hne : w.pending ≠ []) :
    copying ask (held, w) =
      .inr (held ++ w.pending.take (ask held.length), w.pass (ask held.length)) := by
  rw [copying, read_of_pending hask hne]
  cases hgot : w.pending.take (ask held.length) with
  | nil => exact absurd hgot (take_pending_ne_nil hask hne)
  | cons b got => rfl

/-- Reading in portions to the end of a payload goes round no more often than bytes are pending. -/
lemma loops_readAll (hportion : ∀ k, 0 < portion k) (w : Walk) :
    ∃ rounds ≤ w.pending.length, Loops (copying portion) rounds ([], w) w.readAll := by
  have hround : ∀ (_ : Nat) (a : Bytes × Walk),
      copying portion a = .inl ((a.1 ++ a.2.pending, a.2.failure), a.2.ending.2) ∨
        ∃ a', copying portion a = .inr a' ∧ a'.2.pending.length + 1 ≤ a.2.pending.length ∧
          ((a.1 ++ a.2.pending, a.2.failure), a.2.ending.2) =
            ((a'.1 ++ a'.2.pending, a'.2.failure), a'.2.ending.2) := by
    rintro - ⟨held, w⟩
    have hpos := hportion held.length
    by_cases hnil : w.pending = []
    · left
      dsimp only
      rw [copying_of_empty hpos hnil, hnil, List.append_nil]
    · right
      have hsome : 0 < w.pending.length := List.length_pos_of_ne_nil hnil
      refine ⟨_, copying_of_pending hpos hnil, ?_, ?_⟩
      · dsimp only
        rw [pending_pass, List.length_drop]
        omega
      · dsimp only
        rw [pending_pass, List.append_assoc, List.take_append_drop, failure_pass, ending_pass]
  obtain ⟨rounds, hle, hloops⟩ := Loops.of_rounds (fun a : Bytes × Walk => a.2.pending.length)
    (fun _ a => ((a.1 ++ a.2.pending, a.2.failure), a.2.ending.2)) hround Nat.one_pos
    (a := ([], w)) (Nat.lt_succ_self _)
  rw [readAll_eq]
  exact ⟨rounds, by simpa using hle, hloops⟩

/-- Reading in portions until there are `n` bytes goes round once for each pending byte at most. -/
lemma loops_readUpTo (hportion : ∀ k, 0 < portion k) (n : Nat) (w : Walk) :
    ∃ rounds ≤ w.pending.length,
      Loops (copying fun k => min (portion k) (n - k)) rounds ([], w) (w.readUpTo n) := by
  set whole : Bytes × Walk → (Bytes × Option IoError) × Walk := fun a =>
    ((a.1 ++ (a.2.readUpTo (n - a.1.length)).1.1, (a.2.readUpTo (n - a.1.length)).1.2),
      (a.2.readUpTo (n - a.1.length)).2) with hwhole
  have hround : ∀ (_ : Nat) (a : Bytes × Walk),
      copying (fun k => min (portion k) (n - k)) a = .inl (whole a) ∨
        ∃ a', copying (fun k => min (portion k) (n - k)) a = .inr a' ∧
          a'.2.pending.length + 1 ≤ a.2.pending.length ∧ whole a = whole a' := by
    rintro - ⟨held, w⟩
    have hpos := hportion held.length
    by_cases henough : n - held.length = 0
    · left
      rw [copying, henough, Nat.min_zero, read_zero, hwhole]
      dsimp only
      rw [henough, readUpTo, if_pos rfl, List.append_nil]
    · have hask : 0 < min (portion held.length) (n - held.length) := by omega
      by_cases hnil : w.pending = []
      · left
        rw [copying_of_empty hask hnil, hwhole]
        dsimp only
        rw [readUpTo_of_empty (by omega) hnil, List.append_nil]
      · right
        have hsome : 0 < w.pending.length := List.length_pos_of_ne_nil hnil
        refine ⟨_, copying_of_pending hask hnil, ?_, ?_⟩
        · dsimp only
          rw [pending_pass, List.length_drop]
          omega
        · -- What is read first are the next bytes, and the function reads what is left of `n`.
          set first := w.pending.take (min (portion held.length) (n - held.length)) with hfirst
          have hlen : first.length =
              min (min (portion held.length) (n - held.length)) w.pending.length := by
            rw [hfirst, List.length_take]
          have htake : w.pending.take first.length = first := by
            rw [hfirst, List.length_take, ← List.take_take, List.take_length]
          have hpass : w.pass first.length =
              w.pass (min (portion held.length) (n - held.length)) := by
            rw [hfirst, pass_length_take]
          have hstep : w.readUpTo (n - held.length) = _ :=
            readUpTo_pass (j := first.length) (by omega) (by omega) (by omega)
          rw [htake, hpass, Nat.sub_sub] at hstep
          simp only [hwhole, hstep, List.length_append, List.append_assoc]
  obtain ⟨rounds, hle, hloops⟩ := Loops.of_rounds (fun a : Bytes × Walk => a.2.pending.length)
    (fun _ => whole) hround Nat.one_pos (a := ([], w)) (Nat.lt_succ_self _)
  exact ⟨rounds, by simpa using hle, hloops⟩

/-- The loops inside the operations of a walk stop, whatever portions they work in: passing over a
raw payload of any recorded size after no more rounds than there are bytes ahead, and decoding until
there are enough bytes, or to the end of the payload, after no more rounds than bytes are pending.
-/
structure CallsStop (w : Walk) : Prop where
  passPayload : ∀ {portion : Nat → Nat}, (∀ k, 0 < portion k) → ∀ n,
    ∃ rounds ≤ w.ahead.length,
      Loops (passing portion n) rounds (0, w.ahead) (Walk.passPayload n w.ahead)
  readUpTo : ∀ {portion : Nat → Nat}, (∀ k, 0 < portion k) → ∀ n,
    ∃ rounds ≤ w.pending.length,
      Loops (copying fun k => min (portion k) (n - k)) rounds ([], w) (w.readUpTo n)
  readAll : ∀ {portion : Nat → Nat}, (∀ k, 0 < portion k) →
    ∃ rounds ≤ w.pending.length, Loops (copying portion) rounds ([], w) w.readAll

/-- At every walk the loops inside its operations stop. -/
lemma callsStop (w : Walk) : w.CallsStop where
  passPayload hportion n := loops_passing hportion n w.ahead
  readUpTo hportion n := loops_readUpTo hportion n w
  readAll hportion := loops_readAll hportion w

end Walk

end ZipMount
