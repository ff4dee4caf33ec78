import ZipMount.Proofs.Handle.Definite
import ZipMount.Proofs.Mount.Service

/-!
# Payloads in portions

A walk gives as many bytes as it is asked for, while there are as many.  A reader that stands behind a
buffer gives what the buffer holds, which may be fewer, and how many depends on the size of the
buffer and on where in the container the buffer begins.  A `Portioning` is any rule for this; all that
is known of it is that something is given where something is wanted.

Operations that read more than once make up for the rule (`Walk.readUpToBy_eq`, `Walk.skipBy_eq`).
Single reads do not, but they still hand over the next bytes and fail only behind the last one, so
the walks for an entry have a definite failure under any rule (`Mount.sourceBy_definite`).
-/

namespace ZipMount

variable [Inflater]

/-- A rule for how many bytes a single read may give when at most `n` are wanted of a walk. -/
structure Portioning where
  portion : Nat → Walk → Nat
  pos : ∀ {n} (w), 0 < n → 0 < portion n w
  le : ∀ n w, portion n w ≤ n

namespace Portioning

/-- Every read gives as much as there is. -/
def whole : Portioning where
  portion n _ := n
  pos _ hn := hn
  le n _ := Nat.le_refl n

end Portioning

namespace Walk

variable {w : Walk}

/-- A read that gives a portion of what is wanted. -/
def readBy (c : Portioning) (n : Nat) (w : Walk) : Except IoError Bytes × Walk :=
  w.read (c.portion n w)

/-- Reads in portions until there are `n` bytes, the payload ends, or a read fails. -/
def readUpToBy (c : Portioning) (n : Nat) (w : Walk) : (Bytes × Option IoError) × Walk :=
  if n = 0 then (([], none), w)
  else
    match w.readBy c n with
    | (.error e, w) => (([], some e), w)
    | (.ok [], w) => (([], none), w)
    | (.ok (b :: got), w) =>
      let ((more, failure), w) := readUpToBy c (n - (got.length + 1)) w
      ((b :: got ++ more, failure), w)
termination_by n

/-- Passes over at most `n` bytes in portions. -/
def skipBy (c : Portioning) (n : Nat) (w : Walk) : Except IoError Nat × Walk :=
  match w.readUpToBy c n with
  | ((got, none), w) => (.ok got.length, w)
  | ((_, some e), w) => (.error e, w)

/-- Reading a first stretch and then what is left of `n` bytes is reading `n` bytes. -/
lemma readUpTo_pass {j n : Nat} (hj : 0 < j) (hjn : j ≤ n) (hjp : j ≤ w.pending.length) :
    w.readUpTo n = ((w.pending.take j ++ ((w.pass j).readUpTo (n - j)).1.1,
      ((w.pass j).readUpTo (n - j)).1.2), ((w.pass j).readUpTo (n - j)).2) := by
  have hleft : (w.pass j).pending.length = w.pending.length - j := by
    rw [pending_pass, List.length_drop]
  by_cases hle : n ≤ w.pending.length
  · by_cases hlt : j < n
    · have hn : j + (n - j) = n := by omega
      rw [readUpTo_of_le (by omega) hle, readUpTo_of_le (by omega) (by omega)]
      dsimp only
      rw [pending_pass, ← List.take_add, pass_pass, hn]
    · obtain rfl : j = n := by omega
      rw [readUpTo_of_le hj hle, Nat.sub_self, readUpTo, if_pos rfl]
      dsimp only
      rw [List.append_nil]
  · rw [readUpTo_of_lt (by omega), readUpTo_of_lt (by omega)]
    dsimp only
    rw [pending_pass, List.take_append_drop, failure_pass, ending_pass]

/-- Reading until there are enough bytes does not depend on the portions. -/
lemma readUpToBy_eq (c : Portioning) (n : Nat) (w : Walk) :
    w.readUpToBy c n = w.readUpTo n := by
  induction n using Nat.strong_induction_on generalizing w with
  | h n ih =>
    rw [readUpToBy]
    by_cases hn : n = 0
    · rw [if_pos hn, readUpTo, if_pos hn]
    · have hpos : 0 < n := Nat.pos_of_ne_zero hn
      have hportion : 0 < c.portion n w := c.pos w hpos
      rw [if_neg hn, readBy]
      by_cases hnil : w.pending = []
      · rw [readUpTo_of_empty hpos hnil, read_of_empty hportion hnil, failure]
        rcases hend : w.ending with ⟨e | got, w'⟩
        · rfl
        · obtain rfl : got = [] := ending_of_ok (w := w) (by rw [hend])
          rfl
      · -- What is read first are the next bytes, and the rest is read as the induction says.
        have hle := c.le n w
        have hsome : 0 < w.pending.length := List.length_pos_of_ne_nil hnil
        rw [read_of_pending hportion hnil, ← pass_length_take]
        have htake : (w.pending.take (c.portion n w)).length =
            min (c.portion n w) w.pending.length := List.length_take
        have hfirst : w.pending.take (w.pending.take (c.portion n w)).length =
            w.pending.take (c.portion n w) := by
          rw [List.length_take, ← List.take_take, List.take_length]
        have hstep := readUpTo_pass (w := w) (j := (w.pending.take (c.portion n w)).length) (n := n)
          (by omega) (by omega) (by omega)
        rw [hfirst] at hstep
        rw [hstep]
        cases hgot : w.pending.take (c.portion n w) with
        | nil => exact absurd hgot (take_pending_ne_nil hportion hnil)
        | cons b got =>
          dsimp only
          rw [List.length_cons, ih (n - (got.length + 1)) (by omega)]

/-- Passing over bytes does not depend on the portions. -/
lemma skipBy_eq (c : Portioning) (n : Nat) (w : Walk) : w.skipBy c n = w.skip n := by
  rw [skipBy, readUpToBy_eq]
  rfl

end Walk

namespace Mount

variable {m : Mount} {host : Host} {p : VirtualPath} {w : Walk}

/-- The walks through containers as streams of entries that are read in portions. -/
def sourceBy (m : Mount) (c : Portioning) : EntrySource Host Walk where
  openEntry p host := (m.openEntry host p, host)
  read n w host :=
    let (r, w) := w.readBy c n
    (r, w, host)
  supportsSkip _ := true
  skip n w host :=
    let (r, w) := w.skipBy c n
    (r, w, host)

/-- The streams of a mount are read in whole portions. -/
lemma sourceBy_whole (m : Mount) : m.sourceBy .whole = m.source := by
  unfold sourceBy source
  simp only [Walk.skipBy_eq]
  rfl

/-- A read of such a stream is a read of the walk, which leaves the host as it is. -/
lemma sourceBy_read {c : Portioning} {n : Nat} {v v' : Walk} {r : Except IoError Bytes}
    {host₁ host₂ : Host} (h : (m.sourceBy c).read n v host₁ = (r, v', host₂)) :
    v.read (c.portion n v) = (r, v') ∧ host₂ = host₁ := by
  have heq : ((v.readBy c n).1, (v.readBy c n).2, host₁) = (r, v', host₂) := h
  obtain ⟨hr, hrest⟩ := Prod.mk.inj heq
  obtain ⟨hv, hhost⟩ := Prod.mk.inj hrest
  exact ⟨Prod.ext hr hv, hhost.symm⟩

/-- A skip of such a stream is a skip of the walk, which leaves the host as it is. -/
lemma sourceBy_skip {c : Portioning} {n : Nat} {v v' : Walk} {r : Except IoError Nat}
    {host₁ host₂ : Host} (h : (m.sourceBy c).skip n v host₁ = (r, v', host₂)) :
    v.skip n = (r, v') ∧ host₂ = host₁ := by
  have heq : ((v.skipBy c n).1, (v.skipBy c n).2, host₁) = (r, v', host₂) := h
  rw [Walk.skipBy_eq] at heq
  obtain ⟨hr, hrest⟩ := Prod.mk.inj heq
  obtain ⟨hv, hhost⟩ := Prod.mk.inj hrest
  exact ⟨Prod.ext hr hv, hhost.symm⟩

/-- The walks for an entry have a definite failure, in whatever portions they are read. -/
lemma sourceBy_definite (c : Portioning) (ho : m.openEntry host p = .ok w) :
    (m.sourceBy c).Definite p (service host w) w.failure where
  world_openEntry := (source_keeps ho).world_openEntry
  world_read := by
    intro n v h r v' h' heq hw
    obtain ⟨-, rfl⟩ := sourceBy_read heq
    exact hw
  world_skip := by
    intro n v h r v' h' heq hw
    obtain ⟨-, rfl⟩ := sourceBy_skip heq
    exact hw
  openEntry := (source_keeps ho).openEntry
  read := by
    intro n v h got v' h' k heq _ hs hn
    obtain ⟨hread, -⟩ := sourceBy_read heq
    obtain ⟨hlen, hslice, hend, hs'⟩ := service_read hs (c.pos v hn) hread
    exact ⟨hlen.trans (c.le n v), hslice, hend, hs'⟩
  skip := by
    intro n v h j v' h' k heq _ hs hn
    obtain ⟨hskip, -⟩ := sourceBy_skip heq
    exact service_skip hs hn hskip
  opens := by
    rintro h rfl
    exact ⟨w, h, Prod.ext ho rfl⟩
  ends := id
  reads := by
    rintro n v h e v' h' k heq _ ⟨-, hpend, hfail⟩ hn
    obtain ⟨hread, -⟩ := sourceBy_read heq
    obtain ⟨hnil, hfailure⟩ := Walk.of_read_error (c.pos v hn) hread
    exact ⟨hfail ▸ hfailure, List.drop_eq_nil_iff.mp (hpend ▸ hnil)⟩
  skips := by
    rintro n v h e v' h' k heq _ ⟨-, hpend, hfail⟩ hn
    obtain ⟨hskip, -⟩ := sourceBy_skip heq
    have hlt : v.pending.length < n := by
      by_contra hle
      rw [Walk.skip_of_le hn (Nat.le_of_not_lt hle)] at hskip
      cases hskip
    rw [Walk.skip_of_lt hlt] at hskip
    have hleft : v.pending.length = w.pending.length - k := by rw [hpend, List.length_drop]
    cases hv : v.failure with
    | none =>
      rw [hv] at hskip
      cases hskip
    | some e' =>
      rw [hv] at hskip
      cases hskip
      exact ⟨hfail ▸ hv, show w.pending.length < k + n by omega⟩

/-- The walks for an entry have a definite failure. -/
lemma source_definite (ho : m.openEntry host p = .ok w) :
    m.source.Definite p (service host w) w.failure := by
  rw [← sourceBy_whole]
  exact sourceBy_definite .whole ho

/-- The replies of a handle on an entry are settled by the pending bytes of a walk at its payload, by
the failure behind them and by the size, in whatever portions the walks are read. -/
lemma replies_eq (c : Portioning) (ho : m.openEntry host p = .ok w) (length skipBuffer : Nat)
    (qs : List Handle.Request) :
    (Handle.ofStream p w length skipBuffer).replies (m.sourceBy c) qs host =
      (Contents.mk w.pending w.failure length).replies 0 qs := by
  have hstart : (service host w).consumed w 0 := ⟨Nat.zero_le _, rfl, rfl⟩
  exact Handle.replies_eq (sourceBy_definite c ho)
    (Handle.follows_ofStream hstart p length skipBuffer) rfl qs

end Mount

end ZipMount
