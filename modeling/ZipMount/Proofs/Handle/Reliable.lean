import ZipMount.Proofs.Handle.Definite

/-!
# Handles over streams that do not fail

`EntrySource.Reliable` says of streams that keep to their service that no call on them fails.  They
are the streams with a definite failure that have none, so a read until there are enough bytes
delivers just these.  `Handle.readAt` is such a read at a given position, and `readsAt_eq` says that
reads at any positions in any order deliver the bytes that stand there, whatever has been read
before.
-/

namespace ZipMount

variable {ω σ : Type}

/-- The streams for the entry of a path are as a service says, and calls on them do not fail. -/
structure EntrySource.Reliable (src : EntrySource ω σ) (path : VirtualPath) (v : Service ω σ) :
    Prop extends src.Keeps path v where
  opens : ∀ {w}, v.world w → ∃ s w', src.openEntry path w = (.ok s, w')
  reads : ∀ {n s w k}, v.world w → v.consumed s k →
    ∃ got s' w', src.read n s w = (.ok got, s', w')
  skips : ∀ {n s w k}, v.world w → v.consumed s k → ∃ m s' w', src.skip n s w = (.ok m, s', w')

/-- Streams that do not fail fail nowhere but behind the last byte, with no error. -/
lemma EntrySource.Reliable.definite {src : EntrySource ω σ} {path : VirtualPath}
    {v : Service ω σ} (hv : src.Reliable path v) : src.Definite path v none where
  toKeeps := hv.toKeeps
  opens := hv.opens
  ends := fun _ => rfl
  reads := by
    intro n s w e s' w' k heq hw hs hn
    obtain ⟨got, s₁, w₁, hok⟩ := hv.reads (n := n) hw hs
    rw [heq] at hok
    cases hok
  skips := by
    intro n s w e s' w' k heq hw hs hn
    obtain ⟨m, s₁, w₁, hok⟩ := hv.skips (n := n) hw hs
    rw [heq] at hok
    cases hok

namespace Handle

/-- Reads at a position until there are `n` bytes, the entry ends, or a read fails. -/
def readAt (src : EntrySource ω σ) (position n : Nat) (h : Handle σ) (w : ω) :
    (Bytes × Option Error) × Handle σ × ω :=
  (h.setPosition position).readUpTo src n w

/-- What reads at given positions of given numbers of bytes deliver, made one after the other. -/
def readsAt (src : EntrySource ω σ) :
    List (Nat × Nat) → Handle σ → ω → List (Bytes × Option Error)
  | [], _, _ => []
  | (position, n) :: reads, h, w =>
    (h.readAt src position n w).1 ::
      readsAt src reads (h.readAt src position n w).2.1 (h.readAt src position n w).2.2

section Reliable

variable {src : EntrySource ω σ} {path : VirtualPath} {v : Service ω σ} {length : Nat}
  {h : Handle σ} {w : ω}

/-- Reading until there are `n` bytes delivers the bytes at the position, and fewer only where the
entry ends. -/
lemma readUpTo_eq (hv : src.Reliable path v) (hf : h.Follows v path length) (hw : v.world w)
    (n : Nat) :
    (h.readUpTo src n w).1 = ((v.data.drop h.position).take n, none) ∧
      (h.readUpTo src n w).2.1.Follows v path length ∧ v.world (h.readUpTo src n w).2.2 := by
  obtain ⟨hfill, -, hf', hw'⟩ := readUpTo_of_definite hv.definite hf hw n
  refine ⟨?_, hf', hw'⟩
  rw [hfill, Contents.fill, Option.map_none, ite_self]

/-- A read at a position delivers the bytes that stand there. -/
lemma readAt_eq (hv : src.Reliable path v) (hf : h.Follows v path length) (hw : v.world w)
    (position n : Nat) :
    (h.readAt src position n w).1 = ((v.data.drop position).take n, none) ∧
      (h.readAt src position n w).2.1.Follows v path length ∧
      v.world (h.readAt src position n w).2.2 :=
  readUpTo_eq hv (hf.setPosition position) hw n

/-- Reads at any positions in any order deliver the bytes that stand there. -/
theorem readsAt_eq (hv : src.Reliable path v) (hf : h.Follows v path length) (hw : v.world w)
    (reads : List (Nat × Nat)) :
    h.readsAt src reads w = reads.map fun r => ((v.data.drop r.1).take r.2, none) := by
  induction reads generalizing h w with
  | nil => rfl
  | cons r reads ih =>
    obtain ⟨position, n⟩ := r
    obtain ⟨hgot, hf', hw'⟩ := readAt_eq hv hf hw position n
    rw [readsAt, hgot, ih hf' hw', List.map_cons]

end Reliable

end Handle

end ZipMount
