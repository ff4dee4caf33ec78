import ZipMount.Proofs.Mount.Lookup
import ZipMount.Proofs.Mount.Portions
import ZipMount.Proofs.Walk.Alike

/-!
# Mounts that answer alike

Two mounts, or one mount on two hosts, answer a question about a path by walks of their own.  If these
walks move alike (`OpenedAlike`), then whether the path is there, whether it is a directory and what it
lists are answered alike, and both find the same entry (`OpenedAlike.locate`), the walks to which are
related (`LocatedAlike`).

Sizes and handles look into the payload.  The size is the same if measuring comes to the same
(`LocatedAlike.size_eq`), and handles reply alike if the same lies ahead of the walks
(`openPath_replies_eq`).
-/

namespace ZipMount

namespace Mount

open Handle (Request)
open Walk (MovedAlike)

/-- The containers cannot be opened, for the same reason, or walks through them move alike. -/
inductive OpenedAlike [Inflater] (R : Record → Walk → Walk → Prop) :
    Except Error Walk → Except Error Walk → Prop
  | failed (e : Error) : OpenedAlike R (.error e) (.error e)
  | opened {u w : Walk} (hhorizon : w.horizon = u.horizon) (hnext : MovedAlike R u.next w.next) :
      OpenedAlike R (.ok u) (.ok w)

/-- Two searches have come to the same error, to nothing, or to related walks. -/
inductive LocatedAlike (R : Record → Walk → Walk → Prop) :
    Except Error (Option (Record × Walk)) → Except Error (Option (Record × Walk)) → Prop
  | failed (e : Error) : LocatedAlike R (.error e) (.error e)
  | absent : LocatedAlike R (.ok none) (.ok none)
  | found {r : Record} {u w : Walk} (h : R r u w) :
      LocatedAlike R (.ok (some (r, u))) (.ok (some (r, w)))

variable {R : Record → Walk → Walk → Prop} {m m' : Mount} {host host' : Host} {p : VirtualPath}
  {r r' : Record} {u w : Walk}

section Opened

variable [Inflater] (hR : ∀ {r u w}, R r u w → MovedAlike R u.next w.next)
  (h : OpenedAlike R (m.openContainer host p) (m'.openContainer host' p))
include hR h

/-- The entry of the path is found by both or by none. -/
lemma OpenedAlike.locate : LocatedAlike R (m.locate host p) (m'.locate host' p) := by
  unfold Mount.locate
  generalize m.openContainer host p = opened at h ⊢
  generalize m'.openContainer host' p = opened' at h ⊢
  cases h with
  | failed e => exact .failed e
  | @opened u w hhorizon hnext =>
    dsimp only [bind, Except.bind]
    have hfind := hnext.find hR hhorizon fun r => decide (r.name = p.entryName)
    generalize u.find _ = found at hfind ⊢
    generalize w.find _ = found' at hfind ⊢
    cases hfind with
    | failed e => exact .failed e
    | ended => exact .absent
    | found h => exact .found h

/-- The path is a directory for both or for none. -/
lemma OpenedAlike.isDirectory_eq : m.isDirectory host p = m'.isDirectory host' p := by
  unfold isDirectory
  generalize m.openContainer host p = opened at h ⊢
  generalize m'.openContainer host' p = opened' at h ⊢
  cases h with
  | failed e => rfl
  | @opened u w hhorizon hnext =>
    dsimp only
    have hfind := hnext.find hR hhorizon (decides p.entryName)
    generalize u.find _ = found at hfind ⊢
    generalize w.find _ = found' at hfind ⊢
    cases hfind <;> rfl

/-- Both list the same paths. -/
lemma OpenedAlike.list_eq : m.list host p = m'.list host' p := by
  unfold list
  generalize m.openContainer host p = opened at h ⊢
  generalize m'.openContainer host' p = opened' at h ⊢
  cases h with
  | failed e => rfl
  | @opened u w hhorizon hnext =>
    dsimp only [bind, Except.bind]
    rw [hnext.records_eq hR hhorizon]

end Opened

namespace LocatedAlike

section Located

variable [Inflater] (h : LocatedAlike R (m.locate host p) (m'.locate host' p))
include h

/-- The path is there for both or for none. -/
lemma contains_eq : m.contains host p = m'.contains host' p := by
  unfold contains
  generalize m.locate host p = located at h ⊢
  generalize m'.locate host' p = located' at h ⊢
  cases h <;> rfl

/-- The entry is opened by both or by none, with the same error. -/
lemma opens_eq :
    (m.openEntry host p).map (fun _ => ()) = (m'.openEntry host' p).map fun _ => () := by
  unfold openEntry
  generalize m.locate host p = located at h ⊢
  generalize m'.locate host' p = located' at h ⊢
  cases h <;> rfl

/-- What is found by both is the same record, and the walks are related. -/
lemma related (hu : m.locate host p = .ok (some (r, u)))
    (hw : m'.locate host' p = .ok (some (r', w))) : R r u w := by
  rw [hu, hw] at h
  cases h with
  | found h => exact h

/-- The size is the same if measuring comes to the same where no size is recorded. -/
lemma size_eq (hmeasure : ∀ r u w, m.locate host p = .ok (some (r, u)) → R r u w →
      r.declaredSize = none → measure m.settings.sizeProbeChunk u =
        measure m'.settings.sizeProbeChunk w) : m.size host p = m'.size host' p := by
  have hknown : m.knownSize host p = m'.knownSize host' p := by
    unfold knownSize
    generalize m.locate host p = located at h hmeasure ⊢
    generalize m'.locate host' p = located' at h ⊢
    cases h with
    | failed e => rfl
    | absent => rfl
    | @found r u w h =>
      dsimp only [bind, Except.bind]
      cases hd : r.declaredSize with
      | some n => rfl
      | none =>
        dsimp only
        rw [hmeasure r u w rfl h hd]
  unfold size
  rw [hknown]

end Located

end LocatedAlike

/-- Measuring in steps of any two sizes other than zero comes to the same, if there is the same failure
ahead, or none and as many bytes. -/
lemma measure_eq_of_outlook [LawfulInflater] {chunk chunk' : Nat} (hc : 0 < chunk) (hc' : 0 < chunk')
    (hfailure : u.failure = w.failure)
    (hpending : u.failure = none → u.pending.length = w.pending.length) :
    measure chunk u = measure chunk' w := by
  rw [measure_eq_match hc, measure_eq_match hc', ← hfailure]
  cases hf : u.failure with
  | none =>
    dsimp only
    rw [hpending hf]
  | some e => rfl

/-- Handles on entries reply alike if the same lies ahead of the walks to them, whatever they read at
once to throw it away and in whatever portions their streams give. -/
lemma openPath_replies_eq [Inflater] (hu : m.openEntry host p = .ok u)
    (hw : m'.openEntry host' p = .ok w) (hsize : m.size host p = m'.size host' p)
    (hpending : u.pending = w.pending) (hfailure : u.failure = w.failure) (mode : OpenMode)
    (c c' : Portioning) (qs : List Request) :
    (m.openPath host p mode).map (fun h => (h.length, h.replies (m.sourceBy c) qs host)) =
      (m'.openPath host' p mode).map fun h => (h.length, h.replies (m'.sourceBy c') qs host') := by
  cases hroot : p.isRoot with
  | true =>
    rw [openPath_of_isRoot hroot, openPath_of_isRoot hroot]
    simp only [Except.map]
  | false =>
    rw [openPath_of_openEntry hroot hu, openPath_of_openEntry hroot hw]
    simp only [Except.map, replies_eq c hu, replies_eq c' hw, hsize, hpending, hfailure]
    rfl

end Mount

end ZipMount
