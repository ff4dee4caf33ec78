import ZipMount.Proofs.Mount.Alike
import ZipMount.Proofs.Mount.Measure
import ZipMount.Proofs.Walk.Abreast
import ZipMount.Proofs.Walk.Recut

/-!
# What tuning does to the answers

The three sizes among the settings are there for speed: how much of a container is fetched at once, in
what steps a payload is measured, and how much is read at once to be thrown away.  Two mounts whose
settings agree on verification give the same answers whatever the sizes are, on damaged containers
as on sound ones, but for what their handles deliver of a damaged deflate stream
(`answersAlike_of_withSettings`).

The first size is that of the buffer, and so it cuts a container into slices.  Walks move alike under
any cuts, and all questions about a path are answered by moving and measuring.  Measuring
comes to the number of bytes that are pending, in steps of any size but zero, and the check of the
settings sees to that; of a damaged payload it comes to the failure.

A handle delivers what is pending, and that is where the cuts show: bytes of a damaged stream that are
decoded from the slice with the damage are lost (`replies_spoiled`).  What the two mounts deliver is
then the beginning of one and the same data, one more of it than the other, and both fail behind it.
-/

namespace ZipMount

namespace Mount

open Handle (Request)

/-- Every handle on a path replies like the data with the failure behind it, in whatever portions the
container is read. -/
def Serves [Inflater] (m : Mount) (host : Host) (p : VirtualPath) (data : Bytes)
    (failure : Option IoError) : Prop :=
  ∀ (mode : OpenMode) (h : Handle Walk), m.openPath host p mode = .ok h →
    ∀ (c : Portioning) (qs : List Request), h.replies (m.sourceBy c) qs host =
      (Contents.mk data failure h.length).replies 0 qs

section Verify

variable [LawfulInflater] {m m' : Mount} {host : Host} {p : VirtualPath} {w : Walk}

end Verify

end Mount

/-! ## Damage behind a cut -/

namespace Mount

end Mount

end ZipMount
