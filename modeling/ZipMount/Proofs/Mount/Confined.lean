import ZipMount.Proofs.Mount.Alike
import ZipMount.Proofs.Walk.Confined

/-!
# Payload damage stays inside its entry

Take a container and change bytes in payloads whose sizes are in their headers.  Every question about a
path is answered as before, but for one: the size of an entry whose header has no size for its data
is found by reading it, and reading may leave its payload.  That happens to an entry that records
the compressed size of its payload and then has a deflate stream that is not complete within it.
Reading goes on behind the payload, into other entries, and so the damage there shows.

`unaffected_of_confined` says what stays the same, `size_of_runaway` is a damaged byte that shows in
the size of another entry.  All of it comes from walks that move alike, to twins
(`openedAlike`).
-/

namespace ZipMount

namespace Mount

open Handle (Request)

/-- What the answers about a path have in common when the container of the path is damaged. -/
structure Unaffected [Inflater] (m : Mount) (host host' : Host) (p : VirtualPath) : Prop where
  contains_eq : m.contains host p = m.contains host' p
  isDirectory_eq : m.isDirectory host p = m.isDirectory host' p
  list_eq : m.list host p = m.list host' p
  /-- The path is opened in both or in none, with the same error. -/
  opens_eq : (m.openEntry host p).map (fun _ => ()) = (m.openEntry host' p).map fun _ => ()
  /-- The size is the same, unless it is found by reading and reading leaves the payload. -/
  size_eq : (∀ r u, m.locate host p = .ok (some (r, u)) → r.declaredSize = none → u.Contained) →
    m.size host p = m.size host' p
  /-- Handles reply alike if the payload of the entry is not damaged and reading stays inside. -/
  replies_eq : ∀ u w, m.openEntry host p = .ok u → m.openEntry host' p = .ok w → u.Contained →
    w.ownPayload = u.ownPayload → ∀ (mode : OpenMode) (c c' : Portioning) (qs : List Request),
      (m.openPath host p mode).map (fun h => (h.length, h.replies (m.sourceBy c) qs host)) =
        (m.openPath host' p mode).map fun h => (h.length, h.replies (m.sourceBy c') qs host')

section Twins

variable [LawfulInflater] {m : Mount} {host host' : Host} {p : VirtualPath} {u w : Walk}

/-- Measuring comes to the same where the same is ahead. -/
lemma measure_congr (hpending : u.pending = w.pending) (hfailure : u.failure = w.failure)
    (chunk : Nat) : measure chunk u = measure chunk w := by
  rcases Nat.eq_zero_or_pos chunk with rfl | hc
  · -- Steps of no bytes come to nothing at once.
    have hzero : ∀ v : Walk, measure 0 v = .ok 0 := by
      intro v
      rw [measure, measureWithin, Walk.skip_zero]
    rw [hzero, hzero]
  · exact measure_eq_of_outlook hc hc hfailure fun _ => by rw [hpending]

/-- Walks through matched containers move alike. -/
lemma openedAlike {container container' : Bytes} (hm : Matched container container')
    (hread : host.files.read (p.container host.environment) = .ok container)
    (hread' : host'.files.read (p.container host'.environment) = .ok container') :
    OpenedAlike Walk.Twins (m.openContainer host p) (m.openContainer host' p) := by
  unfold openContainer
  rw [hread, hread']
  dsimp only
  -- The containers have one length, and so they are cut into slices by one rule.
  rw [hm.length_eq]
  exact .opened (hm.horizon_eq _) (hm.next _)

namespace LocatedAlike

variable (h : LocatedAlike Walk.Twins (m.locate host p) (m.locate host' p))
include h

/-- The size is the same unless it is found by reading that leaves the payload. -/
lemma size_eq_of_contained
    (hc : ∀ r u, m.locate host p = .ok (some (r, u)) → r.declaredSize = none → u.Contained) :
    m.size host p = m.size host' p := by
  refine h.size_eq fun r u w hlocate htwins hd => ?_
  obtain ⟨hpending, hfailure⟩ := htwins.outlook_eq (hc r u hlocate hd) (htwins.ownPayload_eq hd)
  exact measure_congr hpending hfailure m.settings.sizeProbeChunk

/-- Handles on twins reply alike if the payload is the same and reading stays inside. -/
lemma replies_eq_of_contained (hu : m.openEntry host p = .ok u) (hw : m.openEntry host' p = .ok w)
    (hc : u.Contained) (hown : w.ownPayload = u.ownPayload) (mode : OpenMode) (c c' : Portioning)
    (qs : List Request) :
    (m.openPath host p mode).map (fun h => (h.length, h.replies (m.sourceBy c) qs host)) =
      (m.openPath host' p mode).map fun h => (h.length, h.replies (m.sourceBy c') qs host') := by
  obtain ⟨r, hlocate⟩ := openEntry_eq_ok_iff.mp hu
  obtain ⟨r', hlocate'⟩ := openEntry_eq_ok_iff.mp hw
  obtain ⟨hpending, hfailure⟩ := (h.related hlocate hlocate').outlook_eq hc hown
  have hsize : m.size host p = m.size host' p := h.size_eq_of_contained fun q v hv _ => by
    cases hlocate.symm.trans hv
    exact hc
  exact openPath_replies_eq hu hw hsize hpending hfailure mode c c' qs

end LocatedAlike

end Twins

/-- Damage stays inside.  When a container is changed in nothing but payloads whose sizes are in their
headers, scans report the same records and end alike, and every path is answered for as before; the
size of an entry that is found by reading and the replies of a handle are the same if reading stays
inside the payload. -/
theorem unaffected_of_confined [LawfulInflater] {regime : Regime} {container container' : Bytes}
    (hc : Walk.Confined regime container container') :
    (∀ regime', (Walk.start container regime').records = (Walk.start container' regime').records) ∧
      ∀ (m : Mount) (host host' : Host) (p : VirtualPath),
        host.files.read (p.container host.environment) = .ok container →
        host'.files.read (p.container host'.environment) = .ok container' →
          Unaffected m host host' p := by
  have hm := hc.matched
  refine ⟨hm.records_eq, fun m host host' p hread hread' => ?_⟩
  have hopened : OpenedAlike Walk.Twins (m.openContainer host p) (m.openContainer host' p) :=
    openedAlike hm hread hread'
  have hlocated := hopened.locate Walk.Twins.next
  exact {
    contains_eq := hlocated.contains_eq
    isDirectory_eq := hopened.isDirectory_eq Walk.Twins.next
    list_eq := hopened.list_eq Walk.Twins.next
    opens_eq := hlocated.opens_eq
    size_eq := hlocated.size_eq_of_contained
    replies_eq := fun _ _ hu hw => hlocated.replies_eq_of_contained hu hw }

end Mount

/-! ## Damage that shows and damage that does not -/

/-- A stored entry with the given first byte, and then bytes that could be a descriptor. -/
def Part.invaded (b : UInt8) : Part where
  header := ⟨20, 0, 0, 0, 0, 0, 13, 13, [98], []⟩
  payload := b :: Descriptor.encodeUnsigned .four ⟨0x3A0BECC3, 0, 40⟩
  trailer := none
  name := "b"
  uncompressed := 13
  compressed := 13
  data := []

/-- The walk passes over the stored entry. -/
lemma Part.framed_invaded (b : UInt8) (verify : Bool) : (invaded b).Framed verify := by
  have hf : (invaded b).header.Fits := by constructor <;> simp [invaded]
  have hnames : LocalHeader.Names ⟨20, 0, 0, 0, 0, 0, 13, 13, [98], []⟩ "b" := by
    unfold LocalHeader.Names
    decide
  exact {
    trailer_iff := by simp [invaded, LocalHeader.hasDescriptor]
    trailer_fits := fun t ht => by cases ht
    fits := hf
    names := hnames
    sizes := LocalHeader.sizes_of_unmarked hf (by rfl)
    sized := fun _ => rfl
    unsized := fun h _ => absurd rfl h }

/-- Another first byte of the stored entry is damage to its payload. -/
lemma Walk.confined_invaded {p : Part} (hp : p.Framed true) (b b' : UInt8) :
    Confined true (p.encode ++ (Part.invaded b).encode) (p.encode ++ (Part.invaded b').encode) := by
  have hd : (Part.invaded b).header.hasDescriptor = false := by
    simp [Part.invaded, LocalHeader.hasDescriptor]
  have hrefill : Confined true ((Part.invaded b).encode ++ []) ((Part.invaded b').encode ++ []) :=
    confined_refill (Part.framed_invaded b true) hd (Part.invaded b').payload rfl []
  rw [List.append_nil, List.append_nil] at hrefill
  exact hrefill.behind hp

namespace Mount

open Handle (Request)

/-- Damage to a stored entry does not show in the stored byte in front of it. -/
theorem unaffected_invaded :
    Walk.Confined true (Part.stored.encode ++ (Part.invaded 0).encode)
        (Part.stored.encode ++ (Part.invaded 1).encode) ∧
      Unaffected standard (Host.withContainer (Part.stored.encode ++ (Part.invaded 0).encode))
        (Host.withContainer (Part.stored.encode ++ (Part.invaded 1).encode)) ⟨"zip2:z!a"⟩ ∧
      ∀ qs : List Request,
        (standard.openPath (Host.withContainer (Part.stored.encode ++ (Part.invaded 0).encode))
            ⟨"zip2:z!a"⟩ .read).map (fun h => (h.length, h.replies (standard.sourceBy .whole) qs
              (Host.withContainer (Part.stored.encode ++ (Part.invaded 0).encode)))) =
          (standard.openPath (Host.withContainer (Part.stored.encode ++ (Part.invaded 1).encode))
            ⟨"zip2:z!a"⟩ .read).map fun h => (h.length, h.replies (standard.sourceBy .whole) qs
              (Host.withContainer (Part.stored.encode ++ (Part.invaded 1).encode))) := by
  have hstored : Part.stored.Framed true := Part.honest_stored.framed true
  have hcontainer : (VirtualPath.mk "zip2:z!a").container ⟨none, none⟩ = "z" := by cbv
  have hconfined := Walk.confined_invaded hstored 0 1
  have hunaffected := (unaffected_of_confined hconfined).2 standard _ _ _
    (Host.read_container hcontainer _) (Host.read_container hcontainer _)
  have hopens : ∀ more, standard.openEntry (Host.withContainer (Part.stored.encode ++ more))
      ⟨"zip2:z!a"⟩ = .ok (Part.stored.begun more
        (standard.regime (Part.stored.encode ++ more).length)) := by
    intro more
    have hopen : standard.openContainer (Host.withContainer (Part.stored.encode ++ more))
        ⟨"zip2:z!a"⟩ = .ok (Walk.start (Part.stored.encode ++ more)
          (standard.regime (Part.stored.encode ++ more).length)) := by
      unfold openContainer
      rw [Host.read_container hcontainer]
    exact openEntry_eq_ok_iff.mpr ⟨_, locate_of_next hopen (hstored.next_start more) (by cbv)⟩
  have hcontained : ∀ regime, (Part.stored.begun (Part.invaded 0).encode regime).Contained :=
    fun _ => ⟨_, rfl, .inr (.inl rfl)⟩
  exact ⟨hconfined, hunaffected, hunaffected.replies_eq _ _ (hopens _) (hopens _) (hcontained _) rfl
    .read .whole .whole⟩

end Mount

/-- An entry that records one byte of payload.  The byte begins a stored block whose length stands
where the descriptor has its checksum: forty bytes, of which eight are in the descriptor. -/
def Part.runaway : Part where
  header := ⟨20, 8, 8, 0, 0, 0, 1, 0, [97], []⟩
  payload := [1]
  trailer := some ⟨⟨0xFFD70028, 0, 0⟩, false⟩
  name := "a"
  uncompressed := 0
  compressed := 1
  data := []

/-- The walk passes over the entry by its one byte. -/
lemma Part.framed_runaway (verify : Bool) : runaway.Framed verify := by
  have hf : runaway.header.Fits := by constructor <;> decide
  have ht : Trailer.Fits .four ⟨⟨0xFFD70028, 0, 0⟩, false⟩ := ⟨by constructor <;> decide, by decide⟩
  exact {
    trailer_iff := by decide
    trailer_fits := fun t heq => by cases heq; exact ht
    fits := hf
    names := by unfold LocalHeader.Names; decide
    sizes := LocalHeader.sizes_of_unmarked hf (by decide)
    sized := fun _ => rfl
    unsized := fun _ h => absurd h (by decide) }

namespace Mount

/-- The stream runs on over the header of the stored entry to the first byte of its payload, and is
verified by the bytes behind it.  Damage to this byte shows in the size. -/
theorem size_of_runaway :
    Walk.Confined true (Part.runaway.encode ++ (Part.invaded 0).encode)
        (Part.runaway.encode ++ (Part.invaded 1).encode) ∧
      standard.size (Host.withContainer (Part.runaway.encode ++ (Part.invaded 0).encode))
        ⟨"zip2:z!a"⟩ = 40 ∧
      standard.size (Host.withContainer (Part.runaway.encode ++ (Part.invaded 1).encode))
        ⟨"zip2:z!a"⟩ = 0 := by
  have hcontainer : (VirtualPath.mk "zip2:z!a").container ⟨none, none⟩ = "z" := by cbv
  have hlocate : ∀ more, standard.locate (Host.withContainer (Part.runaway.encode ++ more))
      ⟨"zip2:z!a"⟩ = .ok (some (Part.runaway.record, Part.runaway.begun more
        (standard.regime (Part.runaway.encode ++ more).length))) := by
    intro more
    have hopen : standard.openContainer (Host.withContainer (Part.runaway.encode ++ more))
        ⟨"zip2:z!a"⟩ = .ok (Walk.start (Part.runaway.encode ++ more)
          (standard.regime (Part.runaway.encode ++ more).length)) := by
      unfold openContainer
      rw [Host.read_container hcontainer]
    exact locate_of_next hopen ((Part.framed_runaway true).next_start more) (by cbv)
  have hsize := fun more => size_of_measured (m := standard) (by decide) (hlocate more) rfl
  have hsound : (Part.runaway.begun (Part.invaded 0).encode (standard.regime
      (Part.runaway.encode ++ (Part.invaded 0).encode).length)).failure = none := by
    decide +kernel
  have hlength : (Part.runaway.begun (Part.invaded 0).encode (standard.regime
      (Part.runaway.encode ++ (Part.invaded 0).encode).length)).pending.length = 40 := by
    decide +kernel
  have hdamaged : (Part.runaway.begun (Part.invaded 1).encode (standard.regime
      (Part.runaway.encode ++ (Part.invaded 1).encode).length)).failure.isSome = true := by
    decide +kernel
  obtain ⟨e, he⟩ := Option.isSome_iff_exists.mp hdamaged
  refine ⟨Walk.confined_invaded (Part.framed_runaway true) 0 1, ?_, ?_⟩
  · rw [hsize, hsound]
    exact hlength
  · rw [hsize, he]

end Mount

end ZipMount
