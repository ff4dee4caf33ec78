import ZipMount.Proofs.Archive.Container
import ZipMount.Proofs.Mount.Lookup
import ZipMount.Proofs.Walk.Tour

/-!
# What is written is served

The members of an archive come back in two ways.  A walk through the bytes reports one record per
member, in the order in which they were written (`records_write`), and answers whatever is asked of
it from the members alone (`transcript_write`).  A mount finds each of them under its name
(`contains_write`), and gives the size and the data of the first of a name if that can be read
(`size_write`, `readsAt_write`).  `serves_write` puts these together.

Nothing here looks at bytes again: an archive is an honest container whose parts are its members, and
walks and mounts are known on those.
-/

namespace ZipMount

namespace Archive

variable {deflate : Bytes → Bytes} {a : Archive}

/-- What there is to see of the members. -/
def sights (deflate : Bytes → Bytes) (a : Archive) : List Sight :=
  a.map fun x => (x.part deflate).sight

/-- The first part of a name is that of the first member of the name. -/
lemma find?_parts (name : String) :
    (a.parts deflate).find? (fun p => p.name = name) =
      (a.find? fun x => x.entryName = name).map (Member.part deflate) :=
  List.find?_map

section Served

variable [LawfulInflater]

/-! ## Walks -/

/-- Whatever is asked of a walk through an archive, its answers are those of a tour of the
members. -/
theorem transcript_write (hz : Deflate.IsEncoder deflate) (ha : ∀ x ∈ a, x.Sound deflate)
    (regime : Regime) (qs : List Walk.Request) :
    (Walk.start (a.write deflate) regime).transcript qs =
      Tour.transcript (a.sights deflate) qs (.before 0) := by
  have hsights : (container deflate a hz ha).sights = a.sights deflate := List.map_map
  have ht : Walk.Tracks (container deflate a hz ha) regime
      (Walk.start (container deflate a hz ha).encode regime) (.before 0) := .before 0
  rw [← encode_container hz ha, ht.transcript qs, hsights]

/-- The untouched entries of an archive have one record per member, in the order of the members. -/
theorem records_write (hz : Deflate.IsEncoder deflate) (ha : ∀ x ∈ a, x.Sound deflate)
    (regime : Regime) :
    (Walk.start (a.write deflate) regime).records =
      (a.map fun x => (x.part deflate).record, none) := by
  refine Walk.records_eq_iff.mpr ⟨a.parts deflate, a.tail deflate, ?_, .inr (tail_ends deflate a),
    ?_, ?_⟩
  · intro p hp
    exact ((container deflate a hz ha).honest p hp).framed regime.verify
  · rw [write, body_eq hz ha, List.append_assoc]
    rfl
  · rw [parts, List.map_map]
    rfl

/-! ## Mounts -/

variable {m : Mount} {host : Host} {path : VirtualPath} {x : Member}

/-- A path to an archive finds the first member of its name. -/
lemma finds_write (hz : Deflate.IsEncoder deflate) (ha : ∀ x ∈ a, x.Sound deflate)
    (hread : host.files.read (path.container host.environment) = .ok (a.write deflate))
    (hfind : a.find? (fun x => x.entryName = path.entryName) = some x) :
    m.Finds host path (x.part deflate) := by
  rw [← encode_container hz ha] at hread
  refine Mount.finds_of_honest hread ?_
  show (a.parts deflate).find? (fun p => p.name = path.entryName) = some (x.part deflate)
  rw [find?_parts, hfind]
  rfl

/-- Every member is there under its name. -/
theorem contains_write (hz : Deflate.IsEncoder deflate) (ha : ∀ x ∈ a, x.Sound deflate)
    (hread : host.files.read (path.container host.environment) = .ok (a.write deflate))
    (hx : x ∈ a) (hname : x.entryName = path.entryName) : m.contains host path = true := by
  have hsome : (a.find? fun x => x.entryName = path.entryName).isSome := by
    rw [List.find?_isSome]
    exact ⟨x, hx, decide_eq_true hname⟩
  obtain ⟨first, hfind⟩ := Option.isSome_iff_exists.mp hsome
  exact (finds_write hz ha hread hfind).contains_eq

/-- The first member of a name delivers its data if it can be read. -/
lemma delivers_part (hz : Deflate.IsEncoder deflate) (hx : x.Sound deflate) {data : Bytes}
    (hdata : x.data? = some data) (verify : Bool) :
    (x.part deflate).Delivers verify ∧ (x.part deflate).data = data ∧
      ((x.part deflate).trailer = none → data.length = (x.part deflate).uncompressed) := by
  have hhonest : (x.part deflate).Honest := (Member.stands_layout hz hx).honest
  have hreadable : (x.part deflate).Readable := by
    apply Member.readable_part
    rw [hdata]
    exact Option.some_ne_none data
  have heq : (x.part deflate).data = data := by
    show x.data?.getD [] = data
    rw [hdata]
    rfl
  refine ⟨hhonest.delivers hreadable verify, heq, fun ht => ?_⟩
  have hlength := hhonest.data_length hreadable
  rw [heq, Part.recordedLength, ht] at hlength
  exact hlength

/-- The size of an entry is that of the data of the first member of its name. -/
theorem size_write (hz : Deflate.IsEncoder deflate) (ha : ∀ x ∈ a, x.Sound deflate)
    (hchunk : 0 < m.settings.sizeProbeChunk)
    (hread : host.files.read (path.container host.environment) = .ok (a.write deflate))
    (hfind : a.find? (fun x => x.entryName = path.entryName) = some x) {data : Bytes}
    (hdata : x.data? = some data) : m.size host path = data.length := by
  obtain ⟨hdelivers, heq, hlength⟩ :=
    delivers_part hz (ha x (List.mem_of_find?_eq_some hfind)) hdata m.settings.verifyChecksums
  rw [← heq] at hlength
  rw [(finds_write hz ha hread hfind).size_eq hdelivers hlength hchunk, heq]

/-- Reads at any positions of an entry deliver what stands there in the data of the first member of
its name. -/
theorem readsAt_write (hz : Deflate.IsEncoder deflate) (ha : ∀ x ∈ a, x.Sound deflate)
    (hread : host.files.read (path.container host.environment) = .ok (a.write deflate))
    (hfind : a.find? (fun x => x.entryName = path.entryName) = some x) {data : Bytes}
    (hdata : x.data? = some data) (mode : OpenMode) :
    ∃ handle, m.openPath host path mode = .ok handle ∧ ∀ reads : List (Nat × Nat),
      handle.readsAt m.source reads host =
        reads.map fun r => ((data.drop r.1).take r.2, none) := by
  have hx := ha x (List.mem_of_find?_eq_some hfind)
  obtain ⟨hdelivers, heq, -⟩ := delivers_part hz hx hdata m.settings.verifyChecksums
  have hroot : path.isRoot = false := by
    have hname : x.entryName = path.entryName := by
      simpa using List.find?_some hfind
    refine VirtualPath.isRoot_eq_false ?_
    rw [← hname]
    exact hx.entryName_ne
  have hreads := (finds_write (m := m) hz ha hread hfind).readsAt_eq hdelivers hroot mode
  rwa [heq] at hreads

/-- An archive is served as it was written.  A walk through it has one record per member, in order
and by name.  Every member can be named by a path into the container, and is there under its name;
and if the first member of a name can be read, the entry has the size of its data, and opened in any
mode it delivers, at any positions one after the other, what stands there in the data. -/
theorem serves_write (hz : Deflate.IsEncoder deflate) (ha : ∀ x ∈ a, x.Sound deflate) {s : Settings}
    (hm : Mount.withSettings s = .ok m)
    (hread : host.files.read (path.container host.environment) = .ok (a.write deflate)) :
    (∀ regime, ∃ rs, (Walk.start (a.write deflate) regime).records = (rs, none) ∧
        rs.map Record.name = a.map Member.entryName) ∧
      (∀ x ∈ a,
        (path.child x.entryName).container host.environment = path.container host.environment ∧
          (path.child x.entryName).entryName = x.entryName) ∧
      (∀ x ∈ a, x.entryName = path.entryName → m.contains host path = true) ∧
      ∀ x data, a.find? (fun x => x.entryName = path.entryName) = some x → x.data? = some data →
        m.size host path = data.length ∧
          ∀ mode, ∃ handle, m.openPath host path mode = .ok handle ∧
            ∀ reads : List (Nat × Nat), handle.readsAt m.source reads host =
              reads.map fun r => ((data.drop r.1).take r.2, none) := by
  refine ⟨fun regime => ⟨_, records_write hz ha regime, ?_⟩, fun x hx => ⟨?_, ?_⟩,
    fun x hx hname => contains_write hz ha hread hx hname, fun x data hfind hdata => ⟨?_, ?_⟩⟩
  · rw [List.map_map]
    rfl
  · exact path.container_child x.entryName host.environment
  · exact path.entryName_child x.entryName (ha x hx).isNormal_entryName
  · have hchunk := Mount.least_le_of_withSettings hm .sizeProbeChunk
    exact size_write hz ha hchunk hread hfind hdata
  · exact readsAt_write hz ha hread hfind hdata

end Served

/-! ## A sample -/

/-- Stored blocks, but nothing is written as an empty block of the fixed code, as encoders do that
look for a short stream. -/
def deflateShort (data : Bytes) : Bytes :=
  if data = [] then [3, 0] else Deflate.encode data

/-- What is written so is decoded again. -/
lemma isEncoder_deflateShort : Deflate.IsEncoder deflateShort := by
  intro data rest
  by_cases hnil : data = []
  · have halone : Deflate.decode [3, 0] = .complete [] [] := by decide +kernel
    have hempty : Deflate.decode ([3, 0] ++ rest) = .complete [] rest :=
      Deflate.decode_append halone rest
    rw [deflateShort, if_pos hnil, hnil]
    refine Inflow.ofSlices_eq_iff.mpr ?_
    rwa [List.flatten_singleton]
  · rw [deflateShort, if_neg hnil]
    exact Deflate.isEncoder_encode data rest

/-- A stored member behind ones with a descriptor, without a decoder and without data, and in front
of one of the same name. -/
def sample : Archive :=
  [.streamed "a" [], .raw "b" 12 [9] 1, .directory "d", .stored "s" [1, 2, 3], .stored "s" [4]]

/-- The members of the sample are sound. -/
lemma sound_sample : ∀ x ∈ sample, x.Sound deflateShort := by
  have hnames : ∀ x ∈ sample, x.name ≠ "" ∧ '\\' ∉ x.name.toList ∧
      x.name.toList.head? ≠ some '/' ∧ (Utf8.encode x.entryName).length < 256 ^ 2 := by
    decide
  have hsizes : ∀ x ∈ sample, (x.layout deflateShort).payload.length < sizeMarker ∧
      (x.layout deflateShort).size < sizeMarker := by
    decide
  have hkinds : ∀ x ∈ sample, (∀ name data, x ≠ .streamedUnsigned name data) ∧
      ∀ name method payload size, x = .raw name method payload size → method = 12 := by
    intro x hx
    simp only [sample, List.mem_cons, List.not_mem_nil, or_false] at hx
    rcases hx with rfl | rfl | rfl | rfl | rfl <;> simp +contextual [eq_comm]
  intro x hx
  obtain ⟨hne, hback, hfirst, hname⟩ := hnames x hx
  obtain ⟨hpayload, hsize⟩ := hsizes x hx
  obtain ⟨hunsigned, hraw⟩ := hkinds x hx
  refine ⟨hne, ⟨hback, hfirst⟩, hname, hpayload, hsize, ?_, ?_⟩
  · intro name data heq
    exact absurd heq (hunsigned name data)
  · intro name method payload size heq
    rw [hraw name method payload size heq]
    decide

/-- The sample as it is served: five records, and three bytes under the name of two members. -/
theorem serves_sample :
    (∃ rs, (Walk.start (sample.write deflateShort) true).records = (rs, none) ∧
        rs.map Record.name = ["a", "b", "d/", "s", "s"]) ∧
      Mount.standard.contains (Host.withContainer (sample.write deflateShort)) ⟨"zip2:z!s"⟩ = true ∧
      Mount.standard.size (Host.withContainer (sample.write deflateShort)) ⟨"zip2:z!s"⟩ = 3 ∧
      ∃ handle, Mount.standard.openPath (Host.withContainer (sample.write deflateShort))
          ⟨"zip2:z!s"⟩ .read = .ok handle ∧
        handle.readsAt Mount.standard.source [(1, 1), (0, 9), (3, 1)]
            (Host.withContainer (sample.write deflateShort)) =
          [([2], none), ([1, 2, 3], none), ([], none)] := by
  have hcontainer : ∀ content : Bytes, (VirtualPath.mk "zip2:z!s").container
      (Host.withContainer content).environment = "z" := by
    intro content
    cbv
  have hname : (VirtualPath.mk "zip2:z!s").entryName = "s" := by cbv
  have hread : (Host.withContainer (sample.write deflateShort)).files.read
      ((VirtualPath.mk "zip2:z!s").container
        (Host.withContainer (sample.write deflateShort)).environment) =
      .ok (sample.write deflateShort) := by
    rw [hcontainer, Host.read_withContainer]
  have hm : Mount.withSettings Settings.standard = .ok Mount.standard := by rfl
  have hfind : sample.find? (fun x => x.entryName = (VirtualPath.mk "zip2:z!s").entryName) =
      some (.stored "s" [1, 2, 3]) := by
    rw [hname]
    rfl
  obtain ⟨hrecords, -, hcontains, hdata⟩ :=
    serves_write isEncoder_deflateShort sound_sample hm hread
  obtain ⟨hsize, hopen⟩ := hdata _ _ hfind rfl
  obtain ⟨handle, hhandle, hreads⟩ := hopen .read
  exact ⟨hrecords true, hcontains (.stored "s" [1, 2, 3]) (by decide) hname.symm, hsize, handle,
    hhandle, hreads [(1, 1), (0, 9), (3, 1)]⟩

end Archive

end ZipMount
