import ZipMount.Proofs.Mount.Tree
import ZipMount.Proofs.Walk.Abreast

/-!
# Which entries a path reaches

A name is found in a container by comparing it with the names in the headers as they stand there.  A
path does not hold every name: backslashes become slashes, and slashes in front are dropped.  So
putting the name of an entry behind the root of its container gives a path to the first entry of that
name if the name is normal, and else a path to the first entry of the name that it becomes, which may
be another entry or none.

`reaches_child` says both.  What the headers say is taken from the `stops` of a walk that touches no
payload: a search stops where the first of them with the name is (`Walk.find_eq_some_iff`), whether or
not the walk comes to an end further on.
-/

namespace ZipMount

section Reach

variable [LawfulInflater]

namespace Walk

variable {w v : Walk} {q : Record → Bool} {r : Record}

/-- A search with a bound stops at the first stop within it that satisfies the condition. -/
lemma findWithin_eq_some_iff {fuel : Nat} :
    w.findWithin fuel q = (.ok (some r), v) ↔
      (w.sweepWithin (fun v => (v, v)) fuel).1.1.find? (fun stop => q stop.1) = some (r, v) := by
  induction fuel generalizing w with
  | zero =>
    constructor <;>
    · intro h
      cases h
  | succ fuel ih =>
    rw [findWithin, sweepWithin]
    rcases hnext : w.next with ⟨e | _ | r', w'⟩
    · constructor <;>
      · intro h
        cases h
    · constructor <;>
      · intro h
        cases h
    · rw [List.find?_cons]
      dsimp only
      cases hq : q r' with
      | true =>
        rw [if_pos rfl]
        constructor <;>
        · intro h
          cases h
          rfl
      | false =>
        rw [if_neg Bool.false_ne_true]
        exact ih

/-- A search stops at the first stop that satisfies the condition. -/
lemma find_eq_some_iff :
    w.find q = (.ok (some r), v) ↔ w.stops.find? (fun stop => q stop.1) = some (r, v) :=
  findWithin_eq_some_iff

/-- There is such a stop if there is such a record. -/
lemma exists_stop_iff :
    (∃ r v, w.stops.find? (fun stop => q stop.1) = some (r, v)) ↔
      ∃ r ∈ w.records.1, q r = true := by
  rw [records_eq_stops]
  constructor
  · rintro ⟨r, v, hfind⟩
    exact ⟨r, List.mem_map_of_mem (List.mem_of_find?_eq_some hfind),
      (List.find?_eq_some_iff_append.mp hfind).1⟩
  · rintro ⟨r, hr, hq⟩
    obtain ⟨stop, hstop, rfl⟩ := List.mem_map.mp hr
    have hsome : (w.stops.find? (fun stop => q stop.1)).isSome = true :=
      List.find?_isSome.mpr ⟨stop, hstop, hq⟩
    obtain ⟨⟨r, v⟩, hfirst⟩ := Option.isSome_iff_exists.mp hsome
    exact ⟨r, v, hfirst⟩

end Walk

namespace Mount

variable {m : Mount} {host : Host} {p : VirtualPath} {bytes : Bytes} {name : String}

/-- An entry is located at the first stop of the name of the path. -/
lemma locate_eq_some_iff_stop {r : Record} {w : Walk}
    (hread : host.files.read (p.container host.environment) = .ok bytes) :
    m.locate host p = .ok (some (r, w)) ↔
      (Walk.start bytes (m.regime bytes.length)).stops.find?
        (fun stop => stop.1.name = p.entryName) = some (r, w) := by
  have hopen : m.openContainer host p = .ok (Walk.start bytes (m.regime bytes.length)) := by
    unfold openContainer
    rw [hread]
  rw [locate_eq_some_iff, hopen,
    ← Walk.find_eq_some_iff (q := fun r => decide (r.name = p.entryName))]
  constructor
  · rintro ⟨v, hv, hfind⟩
    cases hv
    exact hfind
  · intro hfind
    exact ⟨_, rfl, hfind⟩

/-- An entry is located if there is a record of the name of the path. -/
lemma exists_locate_iff
    (hread : host.files.read (p.container host.environment) = .ok bytes) :
    (∃ r w, m.locate host p = .ok (some (r, w))) ↔
      ∃ r ∈ (Walk.start bytes (m.regime bytes.length)).records.1, r.name = p.entryName := by
  have hstop := Walk.exists_stop_iff (w := Walk.start bytes (m.regime bytes.length))
    (q := fun r => decide (r.name = p.entryName))
  simp only [locate_eq_some_iff_stop hread]
  rw [hstop]
  simp only [decide_eq_true_eq]

/-- What a name leads to is there if the name becomes empty or that of a record. -/
lemma contains_child_iff
    (hread : host.files.read (p.container host.environment) = .ok bytes) :
    m.contains host (p.child name) = true ↔ VirtualPath.normalized name = "" ∨
      ∃ r ∈ (Walk.start bytes (m.regime bytes.length)).records.1,
        r.name = VirtualPath.normalized name := by
  rw [← p.container_child name] at hread
  rw [contains_eq_true_iff, VirtualPath.isRoot_iff, exists_locate_iff hread,
    VirtualPath.entryName_child_eq]

/-- What a name leads to can be opened if the name becomes that of a record and not empty. -/
lemma exists_openPath_child_iff
    (hread : host.files.read (p.container host.environment) = .ok bytes) (mode : OpenMode) :
    (∃ h, m.openPath host (p.child name) mode = .ok h) ↔ VirtualPath.normalized name ≠ "" ∧
      ∃ r ∈ (Walk.start bytes (m.regime bytes.length)).records.1,
        r.name = VirtualPath.normalized name := by
  rw [← p.container_child name] at hread
  have hlocate := exists_locate_iff (m := m) hread
  rw [VirtualPath.entryName_child_eq] at hlocate
  rw [← hlocate, ← VirtualPath.entryName_child_eq p, Ne, ← VirtualPath.isRoot_iff,
    Bool.not_eq_true]
  exact exists_openPath_iff

/-- An entry with a normal name is there under the path of its name, which opens the first entry of
that name. -/
lemma exists_openPath_of_isNormal {r : Record}
    (hread : host.files.read (p.container host.environment) = .ok bytes)
    (hr : r ∈ (Walk.start bytes (m.regime bytes.length)).records.1) (hne : r.name ≠ "")
    (hnormal : VirtualPath.IsNormal r.name) :
    m.contains host (p.child r.name) = true ∧ ∃ first w,
      (Walk.start bytes (m.regime bytes.length)).stops.find?
          (fun stop => stop.1.name = r.name) = some (first, w) ∧
        ∀ mode, m.openPath host (p.child r.name) mode =
          .ok (Handle.ofStream (p.child r.name) w (m.size host (p.child r.name))
            m.settings.skipBufferSize) := by
  have hname : (p.child r.name).entryName = r.name := p.entryName_child r.name hnormal
  have hroot : (p.child r.name).isRoot = false :=
    VirtualPath.isRoot_eq_false (by rw [hname]; exact hne)
  have hread' := hread
  rw [← p.container_child r.name] at hread'
  obtain ⟨first, w, hlocate⟩ := (exists_locate_iff hread').mpr ⟨r, hr, hname.symm⟩
  have hstop := (locate_eq_some_iff_stop hread').mp hlocate
  rw [hname] at hstop
  refine ⟨contains_eq_true_iff.mpr (.inr ⟨first, w, hlocate⟩), first, w, hstop, fun mode => ?_⟩
  exact openPath_of_openEntry hroot (openEntry_eq_ok_iff.mpr ⟨first, hlocate⟩) mode

/-- Every record with a normal name, if that is not empty, is reached by the path of its name: it is
there, and it opens as the first entry of that name.  Any name at all leads to what it becomes by
normalising: that is there if it is empty or the name of a record, and it opens if it is the name of a
record and not empty. -/
theorem reaches_child {m : Mount} {host : Host} {p : VirtualPath} {bytes : Bytes}
    (hread : host.files.read (p.container host.environment) = .ok bytes) :
    (∀ r ∈ (Walk.start bytes (m.regime bytes.length)).records.1, r.name ≠ "" →
      VirtualPath.IsNormal r.name →
        m.contains host (p.child r.name) = true ∧ ∃ first w,
          (Walk.start bytes (m.regime bytes.length)).stops.find?
              (fun stop => stop.1.name = r.name) = some (first, w) ∧
            ∀ mode, m.openPath host (p.child r.name) mode =
              .ok (Handle.ofStream (p.child r.name) w (m.size host (p.child r.name))
                m.settings.skipBufferSize)) ∧
    (∀ name, m.contains host (p.child name) = true ↔ VirtualPath.normalized name = "" ∨
      ∃ r ∈ (Walk.start bytes (m.regime bytes.length)).records.1,
        r.name = VirtualPath.normalized name) ∧
    ∀ name mode, (∃ h, m.openPath host (p.child name) mode = .ok h) ↔
      VirtualPath.normalized name ≠ "" ∧
        ∃ r ∈ (Walk.start bytes (m.regime bytes.length)).records.1,
          r.name = VirtualPath.normalized name :=
  ⟨fun _ hr hne hnormal => exists_openPath_of_isNormal hread hr hne hnormal,
    fun _ => contains_child_iff hread, fun _ mode => exists_openPath_child_iff hread mode⟩

end Mount

end Reach

namespace Mount

/-- The entry of the nested name is there under the path of that name, and opens. -/
theorem reaches_nested :
    standard.contains (Host.withContainer Part.nested.encode)
        ((VirtualPath.mk "zip2:z!").child "d/a") = true ∧
      ∃ h, standard.openPath (Host.withContainer Part.nested.encode)
        ((VirtualPath.mk "zip2:z!").child "d/a") .read = .ok h := by
  have hread : (Host.withContainer Part.nested.encode).files.read
      ((VirtualPath.mk "zip2:z!").container
        (Host.withContainer Part.nested.encode).environment) = .ok Part.nested.encode :=
    Host.read_container (by cbv) _
  have hlaid : LaidOut true Part.nested.encode [Part.nested.record] := by
    have hcons := LaidOut.cons (Part.framed_nested true) (IsTail.laidOut (.inl rfl))
    rwa [List.append_nil] at hcons
  have hrecords : (Walk.start Part.nested.encode
      (standard.regime Part.nested.encode.length)).records = ([Part.nested.record], none) :=
    Walk.records_eq_iff.mpr hlaid
  have hmem : Part.nested.record ∈ (Walk.start Part.nested.encode
      (standard.regime Part.nested.encode.length)).records.1 := by
    rw [hrecords]
    exact List.mem_singleton_self _
  obtain ⟨hreaches, -⟩ := reaches_child (m := standard) hread
  obtain ⟨hthere, first, w, -, hopen⟩ := hreaches Part.nested.record hmem (by decide)
    ⟨by decide, by decide⟩
  exact ⟨hthere, _, hopen .read⟩

end Mount

/-- A stored byte whose name has a backslash. -/
def Part.backslashed : Part where
  header := ⟨20, 2048, 0, 0, 0, 0xA505DF1B, 1, 1, [97, 92, 98], []⟩
  payload := [1]
  trailer := none
  name := "a\\b"
  uncompressed := 1
  compressed := 1
  data := [1]

/-- The walk passes over the part with the backslash in its name. -/
lemma Part.framed_backslashed (verify : Bool) : backslashed.Framed verify := by
  have hf : backslashed.header.Fits := by constructor <;> decide
  exact {
    trailer_iff := by decide
    trailer_fits := fun t ht => by cases ht
    fits := hf
    names := by unfold LocalHeader.Names; decide
    sizes := LocalHeader.sizes_of_unmarked hf (by decide)
    sized := fun _ => rfl
    unsized := fun h _ => absurd rfl h }

namespace Mount

/-- A container whose one entry has a backslash in its name is scanned to its end, but the path of
that name leads to an entry that is not there. -/
theorem not_reaches_backslashed :
    standard.Scans (Host.withContainer Part.backslashed.encode) ⟨"zip2:z!"⟩
        [Part.backslashed.record] ∧
      Part.backslashed.record.name ≠ "" ∧
      standard.contains (Host.withContainer Part.backslashed.encode)
        ((VirtualPath.mk "zip2:z!").child Part.backslashed.record.name) = false ∧
      ¬ ∃ h, standard.openPath (Host.withContainer Part.backslashed.encode)
        ((VirtualPath.mk "zip2:z!").child Part.backslashed.record.name) .read = .ok h := by
  have hread : (Host.withContainer Part.backslashed.encode).files.read
      ((VirtualPath.mk "zip2:z!").container
        (Host.withContainer Part.backslashed.encode).environment) =
      .ok Part.backslashed.encode :=
    Host.read_container (by cbv) _
  have hlaid : LaidOut true Part.backslashed.encode [Part.backslashed.record] := by
    have hcons := LaidOut.cons (Part.framed_backslashed true) (IsTail.laidOut (.inl rfl))
    rwa [List.append_nil] at hcons
  have hrecords : (Walk.start Part.backslashed.encode
      (standard.regime Part.backslashed.encode.length)).records =
        ([Part.backslashed.record], none) := Walk.records_eq_iff.mpr hlaid
  have hname : VirtualPath.normalized Part.backslashed.record.name = "a/b" := by cbv
  have hnone : ¬ ∃ r ∈ (Walk.start Part.backslashed.encode
      (standard.regime Part.backslashed.encode.length)).records.1, r.name = "a/b" := by
    rw [hrecords]
    rintro ⟨r, hr, hr'⟩
    obtain rfl := List.mem_singleton.mp hr
    exact absurd hr' (by decide)
  refine ⟨⟨_, hread, hrecords⟩, by decide, ?_, ?_⟩
  · rw [Bool.eq_false_iff, Ne, contains_child_iff hread, hname]
    rintro (hempty | hthere)
    · exact absurd hempty (by decide)
    · exact hnone hthere
  · rw [exists_openPath_child_iff hread, hname]
    rintro ⟨-, hthere⟩
    exact hnone hthere

end Mount

end ZipMount
