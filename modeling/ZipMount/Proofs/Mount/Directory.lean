import ZipMount.Proofs.Mount.Reach
import ZipMount.Proofs.Path.Parent

/-!
# What is a directory

Whether a path is a directory is decided by the first entry that has its name or nests below it, slashes
at the end of the name apart.  An entry of the very name is a directory if it ends with a slash, and
then it nests below its own name (`trimmed_prefix_self_iff`); so a path is a directory just if some
entry nests below it and no file of the name comes earlier (`NestsFirst`).

An ancestor of an entry has a beginning of its name with a slash behind it, so the entry nests below
it, whatever slashes stand around the cut (`trimmed_prefix`).
-/

namespace ZipMount

/-- A search that stops at a record stops at the first one that satisfies the condition. -/
lemma Walk.exists_find_iff [LawfulInflater] {w : Walk} {q : Record → Bool} {r : Record} :
    (∃ v, w.find q = (.ok (some r), v)) ↔ w.records.1.find? q = some r := by
  have hstops : w.records.1.find? q =
      (w.stops.find? fun stop => q stop.1).map Prod.fst := by
    rw [records_eq_stops, List.find?_map]
    rfl
  simp only [find_eq_some_iff]
  rw [hstops, Option.map_eq_some_iff]
  constructor
  · rintro ⟨v, hfind⟩
    exact ⟨(r, v), hfind, rfl⟩
  · rintro ⟨⟨r', v⟩, hfind, rfl⟩
    exact ⟨v, hfind⟩

namespace Mount

/-! ## Nesting below a name -/

section Trimmed

variable {name : String} {front back : List Char}

/-- Whatever goes on with a slash goes on with one when the slashes at its end are dropped. -/
lemma trimmed_prefix : front.rdropWhile (· = '/') ++ ['/'] <+: front ++ '/' :: back := by
  induction front using List.reverseRecOn generalizing back with
  | nil => exact ⟨back, rfl⟩
  | append_singleton front c ih =>
    by_cases hc : c = '/'
    · rw [List.rdropWhile_concat_pos (fun c => decide (c = '/')) front c (decide_eq_true hc), hc,
        List.append_assoc]
      exact ih
    · rw [List.rdropWhile_concat_neg _ _ _ (by simpa using hc)]
      exact ⟨back, by rw [List.append_assoc (front ++ [c])]; rfl⟩

/-- A name nests below itself if it ends with a slash. -/
lemma trimmed_prefix_self_iff :
    name.toList.rdropWhile (· = '/') ++ ['/'] <+: name.toList ↔
      name.toList.getLast? = some '/' := by
  constructor
  · intro hnests
    by_contra hlast
    have hkeep : name.toList.rdropWhile (· = '/') = name.toList := by
      rw [List.rdropWhile_eq_self_iff]
      intro hne hslash
      apply hlast
      rw [List.getLast?_eq_some_getLast hne, of_decide_eq_true hslash]
    rw [hkeep] at hnests
    have hlen := hnests.length_le
    rw [List.length_append, List.length_singleton] at hlen
    exact absurd hlen (Nat.not_succ_le_self _)
  · intro hlast
    obtain ⟨front, hfront⟩ := List.getLast?_eq_some_iff.mp hlast
    rw [hfront,
      List.rdropWhile_concat_pos (fun c => decide (c = '/')) front '/' (decide_eq_true rfl)]
    exact trimmed_prefix

end Trimmed

/-- One of the records nests below the name, slashes at the end of the name apart, and no file of the
very name is in front of it. -/
def NestsFirst (name : String) (rs : List Record) : Prop :=
  ∃ before r after, rs = before ++ r :: after ∧
    name.toList.rdropWhile (· = '/') ++ ['/'] <+: r.name.toList ∧
    ∀ s ∈ before, s.name = name → s.isDirectory = true

section Deciding

variable {name : String} {rs : List Record} {r : Record}

/-- A record decides about a name if it has the name or nests below it. -/
lemma decides_eq_true_iff :
    decides name r = true ↔
      r.name = name ∨ name.toList.rdropWhile (· = '/') ++ ['/'] <+: r.name.toList := by
  rw [decides, Bool.or_eq_true, decide_eq_true_eq, List.isPrefixOf_iff_prefix]
  rfl

/-- A record that decides for a directory nests below the name. -/
lemma trimmed_prefix_of_decides (h : decides name r = true)
    (hdir : r.name = name → r.isDirectory = true) :
    name.toList.rdropWhile (· = '/') ++ ['/'] <+: r.name.toList := by
  rcases decides_eq_true_iff.mp h with hname | hnests
  · have hself := hdir hname
    rw [hname]
    rw [Record.isDirectory, hname] at hself
    exact trimmed_prefix_self_iff.mpr (of_decide_eq_true hself)
  · exact hnests

/-- A record of the name that nests below it is a directory. -/
lemma isDirectory_of_trimmed_prefix
    (h : name.toList.rdropWhile (· = '/') ++ ['/'] <+: r.name.toList) (hname : r.name = name) :
    r.isDirectory = true := by
  rw [hname] at h
  rw [Record.isDirectory, hname]
  exact decide_eq_true (trimmed_prefix_self_iff.mp h)

/-- The first record that decides about a name decides for a directory just if one nests below it and
no file of the name is in front of that. -/
lemma exists_find_decides_iff :
    (∃ r, rs.find? (decides name) = some r ∧ (r.name = name → r.isDirectory = true)) ↔
      NestsFirst name rs := by
  constructor
  · rintro ⟨r, hfind, hdir⟩
    obtain ⟨hdecides, before, after, hsplit, hnone⟩ := List.find?_eq_some_iff_append.mp hfind
    refine ⟨before, r, after, hsplit, trimmed_prefix_of_decides hdecides hdir, ?_⟩
    intro s hs hname
    have hskipped := hnone s hs
    rw [decides_eq_true_iff.mpr (.inl hname)] at hskipped
    cases hskipped
  · rintro ⟨before, r, after, rfl, hnests, hfiles⟩
    -- Either one of the earlier records decides, and is no file of the name, or this one does.
    rcases hfind : before.find? (decides name) with _ | first
    · refine ⟨r, ?_, isDirectory_of_trimmed_prefix hnests⟩
      rw [List.find?_append, hfind, Option.none_or]
      exact List.find?_cons_of_pos (decides_eq_true_iff.mpr (.inr hnests))
    · refine ⟨first, ?_, hfiles first (List.mem_of_find?_eq_some hfind)⟩
      rw [List.find?_append, hfind, Option.some_or]

end Deciding

/-! ## Directories of a container -/

/-- The records of the container of a path that an untouched scan reaches, up to its end or the first
error; none if the container cannot be read. -/
def reached [Inflater] (m : Mount) (host : Host) (p : VirtualPath) : List Record :=
  match m.openContainer host p with
  | .ok w => w.records.1
  | .error _ => []

section Reached

variable [LawfulInflater] {m : Mount} {host : Host} {p q : VirtualPath}
  {rs before after : List Record} {r : Record}

/-- A scan to the end reaches all records. -/
lemma reached_of_scans (h : m.Scans host p rs) : m.reached host p = rs := by
  obtain ⟨bytes, hread, hrecords⟩ := h
  unfold reached openContainer
  rw [hread]
  simp only [hrecords]

/-- The paths of a container are about the same records. -/
lemma reached_child (m : Mount) (host : Host) (p : VirtualPath) (name : String) :
    m.reached host (p.child name) = m.reached host p := by
  unfold reached openContainer
  rw [VirtualPath.container_child]

/-- A search in the container stops at the first record that is reached and satisfies the
condition. -/
lemma exists_find_reached_iff {c : Record → Bool} :
    (∃ v w, m.openContainer host p = .ok v ∧ v.find c = (.ok (some r), w)) ↔
      (m.reached host p).find? c = some r := by
  unfold reached
  rcases m.openContainer host p with e | v
  · constructor
    · rintro ⟨v, w, hv, -⟩
      cases hv
    · intro h
      cases h
  · rw [← Walk.exists_find_iff]
    constructor
    · rintro ⟨v', w, hv, hfind⟩
      obtain rfl : v = v' := Except.ok.inj hv
      exact ⟨w, hfind⟩
    · rintro ⟨w, hfind⟩
      exact ⟨v, w, rfl, hfind⟩

/-- A path that is no root is a directory just if a record is reached that nests below its name, and
no file of the name before it. -/
lemma isDirectory_iff_nestsFirst (hroot : p.isRoot = false) :
    m.isDirectory host p = true ↔ NestsFirst p.entryName (m.reached host p) := by
  rw [isDirectory_eq_true_iff, hroot, ← exists_find_decides_iff]
  constructor
  · rintro (hfalse | ⟨v, r, w, hopen, hfind, hdir⟩)
    · cases hfalse
    · exact ⟨r, exists_find_reached_iff.mp ⟨v, w, hopen, hfind⟩, hdir⟩
  · rintro ⟨r, hfirst, hdir⟩
    obtain ⟨v, w, hopen, hfind⟩ := exists_find_reached_iff.mpr hfirst
    exact .inr ⟨v, r, w, hopen, hfind, hdir⟩

/-- An ancestor of an entry is a directory, unless a file of its name comes before the entry. -/
lemma isDirectory_of_mem_ancestors {limit : Nat}
    (hsplit : m.reached host p = before ++ r :: after) (hnormal : VirtualPath.IsNormal r.name)
    (hq : q ∈ (p.child r.name).ancestors limit)
    (hfiles : ∀ s ∈ before, s.name = q.entryName → s.isDirectory = true) :
    m.isDirectory host q = true := by
  obtain ⟨hne, ⟨back, hback⟩, name, rfl⟩ := VirtualPath.of_mem_ancestors hq
  rw [VirtualPath.child_child] at hne hback hfiles ⊢
  rw [p.entryName_child _ hnormal] at hback
  rw [isDirectory_iff_nestsFirst (VirtualPath.isRoot_eq_false hne), reached_child]
  refine ⟨before, r, after, hsplit, ?_, hfiles⟩
  rw [hback]
  exact trimmed_prefix

end Reached

/-- The directories of a container are the names that its entries nest below.  A path that is no root
is a directory just if the untouched scan reaches, before any error, an entry whose name goes on with a
slash behind the name of the path without its last slashes, and before that no entry of the very name
that does not end with a slash.  So whatever parent of a parent of an entry's path is taken, it is a
directory, if the name of the entry is normal and no file of the parent's name comes before the
entry. -/
theorem directories_of_reached [LawfulInflater] {m : Mount} {host : Host} {p : VirtualPath} :
    (p.isRoot = false →
      (m.isDirectory host p = true ↔ ∃ before r after, m.reached host p = before ++ r :: after ∧
        p.entryName.toList.rdropWhile (· = '/') ++ ['/'] <+: r.name.toList ∧
        ∀ s ∈ before, s.name = p.entryName → s.name.toList.getLast? = some '/')) ∧
    ∀ {before r after}, m.reached host p = before ++ r :: after → VirtualPath.IsNormal r.name →
      ∀ {limit q}, q ∈ (p.child r.name).ancestors limit →
        (∀ s ∈ before, s.name = q.entryName → s.name.toList.getLast? = some '/') →
          m.isDirectory host q = true := by
  refine ⟨fun hroot => ?_, fun {before r after} hsplit hnormal {limit q} hq hfiles => ?_⟩
  · have hiff : m.isDirectory host p = true ↔ NestsFirst p.entryName (m.reached host p) :=
      isDirectory_iff_nestsFirst hroot
    simpa only [NestsFirst, Record.isDirectory, decide_eq_true_eq] using hiff
  · refine isDirectory_of_mem_ancestors hsplit hnormal hq fun s hs hname => ?_
    exact decide_eq_true (hfiles s hs hname)

/-- In a container of one nested entry, the parent of the entry is a directory and the entry is
not. -/
theorem directories_nested :
    standard.isDirectory (Host.withContainer ([Part.nested].flatMap Part.encode))
        ⟨"zip2:z!d"⟩ = true ∧
      standard.isDirectory (Host.withContainer ([Part.nested].flatMap Part.encode))
        ⟨"zip2:z!d/a"⟩ = false := by
  have hframed : ∀ a ∈ [Part.nested], a.Framed true :=
    List.forall_mem_singleton.mpr (Part.framed_nested true)
  have hcontainer : (VirtualPath.mk "zip2:z!d/a").container ⟨none, none⟩ = "z" := by cbv
  have hroot : (VirtualPath.mk "zip2:z!d/a").isRoot = false := by cbv
  have hname : (VirtualPath.mk "zip2:z!d/a").entryName = "d/a" := by cbv
  have hancestors : ((VirtualPath.mk "zip2:z!d/a").child Part.nested.record.name).ancestors 1 =
      [⟨"zip2:z!d"⟩] := by cbv
  have hparent : VirtualPath.mk "zip2:z!d" ∈
      ((VirtualPath.mk "zip2:z!d/a").child Part.nested.record.name).ancestors 1 := by
    rw [hancestors]
    exact List.mem_singleton_self _
  have hreached : standard.reached (Host.withContainer ([Part.nested].flatMap Part.encode))
      ⟨"zip2:z!d/a"⟩ = [] ++ [Part.nested.record] :=
    reached_of_scans (scans_flatMap_encode hframed hcontainer)
  obtain ⟨hiff, hup⟩ := @directories_of_reached _ standard
    (Host.withContainer ([Part.nested].flatMap Part.encode)) ⟨"zip2:z!d/a"⟩
  constructor
  · refine hup hreached ⟨by decide, by decide⟩ hparent fun s hs => ?_
    exact absurd hs List.not_mem_nil
  · rw [Bool.eq_false_iff, Ne, hiff hroot, hreached, hname]
    rintro ⟨before, r, after, heq, hnests, -⟩
    have hr : r ∈ [Part.nested.record] := by
      rw [← List.nil_append [_], heq]
      exact List.mem_append_right _ List.mem_cons_self
    obtain rfl := List.mem_singleton.mp hr
    exact absurd hnests (by decide)

end Mount

end ZipMount
