import ZipMount.Proofs.Mount.Lookup
import ZipMount.Proofs.Path.Child
import ZipMount.Registry

/-!
# Listings describe one tree

Nothing in a container says which directories it has.  A listing makes them up from the names of the
entries: a child is what a name in the directory goes on with, up to the next slash
(`childName_eq_some_iff`), and a question about a child is answered by a scan of its own, which may
stop at any entry that has the name or nests below it.

They agree as long as a path can be written for every name, that is, unless a name has a backslash.
Every child that is listed is there or is a directory (`Scans.of_mem_listed`).  Every name made of
components is reached from the root, component by component, along children that are listed once
(`Scans.descends`).  And no path that is handed out leads out of the container (`dispatched_child`).
-/

namespace ZipMount

namespace Mount

/-! ## Children of a directory -/

/-- A child of a directory is what an entry in it goes on with, up to the next slash or to its end. -/
lemma childName_eq_some_iff {front entry name : List Char} :
    childName front entry = some name ↔ ∃ component tail, component ≠ [] ∧ '/' ∉ component ∧
      name = front ++ component ∧ entry = name ++ tail ∧ (tail = [] ∨ tail.head? = some '/') := by
  unfold childName
  constructor
  · intro h
    split at h
    next hfront =>
      obtain ⟨rest, rfl⟩ := List.isPrefixOf_iff_prefix.mp hfront
      rw [List.drop_left] at h
      split at h
      next => cases h
      next component hne =>
        cases h
        refine ⟨_, rest.dropWhile (· ≠ '/'), hne, ?_, rfl, ?_, ?_⟩
        · intro hmem
          have hslash := List.mem_takeWhile_imp hmem
          exact absurd hslash (by decide)
        · rw [List.append_assoc, List.takeWhile_append_dropWhile]
        · have hnot := List.head?_dropWhile_not (fun c => decide (c ≠ '/')) rest
          rcases hhead : (rest.dropWhile (· ≠ '/')).head? with _ | c
          · exact .inl (List.head?_eq_none_iff.mp hhead)
          · rw [hhead] at hnot
            right
            have hc : c = '/' := by simpa using hnot
            rw [hc]
    next => cases h
  · rintro ⟨component, tail, hne, hslash, rfl, rfl, htail⟩
    have hall : ∀ c ∈ component, decide (c ≠ '/') = true := by
      intro c hc
      apply decide_eq_true
      rintro rfl
      exact hslash hc
    have hstop : tail.takeWhile (fun c => decide (c ≠ '/')) = [] := by
      rcases htail with rfl | hhead
      · rfl
      · obtain ⟨rest, rfl⟩ := List.head?_eq_some_iff.mp hhead
        rfl
    have hfront : front.isPrefixOf (front ++ component ++ tail) = true := by
      rw [List.isPrefixOf_iff_prefix, List.append_assoc]
      exact List.prefix_append _ _
    rw [if_pos hfront, List.append_assoc, List.drop_left, List.takeWhile_append_of_pos hall, hstop,
      List.append_nil]
    rcases component with _ | ⟨c, cs⟩
    · exact absurd rfl hne
    · rfl

/-- The children of a directory are those that entries give rise to. -/
lemma mem_children_iff {directory name : String} {entries : List String} :
    name ∈ children directory entries ↔
      ∃ e ∈ entries, childName (directoryPrefix directory) e.toList = some name.toList := by
  unfold children
  rw [List.mem_map]
  constructor
  · rintro ⟨cs, hcs, rfl⟩
    rw [List.mem_eraseDups, List.mem_filterMap] at hcs
    rwa [String.toList_ofList]
  · rintro hname
    refine ⟨name.toList, ?_, String.ofList_toList⟩
    rw [List.mem_eraseDups, List.mem_filterMap]
    exact hname

/-- Erasing duplicates leaves none. -/
lemma nodup_eraseDups {α : Type} [BEq α] [LawfulBEq α] (l : List α) : l.eraseDups.Nodup := by
  induction hlen : l.length using Nat.strong_induction_on generalizing l with
  | h n ih =>
    subst hlen
    rcases l with _ | ⟨a, l⟩
    · exact List.nodup_nil
    · rw [List.eraseDups_cons, List.nodup_cons]
      constructor
      · intro hmem
        rw [List.mem_eraseDups, List.mem_filter] at hmem
        simp at hmem
      · refine ih _ ?_ _ rfl
        exact Nat.lt_succ_of_le (List.length_filter_le _ l)

/-- Each child of a directory is listed once. -/
lemma nodup_children (directory : String) (entries : List String) :
    (children directory entries).Nodup := by
  unfold children
  refine (nodup_eraseDups _).map ?_
  intro a b h
  exact String.ofList_injective h

/-! ## Names made of components -/

/-- The name is made of the given components, with a slash between neighbours and maybe one more at
the end. -/
structure MadeOf (name : String) (components : List String) : Prop where
  ne_empty : ∀ c ∈ components, c ≠ ""
  no_slash : ∀ c ∈ components, '/' ∉ c.toList
  name_eq : name = "/".intercalate components ∨ name = "/".intercalate components ++ "/"

/-- The names that end with each of the given components in turn, behind the ones in front. -/
def waypoints (front : List String) : List String → List String
  | [] => []
  | c :: rest => "/".intercalate (front ++ [c]) :: waypoints (front ++ [c]) rest

example : waypoints [] ["a", "b", "c"] = ["a", "a/b", "a/b/c"] := by decide

/-- Listing a path, then the child of the first name, and so on through all names, finds the child of
each name listed exactly once. -/
inductive Descends [Inflater] (m : Mount) (host : Host) : VirtualPath → List String → Prop
  | here (p : VirtualPath) : Descends m host p []
  | down {p : VirtualPath} {listed : List VirtualPath} {name : String} {names : List String}
      (hlist : m.list host p = .ok listed) (honce : listed.count (p.child name) = 1)
      (rest : Descends m host (p.child name) names) : Descends m host p (name :: names)

section Components

variable {front back : List String} {c name : String}

/-- Behind one or more components, one more is the child of the directory that they name. -/
lemma intercalate_snoc (hne : ∀ d ∈ front, d ≠ "") (hslash : ∀ d ∈ front, '/' ∉ d.toList) :
    ("/".intercalate (front ++ [c])).toList =
      directoryPrefix ("/".intercalate front) ++ c.toList := by
  rcases List.eq_nil_or_concat front with rfl | ⟨init, d, hfront⟩
  · rw [List.nil_append, String.intercalate_singleton]
    rfl
  · obtain rfl : front = init ++ [d] := by rw [hfront, List.concat_eq_append]
    have hd : d.toList ≠ [] := by
      intro hnil
      exact hne d (by simp) (String.toList_eq_nil_iff.mp hnil)
    have hdslash := hslash d (by simp)
    obtain ⟨before, hbefore⟩ : ∃ before, ("/".intercalate (init ++ [d])).toList =
        before ++ d.toList := by
      by_cases hinit : init = []
      · exact ⟨[], by rw [hinit, List.nil_append, String.intercalate_singleton]; rfl⟩
      · refine ⟨("/".intercalate init ++ "/").toList, ?_⟩
        rw [String.intercalate_append_of_ne_nil hinit (List.cons_ne_nil d []),
          String.intercalate_singleton, String.toList_append]
    have hlast : ("/".intercalate (init ++ [d])).toList.getLast? = d.toList.getLast? := by
      rw [hbefore, List.getLast?_append_of_ne_nil _ hd]
    have hopen : ¬ (("/".intercalate (init ++ [d])).toList = [] ∨
        ("/".intercalate (init ++ [d])).toList.getLast? = some '/') := by
      rintro (hnil | hend)
      · rw [hbefore] at hnil
        exact hd (List.append_eq_nil_iff.mp hnil).2
      · rw [hlast] at hend
        exact hdslash (List.mem_of_getLast? hend)
    rw [String.intercalate_append_of_ne_nil (by simp) (List.cons_ne_nil c []),
      String.intercalate_singleton, String.toList_append, String.toList_append, directoryPrefix,
      if_neg hopen]
    rfl

namespace MadeOf

/-- Each beginning of a name goes on with nothing or with a slash. -/
lemma exists_tail (h : MadeOf name (front ++ c :: back)) :
    ∃ tail, name.toList = ("/".intercalate (front ++ [c])).toList ++ tail ∧
      (tail = [] ∨ tail.head? = some '/') := by
  have hsplit : front ++ c :: back = (front ++ [c]) ++ back := by simp
  by_cases hback : back = []
  · subst hback
    rcases h.name_eq with rfl | rfl
    · exact ⟨[], (List.append_nil _).symm, .inl rfl⟩
    · exact ⟨['/'], String.toList_append, .inr rfl⟩
  · have hjoin : "/".intercalate (front ++ c :: back) =
        "/".intercalate (front ++ [c]) ++ "/" ++ "/".intercalate back := by
      rw [hsplit]
      exact String.intercalate_append_of_ne_nil (by simp) hback
    rcases h.name_eq with heq | heq
    · refine ⟨'/' :: ("/".intercalate back).toList, ?_, .inr rfl⟩
      rw [heq, hjoin, String.toList_append, String.toList_append, List.append_assoc]
      rfl
    · refine ⟨'/' :: ("/".intercalate back ++ "/").toList, ?_, .inr rfl⟩
      rw [heq, hjoin, String.toList_append, String.toList_append, String.toList_append,
        String.toList_append, List.append_assoc, List.append_assoc]
      rfl

/-- The next beginning of a name is a child of the one before it. -/
lemma mem_children (h : MadeOf name (front ++ c :: back)) {entries : List String}
    (hmem : name ∈ entries) :
    "/".intercalate (front ++ [c]) ∈ children ("/".intercalate front) entries := by
  have hc : c ∈ front ++ c :: back := by simp
  obtain ⟨tail, hname, htail⟩ := h.exists_tail
  rw [mem_children_iff]
  refine ⟨name, hmem, childName_eq_some_iff.mpr ⟨c.toList, tail, ?_, h.no_slash c hc, ?_, hname,
    htail⟩⟩
  · intro hnil
    exact h.ne_empty c hc (String.toList_eq_nil_iff.mp hnil)
  · refine intercalate_snoc (fun d hd => ?_) (fun d hd => ?_)
    · exact h.ne_empty d (List.mem_append_left _ hd)
    · exact h.no_slash d (List.mem_append_left _ hd)

/-- A name begins with its first component, not with a slash. -/
lemma head?_ne (h : MadeOf name (c :: back)) : name.toList.head? ≠ some '/' := by
  have hc : c ∈ c :: back := List.mem_cons_self
  have hall : MadeOf name ([] ++ c :: back) := h
  obtain ⟨tail, hname, -⟩ := hall.exists_tail
  rw [List.nil_append, String.intercalate_singleton] at hname
  intro hfirst
  rcases hlist : c.toList with _ | ⟨x, xs⟩
  · exact h.ne_empty c hc (String.toList_eq_nil_iff.mp hlist)
  · rw [hname, hlist] at hfirst
    obtain rfl : x = '/' := Option.some.inj hfirst
    exact h.no_slash c hc (by rw [hlist]; exact List.mem_cons_self)

/-- Each beginning of a name without a backslash is the name of a path. -/
lemma isNormal (h : MadeOf name (front ++ c :: back)) (hback : '\\' ∉ name.toList) :
    VirtualPath.IsNormal ("/".intercalate (front ++ [c])) := by
  obtain ⟨tail, hname, -⟩ := h.exists_tail
  constructor
  · intro hmem
    apply hback
    rw [hname]
    exact List.mem_append_left _ hmem
  · intro hfirst
    have hhead : name.toList.head? = some '/' := by rw [hname, List.head?_append, hfirst]; rfl
    rcases front with _ | ⟨d, front⟩
    · exact h.head?_ne hhead
    · exact MadeOf.head?_ne (c := d) h hhead

end MadeOf

end Components

/-! ## Listed paths -/

section Listed

variable {directory name : String} {component tail : List Char}

/-- Behind a last component, entries nest below a name with a slash. -/
lemma nestPrefix_eq {front : List Char} (hname : name.toList = front ++ component)
    (hne : component ≠ []) (hslash : '/' ∉ component) : nestPrefix name = name.toList ++ ['/'] := by
  have hlast : component.getLast hne ≠ '/' := by
    intro h
    exact hslash (h ▸ List.getLast_mem hne)
  have hsplit : name.toList = (front ++ component.dropLast) ++ [component.getLast hne] := by
    rw [hname, List.append_assoc, List.dropLast_append_getLast hne]
  have hkeep : name.toList.reverse.dropWhile (· = '/') = name.toList.reverse := by
    rw [hsplit, List.reverse_append]
    exact List.dropWhile_cons_of_neg (by simpa using hlast)
  rw [nestPrefix, hkeep, List.reverse_reverse]

/-- What a listing takes for the name of a child is the name of a path, if the names of the entries
have no backslash. -/
lemma isNormal_of_mem_children {entries : List String} (hdir : VirtualPath.IsNormal directory)
    (hback : ∀ e ∈ entries, '\\' ∉ e.toList) (h : name ∈ children directory entries) :
    VirtualPath.IsNormal name := by
  obtain ⟨e, he, hchild⟩ := mem_children_iff.mp h
  obtain ⟨component, tail, hne, hslash, hname, hentry, -⟩ := childName_eq_some_iff.mp hchild
  constructor
  · intro hmem
    apply hback e he
    rw [hentry]
    exact List.mem_append_left _ hmem
  · intro hfirst
    rw [hname] at hfirst
    by_cases hempty : directory.toList = []
    · rw [directoryPrefix, if_pos (.inl hempty), hempty, List.nil_append] at hfirst
      exact hslash (List.mem_of_head? hfirst)
    · obtain ⟨c, cs, hcs⟩ := List.exists_cons_of_ne_nil hempty
      apply hdir.no_slash_first
      rw [directoryPrefix] at hfirst
      split at hfirst
      · rw [hcs] at hfirst ⊢
        exact hfirst
      · rw [hcs] at hfirst ⊢
        exact hfirst

end Listed

/-- The untouched scan of the container of a path ends without an error and yields the given
records. -/
def Scans [Inflater] (m : Mount) (host : Host) (p : VirtualPath) (rs : List Record) : Prop :=
  ∃ bytes, host.files.read (p.container host.environment) = .ok bytes ∧
    (Walk.start bytes (m.regime bytes.length)).records = (rs, none)

namespace Scans

variable [LawfulInflater] {m : Mount} {host : Host} {p c : VirtualPath} {rs : List Record} {r : Record}

/-- All paths of a container are about the same records. -/
lemma child (h : m.Scans host p rs) (name : String) : m.Scans host (p.child name) rs := by
  obtain ⟨bytes, hread, hrecords⟩ := h
  exact ⟨bytes, by rw [VirtualPath.container_child, hread], hrecords⟩

/-- A listing succeeds, and has the children that the names of the records give rise to. -/
lemma list_eq (h : m.Scans host p rs) :
    m.list host p = .ok ((children p.entryName (rs.map Record.name)).map p.child) := by
  obtain ⟨bytes, hread, hrecords⟩ := h
  unfold list openContainer
  rw [hread]
  simp only [bind, Except.bind, hrecords]
  rfl

/-- A search in the container stops at the first record that satisfies the condition. -/
lemma exists_find (h : m.Scans host p rs) {q : Record → Bool} (hfind : rs.find? q = some r) :
    ∃ w v, m.openContainer host p = .ok w ∧ w.find q = (.ok (some r), v) := by
  obtain ⟨bytes, hread, hrecords⟩ := h
  obtain ⟨v, hstop⟩ := Walk.find_of_laidOut (Walk.records_eq_iff.mp hrecords) hfind
  refine ⟨Walk.start bytes (m.regime bytes.length), v, ?_, hstop⟩
  unfold openContainer
  rw [hread]

/-- A path with the name of a record is there. -/
lemma contains_of_mem (h : m.Scans host p rs) (hr : r ∈ rs) (hname : r.name = p.entryName) :
    m.contains host p = true := by
  have hsome : (rs.find? (·.name = p.entryName)).isSome = true :=
    List.find?_isSome.mpr ⟨r, hr, decide_eq_true hname⟩
  obtain ⟨first, hfirst⟩ := Option.isSome_iff_exists.mp hsome
  obtain ⟨w, v, hopen, hstop⟩ := h.exists_find hfirst
  exact contains_eq_true_iff.mpr (.inr ⟨first, v, locate_eq_some_iff.mpr ⟨w, hopen, hstop⟩⟩)

/-- A path whose name a record has or nests below is there or is a directory: the first such record
decides which. -/
lemma contains_or_isDirectory (h : m.Scans host p rs) (hr : r ∈ rs)
    (hdecides : decides p.entryName r = true) :
    m.contains host p = true ∨ m.isDirectory host p = true := by
  have hsome : (rs.find? (decides p.entryName)).isSome = true :=
    List.find?_isSome.mpr ⟨r, hr, hdecides⟩
  obtain ⟨first, hfirst⟩ := Option.isSome_iff_exists.mp hsome
  by_cases hname : first.name = p.entryName
  · exact .inl (h.contains_of_mem (List.mem_of_find?_eq_some hfirst) hname)
  · obtain ⟨w, v, hopen, hstop⟩ := h.exists_find hfirst
    have hdir : first.name = p.entryName → first.isDirectory = true := fun heq => absurd heq hname
    exact .inr (isDirectory_eq_true_iff.mpr (.inr ⟨w, first, v, hopen, hstop, hdir⟩))

/-- What is listed is there or is a directory. -/
lemma of_mem_listed (h : m.Scans host p rs) (hback : ∀ r ∈ rs, '\\' ∉ r.name.toList)
    (hc : c ∈ (children p.entryName (rs.map Record.name)).map p.child) :
    m.contains host c = true ∨ m.isDirectory host c = true := by
  obtain ⟨name, hname, rfl⟩ := List.mem_map.mp hc
  have hback' : ∀ e ∈ rs.map Record.name, '\\' ∉ e.toList := by
    intro e he
    obtain ⟨r, hr, rfl⟩ := List.mem_map.mp he
    exact hback r hr
  have hentry := p.entryName_child name
    (isNormal_of_mem_children p.isNormal_entryName hback' hname)
  obtain ⟨e, he, hchild⟩ := mem_children_iff.mp hname
  obtain ⟨component, tail, hne, hslash, hsplit, hrest, htail⟩ := childName_eq_some_iff.mp hchild
  obtain ⟨r, hr, rfl⟩ := List.mem_map.mp he
  refine (h.child name).contains_or_isDirectory hr ?_
  rw [hentry, decides]
  rcases htail with rfl | hhead
  · have heq : r.name = name := by
      rw [List.append_nil] at hrest
      exact String.toList_inj.mp hrest
    rw [decide_eq_true heq, Bool.true_or]
  · obtain ⟨rest, rfl⟩ := List.head?_eq_some_iff.mp hhead
    have hnests : (nestPrefix name).isPrefixOf r.name.toList = true := by
      rw [List.isPrefixOf_iff_prefix, nestPrefix_eq hsplit hne hslash, hrest]
      exact ⟨rest, by rw [List.append_assoc]; rfl⟩
    rw [hnests, Bool.or_true]

/-- From a beginning of the name of a record, listing leads to each next one. -/
lemma descends (h : m.Scans host p rs) (hback : ∀ r ∈ rs, '\\' ∉ r.name.toList) (hr : r ∈ rs)
    {front back : List String} (hmade : MadeOf r.name (front ++ back))
    (hnormal : VirtualPath.IsNormal ("/".intercalate front)) :
    m.Descends host (p.child ("/".intercalate front)) (waypoints front back) := by
  induction back generalizing front with
  | nil => exact .here _
  | cons c back ih =>
    have hnext := hmade.isNormal (hback r hr)
    have hlist := (h.child ("/".intercalate front)).list_eq
    rw [p.entryName_child _ hnormal] at hlist
    have hmem := hmade.mem_children (List.mem_map_of_mem hr)
    refine .down hlist ?_ ?_
    · rw [List.count_map_of_injective _ _ (VirtualPath.child_injective _)]
      exact List.count_eq_one_of_mem (nodup_children _ _) hmem
    · rw [VirtualPath.child_child]
      refine ih ?_ hnext
      rw [List.append_assoc]
      exact hmade

end Scans

/-- A container of framed parts, the only file of its host, is scanned to its end. -/
lemma scans_flatMap_encode {parts : List Part} (h : ∀ a ∈ parts, a.Framed true) {p : VirtualPath}
    (hp : p.container ⟨none, none⟩ = "z") :
    standard.Scans (Host.withContainer (parts.flatMap Part.encode)) p (parts.map Part.record) := by
  have hlaid : LaidOut true (parts.flatMap Part.encode) (parts.map Part.record) :=
    ⟨parts, [], h, .inl rfl, (List.append_nil _).symm, rfl⟩
  exact ⟨_, Host.read_container hp _, Walk.records_eq_iff.mpr hlaid⟩

/-- Whatever name is put behind the root of a container, the path is dispatched to this file system
and leads into the same container. -/
lemma dispatched_child (p : VirtualPath) (name : String) :
    Registry.schemeOf (p.child name).text = some VirtualPath.scheme ∧
      ∀ env, (p.child name).container env = p.container env := by
  refine ⟨?_, p.container_child name⟩
  have htag : (p.child name).text.toList.takeWhile (· ≠ ':') = ['z', 'i', 'p', '2'] := by
    rw [VirtualPath.toList_child]
    rfl
  have hcolon : ':' ∈ (p.child name).text.toList := by
    rw [VirtualPath.toList_child]
    exact List.mem_append_left _ (by decide)
  have hsize : 2 ≤ (String.ofList ['z', 'i', 'p', '2']).utf8ByteSize := by decide
  unfold Registry.schemeOf
  simp only [htag]
  rw [if_pos ⟨hcolon, hsize⟩]
  rfl

/-- Listings, and the questions whether something is there and whether it is a directory, are about
one tree.  In a container that can be scanned to its end and whose names have no backslash, a listing
of any path succeeds, and whatever it lists is there or is a directory; every record whose name is
made of components is reached from the root by listing, component by component, along paths that are
listed once; and the paths that are listed, and that of the parent, are dispatched to this file system
and lead into the same container. -/
theorem list_isTree [LawfulInflater] {m : Mount} {host : Host} {p : VirtualPath} {rs : List Record}
    (h : m.Scans host p rs) (hback : ∀ r ∈ rs, '\\' ∉ r.name.toList) :
    ∃ listed, m.list host p = .ok listed ∧
      (∀ c ∈ listed, m.contains host c = true ∨ m.isDirectory host c = true) ∧
      (∀ r ∈ rs, ∀ components, MadeOf r.name components →
        m.Descends host p.root (waypoints [] components)) ∧
      ∀ c, c ∈ listed ∨ p.parent = some c →
        Registry.schemeOf c.text = some VirtualPath.scheme ∧
          ∀ env, c.container env = p.container env := by
  refine ⟨_, h.list_eq, fun c hc => h.of_mem_listed hback hc, ?_, ?_⟩
  · intro r hr components hmade
    have hall : MadeOf r.name ([] ++ components) := hmade
    have hdescends := h.descends hback hr hall ⟨by decide, by decide⟩
    have hroot : p.child ("/".intercalate []) = p.root := p.child_empty
    rwa [hroot] at hdescends
  · rintro c (hc | hparent)
    · obtain ⟨name, -, rfl⟩ := List.mem_map.mp hc
      exact dispatched_child p name
    · obtain ⟨name, rfl⟩ := VirtualPath.exists_child_of_parent p hparent
      exact dispatched_child p name

end Mount

/-- A stored byte whose name has two components. -/
def Part.nested : Part where
  header := ⟨20, 2048, 0, 0, 0, 0xA505DF1B, 1, 1, [100, 47, 97], []⟩
  payload := [1]
  trailer := none
  name := "d/a"
  uncompressed := 1
  compressed := 1
  data := [1]

/-- The walk passes over the part with the nested name. -/
lemma Part.framed_nested (verify : Bool) : nested.Framed verify := by
  have hf : nested.header.Fits := by constructor <;> decide
  exact {
    trailer_iff := by decide
    trailer_fits := fun t ht => by cases ht
    fits := hf
    names := by unfold LocalHeader.Names; decide
    sizes := LocalHeader.sizes_of_unmarked hf (by decide)
    sized := fun _ => rfl
    unsized := fun h _ => absurd rfl h }

namespace Mount

/-- In a container of one entry, the directory that only its name speaks of is listed in the root,
and the entry in the directory. -/
theorem list_nested :
    ∃ listed, standard.list (Host.withContainer Part.nested.encode) ⟨"zip2:z!d"⟩ = .ok listed ∧
      (∀ c ∈ listed, standard.contains (Host.withContainer Part.nested.encode) c = true ∨
        standard.isDirectory (Host.withContainer Part.nested.encode) c = true) ∧
      standard.Descends (Host.withContainer Part.nested.encode) ⟨"zip2:z!"⟩ ["d", "d/a"] := by
  have hcontainer : (VirtualPath.mk "zip2:z!d").container
      (Host.withContainer Part.nested.encode).environment = "z" := by cbv
  have hlaid : LaidOut true Part.nested.encode [Part.nested.record] := by
    have hcons := LaidOut.cons (Part.framed_nested true) (IsTail.laidOut (.inl rfl))
    rwa [List.append_nil] at hcons
  have hscans : standard.Scans (Host.withContainer Part.nested.encode) ⟨"zip2:z!d"⟩
      [Part.nested.record] := by
    refine ⟨Part.nested.encode, ?_, Walk.records_eq_iff.mpr hlaid⟩
    rw [hcontainer, Host.read_withContainer]
  have hback : ∀ r ∈ [Part.nested.record], '\\' ∉ r.name.toList := by decide
  have hmade : MadeOf Part.nested.record.name ["d", "a"] :=
    ⟨by decide, by decide, .inl (by decide)⟩
  obtain ⟨listed, hlist, hthere, hdescends, -⟩ := list_isTree hscans hback
  exact ⟨listed, hlist, hthere, hdescends _ List.mem_cons_self _ hmade⟩

end Mount

end ZipMount
