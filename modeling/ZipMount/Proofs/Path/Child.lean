import Mathlib
import ZipMount.VirtualPath

/-!
# Paths to the entries of one container

`VirtualPath.child` puts the name of an entry behind the root of a container.  The parts of such a
path are read back from its text: the container is the same (`container_child`), and the entry has
the given name after normalising (`entryName_child_eq`), which changes only backslashes and slashes in
front.  Names that come out of a path are never changed (`isNormal_entryName`), so the path that is
read from the root and the entry name of another one has the same parts, and reading it once more
changes nothing (`parts_read_back`).
-/

namespace ZipMount

namespace VirtualPath

/-- The name is one that normalising leaves alone: it has no backslashes, and no slash in front. -/
structure IsNormal (name : String) : Prop where
  no_backslash : '\\' ∉ name.toList
  no_slash_first : name.toList.head? ≠ some '/'

/-- Normalising leaves a normal name alone. -/
lemma normalize_of_isNormal {name : String} (h : IsNormal name) :
    normalize name.toList = name.toList := by
  have hslashed : ∀ c ∈ name.toList, slashed c = id c := by
    intro c hc
    have hne : c ≠ '\\' := by
      rintro rfl
      exact h.no_backslash hc
    rw [slashed, if_neg hne, id]
  have hmap : name.toList.map slashed = name.toList := by
    rw [List.map_congr_left hslashed, List.map_id]
  rw [normalize, hmap]
  cases hname : name.toList with
  | nil => rfl
  | cons c cs =>
    have hfirst : c ≠ '/' := by
      rintro rfl
      exact h.no_slash_first (by rw [hname]; rfl)
    exact List.dropWhile_cons_of_neg (by simpa using hfirst)

/-- The name that a path has when the given one is written into it. -/
def normalized (name : String) : String :=
  String.ofList (normalize name.toList)

/-- A normal name is not changed. -/
lemma normalized_of_isNormal {name : String} (h : IsNormal name) : normalized name = name := by
  rw [normalized, normalize_of_isNormal h, String.ofList_toList]

variable (p : VirtualPath) (name : String)

/-- The name of the entry of a path is normal. -/
lemma isNormal_entryName : IsNormal p.entryName := by
  constructor
  · intro hmem
    rw [entryName, String.toList_ofList] at hmem
    obtain ⟨c, -, hc⟩ := List.mem_map.mp ((List.dropWhile_sublist _).subset hmem)
    unfold slashed at hc
    split at hc
    next => exact absurd hc (by decide)
    next hne => exact hne hc
  · intro hfirst
    rw [entryName, String.toList_ofList] at hfirst
    have hnot := List.head?_dropWhile_not (fun c => decide (c = '/'))
      ((afterSeparator p.text.toList).map slashed)
    rw [normalize] at hfirst
    rw [hfirst] at hnot
    exact absurd hnot (by decide)

/-- The text of a child, part by part. -/
lemma toList_child : (p.child name).text.toList =
    ['z', 'i', 'p', '2', ':'] ++ (containerChars p.text.toList ++ '!' :: name.toList) := by
  simp [child, root, scheme, containerText]

/-- No separator stands in the container part. -/
lemma ne_separator_of_mem {c : Char} (h : c ∈ containerChars p.text.toList) : c ≠ '!' := by
  have hc := List.mem_takeWhile_imp h
  simpa using hc

/-- The container part of a child is that of the path. -/
lemma containerText_child : (p.child name).containerText = p.containerText := by
  have hall : ∀ c ∈ containerChars p.text.toList, decide (c ≠ '!') = true :=
    fun c hc => decide_eq_true (p.ne_separator_of_mem hc)
  have hchild : containerChars (p.child name).text.toList = containerChars p.text.toList := by
    have hscheme : afterScheme (p.child name).text.toList =
        containerChars p.text.toList ++ '!' :: name.toList := by
      rw [toList_child]
      rfl
    rw [containerChars, hscheme, List.takeWhile_append_of_pos hall,
      List.takeWhile_cons_of_neg (by decide), List.append_nil]
  rw [containerText, containerText, hchild]

/-- A child lies in the same container. -/
theorem container_child (env : Environment) : (p.child name).container env = p.container env := by
  rw [container, container, containerText_child]

/-- A child has the given name after normalising. -/
theorem entryName_child_eq : (p.child name).entryName = normalized name := by
  have hall : ∀ c ∈ ['z', 'i', 'p', '2', ':'] ++ containerChars p.text.toList,
      decide (c ≠ '!') = true := by
    intro c hc
    rcases List.mem_append.mp hc with hscheme | hc
    · have htag : ['z', 'i', 'p', '2', ':'].all (fun c => decide (c ≠ '!')) = true := by rfl
      exact List.all_eq_true.mp htag c hscheme
    · exact decide_eq_true (p.ne_separator_of_mem hc)
  have hbehind : afterSeparator (p.child name).text.toList = name.toList := by
    rw [toList_child]
    show (List.dropWhile (fun c => decide (c ≠ '!'))
      (['z', 'i', 'p', '2', ':'] ++ (containerChars p.text.toList ++ '!' :: name.toList))).drop 1 = _
    rw [← List.append_assoc, List.dropWhile_append_of_pos hall,
      List.dropWhile_cons_of_neg (by decide)]
    rfl
  rw [entryName, hbehind, normalized]

/-- A child has the given name if normalising leaves that alone. -/
theorem entryName_child (h : IsNormal name) : (p.child name).entryName = name := by
  rw [entryName_child_eq, normalized_of_isNormal h]

/-- A child has the root of the path. -/
lemma root_child : (p.child name).root = p.root := by
  rw [root, root, containerText_child]

/-- A child of a child is a child. -/
lemma child_child (other : String) : (p.child name).child other = p.child other := by
  rw [child, root_child, ← child]

/-- The child without a name is the root. -/
lemma child_empty : p.child "" = p.root := by
  rw [child, String.append_empty]

/-- Children of different names are different. -/
lemma child_injective : Function.Injective p.child := by
  intro a b h
  exact (String.append_right_inj p.root.text).mp (congrArg text h)

/-- A parent is a child of the root, too. -/
lemma exists_child_of_parent {q : VirtualPath} (h : p.parent = some q) : ∃ name, q = p.child name := by
  obtain ⟨front, -, hfront⟩ := Option.map_eq_some_iff.mp h
  exact ⟨String.ofList front, hfront.symm⟩

/-! ## Reading a path from its parts -/

/-- The path that is read from the root of a path and its entry name. -/
def reread (p : VirtualPath) : VirtualPath :=
  ⟨p.root.text ++ p.entryName⟩

/-- Reading a path from its parts is taking the child of its own name. -/
lemma reread_eq_child : p.reread = p.child p.entryName := rfl

/-- The path read from the parts has the name of the path. -/
lemma entryName_reread : p.reread.entryName = p.entryName := by
  rw [reread_eq_child, p.entryName_child p.entryName p.isNormal_entryName]

/-- Reading from the parts a second time changes nothing. -/
lemma reread_reread : p.reread.reread = p.reread := by
  rw [reread_eq_child p.reread, entryName_reread, reread_eq_child, child_child]

/-- What is read back from the parts of a path, whatever its text and the name of a child hold.  The
entry name has no backslash and no slash in front.  A child has the container and the root of the
path, and the given name with slashes for backslashes and without slashes in front.  The path that is
read from the root and the entry name has the container, the entry name and the root of the path, and
reading it once more gives the same path; so the child of the path's own name is the same entry of the
same container. -/
theorem parts_read_back (env : Environment) :
    ('\\' ∉ p.entryName.toList ∧ p.entryName.toList.head? ≠ some '/') ∧
      ((p.child name).container env = p.container env ∧ (p.child name).root = p.root ∧
        (p.child name).entryName = String.ofList
          ((name.toList.map fun c => if c = '\\' then '/' else c).dropWhile (· = '/'))) ∧
      (p.reread.container env = p.container env ∧ p.reread.entryName = p.entryName ∧
        p.reread.root = p.root ∧ p.reread.reread = p.reread) ∧
      (p.child p.entryName).container env = p.container env ∧
        (p.child p.entryName).entryName = p.entryName := by
  have hnormal := p.isNormal_entryName
  refine ⟨⟨hnormal.no_backslash, hnormal.no_slash_first⟩, ?_, ?_, ?_⟩
  · exact ⟨p.container_child name env, p.root_child name, p.entryName_child_eq name⟩
  · exact ⟨p.container_child p.entryName env, p.entryName_reread, p.root_child p.entryName,
      p.reread_reread⟩
  · exact ⟨p.container_child p.entryName env, p.entryName_child p.entryName hnormal⟩

/-! ## Roots -/

/-- A path is a root if it names no entry. -/
lemma isRoot_iff {p : VirtualPath} : p.isRoot = true ↔ p.entryName = "" := by
  rw [isRoot]
  simp

/-- A path to an entry is no root. -/
lemma isRoot_eq_false {p : VirtualPath} (h : p.entryName ≠ "") : p.isRoot = false := by
  rw [isRoot]
  simpa using h

end VirtualPath

end ZipMount
