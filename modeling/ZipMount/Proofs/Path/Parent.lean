import ZipMount.Proofs.Path.Child

/-!
# Parents and their parents

The parent of a path has the name up to its last slash, without that slash.  The name is put behind
the root and read back like any other, but there is nothing left to normalise in it
(`entryName_parent`).  So however far one goes up, the name that is reached is a beginning of the
first one with a slash behind it, and it is never empty: one stops below the root
(`of_mem_ancestors`).

`Climbs` goes up as far as there are parents.  The main statement is `climbs_by_slashes`: there is one
parent for each slash of the name, and the parent of a child that lies one name deeper is the path it
is a child of.
-/

namespace ZipMount

namespace VirtualPath

variable {p q : VirtualPath}

/-- Where nothing is in front of the last slash, there is no slash. -/
lemma not_mem_of_beforeLastSlash {cs : List Char} (h : beforeLastSlash cs = none) : '/' ∉ cs := by
  induction cs with
  | nil => exact List.not_mem_nil
  | cons c cs ih =>
    rw [beforeLastSlash] at h
    rcases hrest : beforeLastSlash cs with _ | rest
    · rw [hrest] at h
      dsimp only at h
      split at h
      next => cases h
      next hc =>
        intro hmem
        rcases List.mem_cons.mp hmem with heq | hmem
        · exact hc heq.symm
        · exact ih hrest hmem
    · rw [hrest] at h
      cases h

/-- What is in front of the last slash has a slash behind it, and then no more. -/
lemma slash_of_beforeLastSlash {cs front : List Char} (h : beforeLastSlash cs = some front) :
    ∃ back, '/' ∉ back ∧ cs = front ++ '/' :: back := by
  induction cs generalizing front with
  | nil => cases h
  | cons c cs ih =>
    rw [beforeLastSlash] at h
    rcases hrest : beforeLastSlash cs with _ | rest
    · rw [hrest] at h
      dsimp only at h
      split at h
      next hc =>
        obtain rfl : [] = front := Option.some.inj h
        exact ⟨cs, not_mem_of_beforeLastSlash hrest, by rw [hc, List.nil_append]⟩
      next => cases h
    · rw [hrest] at h
      obtain rfl : c :: rest = front := Option.some.inj h
      obtain ⟨back, hno, hback⟩ := ih hrest
      exact ⟨back, hno, by rw [hback, List.cons_append]⟩

/-- What has a slash behind it, and then no more, is in front of the last slash. -/
lemma beforeLastSlash_append {front back : List Char} (h : '/' ∉ back) :
    beforeLastSlash (front ++ '/' :: back) = some front := by
  induction front with
  | nil =>
    have hnone : beforeLastSlash back = none := by
      rcases hback : beforeLastSlash back with _ | front
      · rfl
      · obtain ⟨more, -, hmore⟩ := slash_of_beforeLastSlash hback
        rw [hmore] at h
        exact absurd (List.mem_append_right _ List.mem_cons_self) h
    rw [List.nil_append, beforeLastSlash, hnone]
    rfl
  | cons c front ih => rw [List.cons_append, beforeLastSlash, ih]

/-- In front of a slash in a normal name is a normal name, and not an empty one. -/
lemma IsNormal.of_slash {name : String} {front back : List Char} (h : IsNormal name)
    (hname : name.toList = front ++ '/' :: back) :
    IsNormal (String.ofList front) ∧ front ≠ [] := by
  have hne : front ≠ [] := by
    rintro rfl
    exact h.no_slash_first (by rw [hname]; rfl)
  refine ⟨⟨?_, ?_⟩, hne⟩
  · rw [String.toList_ofList]
    intro hmem
    apply h.no_backslash
    rw [hname]
    exact List.mem_append_left _ hmem
  · rw [String.toList_ofList]
    intro hfirst
    apply h.no_slash_first
    rw [hname, List.head?_append_of_ne_nil _ hne, hfirst]

/-- The name of a parent is what is in front of the last slash, and not empty. -/
lemma entryName_parent (h : p.parent = some q) :
    q.entryName ≠ "" ∧
      ∃ back, '/' ∉ back ∧ p.entryName.toList = q.entryName.toList ++ '/' :: back := by
  obtain ⟨front, hfront, rfl⟩ := Option.map_eq_some_iff.mp h
  obtain ⟨back, hno, hback⟩ := slash_of_beforeLastSlash hfront
  obtain ⟨hnormal, hne⟩ := p.isNormal_entryName.of_slash hback
  rw [p.entryName_child _ hnormal]
  refine ⟨?_, back, hno, ?_⟩
  · intro hempty
    exact hne (String.ofList_eq_empty_iff.mp hempty)
  · rw [String.toList_ofList, hback]

/-- The name of an ancestor is a beginning with a slash behind it, and not empty; and an ancestor is
in the same container. -/
lemma of_mem_ancestors {limit : Nat} (h : q ∈ p.ancestors limit) :
    q.entryName ≠ "" ∧ (∃ back, p.entryName.toList = q.entryName.toList ++ '/' :: back) ∧
      ∃ name, q = p.child name := by
  induction limit generalizing p with
  | zero => exact absurd h List.not_mem_nil
  | succ limit ih =>
    rw [ancestors] at h
    rcases hparent : p.parent with _ | parent
    · rw [hparent] at h
      exact absurd h List.not_mem_nil
    · rw [hparent] at h
      obtain ⟨hne, back, -, hback⟩ := entryName_parent hparent
      obtain ⟨name, hname⟩ := exists_child_of_parent p hparent
      rcases List.mem_cons.mp h with rfl | habove
      · exact ⟨hne, ⟨back, hback⟩, name, hname⟩
      · obtain ⟨hne', ⟨back', hback'⟩, name', hname'⟩ := ih habove
        refine ⟨hne', ⟨back' ++ '/' :: back, ?_⟩, name', ?_⟩
        · rw [hback, hback', List.append_assoc, List.cons_append]
        · rw [hname', hname, child_child]

/-! ## As far up as there are parents -/

/-- Going from a path to its parent again and again leads through the given paths, and the last of
them has no parent. -/
inductive Climbs : VirtualPath → List VirtualPath → Prop
  | top {p : VirtualPath} (h : p.parent = none) : Climbs p []
  | up {p q : VirtualPath} {above : List VirtualPath} (h : p.parent = some q)
      (rest : Climbs q above) : Climbs p (q :: above)

variable {chain : List VirtualPath}

/-- The ancestors up to a limit are the first ones of the whole chain. -/
lemma Climbs.ancestors_eq (h : p.Climbs chain) (limit : Nat) :
    p.ancestors limit = chain.take limit := by
  induction h generalizing limit with
  | top hparent =>
    cases limit with
    | zero => rfl
    | succ limit => rw [ancestors, hparent, List.take_nil]
  | up hparent _ ih =>
    cases limit with
    | zero => rfl
    | succ limit => rw [ancestors, hparent, List.take_succ_cons, ← ih]

/-- Each path of the chain has the name of the one below it, cut before its last slash. -/
lemma Climbs.isChain (h : p.Climbs chain) :
    List.IsChain (fun a b : VirtualPath =>
      ∃ last : String, '/' ∉ last.toList ∧ a.entryName = b.entryName ++ "/" ++ last)
      (p :: chain) := by
  induction h with
  | top _ => exact List.isChain_singleton _
  | up hparent _ ih =>
    obtain ⟨-, back, hno, hback⟩ := entryName_parent hparent
    refine List.isChain_cons_cons.mpr ⟨⟨String.ofList back, ?_, ?_⟩, ih⟩
    · rwa [String.toList_ofList]
    · apply String.toList_inj.mp
      simp [hback]

/-- A path without a parent has a name without a slash. -/
lemma not_mem_of_parent_eq_none (h : p.parent = none) : '/' ∉ p.entryName.toList :=
  not_mem_of_beforeLastSlash (Option.map_eq_none_iff.mp h)

/-- The name of a parent has one slash less. -/
lemma count_of_parent (h : p.parent = some q) :
    p.entryName.toList.count '/' = q.entryName.toList.count '/' + 1 := by
  obtain ⟨-, back, hno, hback⟩ := entryName_parent h
  rw [hback, List.count_append, List.count_cons_self, List.count_eq_zero_of_not_mem hno]

/-- One can go up once for each slash of the name. -/
lemma exists_climbs (p : VirtualPath) :
    ∃ chain, p.Climbs chain ∧ chain.length = p.entryName.toList.count '/' := by
  -- The induction is on the number of slashes, of which every parent has one less.
  induction hcount : p.entryName.toList.count '/' generalizing p with
  | zero =>
    rcases hparent : p.parent with _ | q
    · exact ⟨[], .top hparent, rfl⟩
    · have hless := count_of_parent hparent
      omega
  | succ n ih =>
    rcases hparent : p.parent with _ | q
    · have hnone := List.count_eq_zero_of_not_mem (not_mem_of_parent_eq_none hparent)
      omega
    · have hless := count_of_parent hparent
      obtain ⟨above, habove, hlen⟩ := ih q (by omega)
      exact ⟨q :: above, .up hparent habove, by rw [List.length_cons, hlen]⟩

/-- A normal name with one more name behind it is normal. -/
lemma IsNormal.append_slash {name last : String} (h : IsNormal name) (hne : name ≠ "")
    (hlast : '\\' ∉ last.toList) : IsNormal (name ++ "/" ++ last) := by
  have htext : (name ++ "/" ++ last).toList = name.toList ++ '/' :: last.toList := by simp
  constructor
  · rw [htext]
    intro hmem
    rcases List.mem_append.mp hmem with hname | hmem
    · exact h.no_backslash hname
    · rcases List.mem_cons.mp hmem with hslash | hmem
      · exact absurd hslash (by decide)
      · exact hlast hmem
  · rw [htext, List.head?_append_of_ne_nil _ fun hnil => hne (String.toList_eq_nil_iff.mp hnil)]
    exact h.no_slash_first

/-- The parent of a path one name deeper. -/
lemma parent_child_append (q : VirtualPath) {c : String} (hne : q.entryName ≠ "")
    (hslash : '/' ∉ c.toList) (hback : '\\' ∉ c.toList) :
    (q.child (q.entryName ++ "/" ++ c)).parent = some (q.child q.entryName) := by
  have hname := q.entryName_child _ (q.isNormal_entryName.append_slash hne hback)
  have htext : (q.entryName ++ "/" ++ c).toList = q.entryName.toList ++ '/' :: c.toList := by
    simp
  rw [parent, hname, htext, beforeLastSlash_append hslash, Option.map_some, String.ofList_toList,
    child_child]

/-- How far up one can go.  From every path, going to the parent leads through as many paths as the
name has slashes, and then there is none.  All of them are in the container of the path and name an
entry, and each has the name of the one below it, cut before its last slash.  The other way round, the
parent of a path that lies one name deeper has the container and the name of the path it lies below. -/
theorem climbs_by_slashes (env : Environment) (p : VirtualPath) :
    (∃ chain, p.Climbs chain ∧ chain.length = p.entryName.toList.count '/' ∧
      (∀ q ∈ chain, q.container env = p.container env ∧ q.entryName ≠ "") ∧
      List.IsChain (fun a b : VirtualPath =>
        ∃ last : String, '/' ∉ last.toList ∧ a.entryName = b.entryName ++ "/" ++ last)
        (p :: chain)) ∧
    ∀ (q : VirtualPath) (c : String), q.entryName ≠ "" → '/' ∉ c.toList → '\\' ∉ c.toList →
      ∃ r, (q.child (q.entryName ++ "/" ++ c)).parent = some r ∧
        r.container env = q.container env ∧ r.entryName = q.entryName := by
  constructor
  · obtain ⟨chain, hclimbs, hlen⟩ := exists_climbs p
    refine ⟨chain, hclimbs, hlen, fun q hq => ?_, hclimbs.isChain⟩
    have hmem : q ∈ p.ancestors chain.length := by
      rwa [hclimbs.ancestors_eq, List.take_length]
    obtain ⟨hne, -, name, rfl⟩ := of_mem_ancestors hmem
    exact ⟨p.container_child name env, hne⟩
  · intro q c hne hslash hback
    exact ⟨q.child q.entryName, q.parent_child_append hne hslash hback,
      q.container_child q.entryName env, q.entryName_child _ q.isNormal_entryName⟩

/-- Two slashes next to each other are two ways up, and a separator in a name is none. -/
theorem climbs_doubled_slash :
    (∃ chain, (VirtualPath.mk "zip2:c!a//b!d").Climbs chain ∧ chain.length = 2 ∧
      VirtualPath.mk "zip2:c!a/" ∈ chain ∧
      (VirtualPath.mk "zip2:c!a/").container ⟨none, none⟩ =
        (VirtualPath.mk "zip2:c!a//b!d").container ⟨none, none⟩) ∧
      ∃ r, ((VirtualPath.mk "zip2:c!a/").child
          ((VirtualPath.mk "zip2:c!a/").entryName ++ "/" ++ "b!d")).parent = some r ∧
        r.entryName = (VirtualPath.mk "zip2:c!a/").entryName := by
  obtain ⟨⟨chain, hclimbs, hlen, hall, -⟩, hchild⟩ :=
    climbs_by_slashes ⟨none, none⟩ ⟨"zip2:c!a//b!d"⟩
  have hcount : (VirtualPath.mk "zip2:c!a//b!d").entryName.toList.count '/' = 2 := by cbv
  have hancestors : (VirtualPath.mk "zip2:c!a//b!d").ancestors 2 =
      [⟨"zip2:c!a/"⟩, ⟨"zip2:c!a"⟩] := by cbv
  have hname : (VirtualPath.mk "zip2:c!a/").entryName = "a/" := by cbv
  have hmem : VirtualPath.mk "zip2:c!a/" ∈ chain := by
    have hchain := hclimbs.ancestors_eq 2
    rw [hancestors] at hchain
    have hfirst : VirtualPath.mk "zip2:c!a/" ∈ chain.take 2 := by
      rw [← hchain]
      exact List.mem_cons_self
    exact List.mem_of_mem_take hfirst
  have hne : (VirtualPath.mk "zip2:c!a/").entryName ≠ "" := by
    rw [hname]
    decide
  obtain ⟨r, hparent, -, hr⟩ := hchild ⟨"zip2:c!a/"⟩ "b!d" hne (by decide) (by decide)
  exact ⟨⟨chain, hclimbs, hlen.trans hcount, hmem, (hall _ hmem).1⟩, r, hparent, hr⟩

end VirtualPath

end ZipMount
