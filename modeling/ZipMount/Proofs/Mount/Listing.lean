import ZipMount.Proofs.Mount.Tree

/-!
# What a listing holds

`Mount.children` goes through the names of the entries once, cuts each one off at the next slash behind
the directory, and keeps what it has not seen before.  What comes out is described here without any
cutting: a name is listed if it is the directory's prefix and one more component, and some entry has
that name or nests below it (`GivesRise`); and a name stands in front of another if the first entry
that gives rise to it does (`IsListing`).

That leaves no choice of what a listing is (`IsListing.unique`), and the order of the entries matters
for nothing but its order (`IsListing.perm`).
-/

namespace ZipMount

section FirstOccurrences

variable {α β : Type} [BEq β] [LawfulBEq β] [DecidableEq β]

/-- Dropping one value does not change where another is first given rise to. -/
lemma findIdx_filter_ne (f : α → Option β) (l : List α) {a b : β} (hb : b ≠ a) :
    l.findIdx (fun x => (f x).filter (fun c => !c == a) = some b) =
      l.findIdx fun x => f x = some b := by
  have hkeep : ∀ x, (f x).filter (fun c => !c == a) = some b ↔ f x = some b := by
    intro x
    simp [Option.filter_eq_some_iff, hb]
  simp only [hkeep]

/-- The distinct values that a list gives rise to come in the order of the first element that gives
rise to each. -/
lemma pairwise_eraseDups_filterMap (f : α → Option β) (l : List α) :
    (l.filterMap f).eraseDups.Pairwise fun a b =>
      l.findIdx (fun x => f x = some a) < l.findIdx (fun x => f x = some b) := by
  -- Once a value is kept, all its later occurrences are erased: what is left is what the same list
  -- gives rise to without that value.
  induction l generalizing f with
  | nil => exact List.Pairwise.nil
  | cons x l ih =>
    rcases hx : f x with _ | a
    · rw [List.filterMap_cons_none hx]
      refine (ih f).imp fun {b c} hlt => ?_
      simpa [List.findIdx_cons, hx] using hlt
    · have hothers : (l.filterMap f).filter (fun b => !b == a) =
          l.filterMap fun y => (f y).filter fun b => !b == a := List.filter_filterMap
      have hne : ∀ b ∈ (l.filterMap fun y => (f y).filter fun b => !b == a).eraseDups, b ≠ a := by
        intro b hb
        rw [List.mem_eraseDups, ← hothers, List.mem_filter] at hb
        simpa using hb.2
      have hlater : ∀ b, b ≠ a → (x :: l).findIdx (fun y => f y = some b) =
          l.findIdx (fun y => f y = some b) + 1 := by
        intro b hb
        simp [List.findIdx_cons, hx, hb.symm]
      rw [List.filterMap_cons_some hx, List.eraseDups_cons, hothers, List.pairwise_cons]
      constructor
      · intro b hb
        rw [hlater b (hne b hb), List.findIdx_cons, decide_eq_true hx]
        exact Nat.succ_pos _
      · refine (ih _).imp_of_mem fun {b c} hb hc hlt => ?_
        rw [findIdx_filter_ne f l (hne b hb), findIdx_filter_ne f l (hne c hc)] at hlt
        rw [hlater b (hne b hb), hlater c (hne c hc)]
        exact Nat.succ_lt_succ hlt

end FirstOccurrences

namespace Mount

/-- An entry gives rise to a name if it has the name or nests below it. -/
def GivesRise (name entry : String) : Prop :=
  entry = name ∨ name.toList ++ ['/'] <+: entry.toList

instance (name entry : String) : Decidable (GivesRise name entry) :=
  inferInstanceAs (Decidable (_ ∨ _))

example : GivesRise "d" "d/a" ∧ GivesRise "d" "d" ∧ ¬ GivesRise "d" "da" := by decide

/-- The names are the children of a directory whose names begin with the given front.  Each stands
there once; it is the front and one more component, and an entry gives rise to it; and the names are in
the order of the first entries that give rise to them. -/
structure IsListing (front : List Char) (entries names : List String) : Prop where
  nodup : names.Nodup
  mem_iff : ∀ name, name ∈ names ↔ ∃ component, component ≠ [] ∧ '/' ∉ component ∧
    name.toList = front ++ component ∧ ∃ e ∈ entries, GivesRise name e
  in_order : names.Pairwise fun a b =>
    entries.findIdx (GivesRise a ·) < entries.findIdx (GivesRise b ·)

section Children

variable {directory name entry : String} {entries : List String}

/-- What an entry is cut off to is the front and one more component, and the entry gives rise to
it. -/
lemma childName_eq_some_iff_givesRise {front : List Char} :
    childName front entry.toList = some name.toList ↔
      (∃ component, component ≠ [] ∧ '/' ∉ component ∧ name.toList = front ++ component) ∧
        GivesRise name entry := by
  rw [childName_eq_some_iff]
  constructor
  · rintro ⟨component, tail, hne, hslash, hname, hentry, htail⟩
    refine ⟨⟨component, hne, hslash, hname⟩, ?_⟩
    rcases htail with rfl | hhead
    · rw [List.append_nil] at hentry
      exact .inl (String.toList_inj.mp hentry)
    · obtain ⟨rest, rfl⟩ := List.head?_eq_some_iff.mp hhead
      exact .inr ⟨rest, by rw [hentry, List.append_assoc]; rfl⟩
  · rintro ⟨⟨component, hne, hslash, hname⟩, rfl | ⟨rest, hrest⟩⟩
    · exact ⟨component, [], hne, hslash, hname, (List.append_nil _).symm, .inl rfl⟩
    · refine ⟨component, '/' :: rest, hne, hslash, hname, ?_, .inr rfl⟩
      rw [← hrest, List.append_assoc]
      rfl

/-- A name that is listed is what an entry is cut off to just if the entry gives rise to it. -/
lemma childName_iff_of_mem (h : name ∈ children directory entries) :
    childName (directoryPrefix directory) entry.toList = some name.toList ↔
      GivesRise name entry := by
  obtain ⟨e, -, hchild⟩ := mem_children_iff.mp h
  obtain ⟨hcomponent, -⟩ := childName_eq_some_iff_givesRise.mp hchild
  rw [childName_eq_some_iff_givesRise, and_iff_right hcomponent]

/-- The children of a directory are in the order of the first entries that give rise to them. -/
lemma pairwise_children : (children directory entries).Pairwise fun a b =>
    entries.findIdx (GivesRise a ·) < entries.findIdx (GivesRise b ·) := by
  have hcut : (children directory entries).Pairwise fun a b =>
      entries.findIdx (fun e => childName (directoryPrefix directory) e.toList = some a.toList) <
        entries.findIdx fun e => childName (directoryPrefix directory) e.toList = some b.toList := by
    rw [children, List.pairwise_map]
    simp only [String.toList_ofList]
    exact pairwise_eraseDups_filterMap _ entries
  refine hcut.imp_of_mem fun {a b} ha hb hlt => ?_
  simpa only [childName_iff_of_mem ha, childName_iff_of_mem hb] using hlt

/-- What is kept of the entries is the listing. -/
lemma isListing_children (directory : String) (entries : List String) :
    IsListing (directoryPrefix directory) entries (children directory entries) where
  nodup := nodup_children directory entries
  mem_iff name := by
    rw [mem_children_iff]
    constructor
    · rintro ⟨e, he, hchild⟩
      obtain ⟨⟨component, hne, hslash, hname⟩, hrise⟩ :=
        childName_eq_some_iff_givesRise.mp hchild
      exact ⟨component, hne, hslash, hname, e, he, hrise⟩
    · rintro ⟨component, hne, hslash, hname, e, he, hrise⟩
      exact ⟨e, he, childName_eq_some_iff_givesRise.mpr ⟨⟨component, hne, hslash, hname⟩, hrise⟩⟩
  in_order := pairwise_children

end Children

/-- Entries in another order give rise to the same names. -/
lemma IsListing.perm {front : List Char} {entries entries' names names' : List String}
    (h : IsListing front entries names) (h' : IsListing front entries' names')
    (hperm : entries'.Perm entries) : names'.Perm names := by
  rw [List.perm_ext_iff_of_nodup h'.nodup h.nodup]
  intro name
  rw [h.mem_iff, h'.mem_iff]
  simp only [hperm.mem_iff]

/-- The entries leave no choice of what their listing is. -/
lemma IsListing.unique {front : List Char} {entries names names' : List String}
    (h : IsListing front entries names) (h' : IsListing front entries names') : names = names' := by
  refine List.Perm.eq_of_pairwise ?_ h.in_order h'.in_order (h'.perm h (List.Perm.refl entries))
  intro a b _ _ hlt hgt
  exact absurd hgt (Nat.lt_asymm hlt)

/-- The names of the paths in a listing are the names that were kept, if no entry has a backslash in
its name. -/
lemma map_entryName_listed (p : VirtualPath) {entries : List String}
    (hback : ∀ e ∈ entries, '\\' ∉ e.toList) :
    ((children p.entryName entries).map p.child).map VirtualPath.entryName =
      children p.entryName entries := by
  have hname : ∀ name ∈ children p.entryName entries,
      (VirtualPath.entryName ∘ p.child) name = id name := by
    intro name hmem
    exact p.entryName_child name (isNormal_of_mem_children p.isNormal_entryName hback hmem)
  rw [List.map_map, List.map_congr_left hname, List.map_id]

/-- A listing is the direct children of a directory and nothing else.  In a container that can be
scanned to its end and whose names have no backslash, listing a path succeeds; the names of what is
listed are all different, and are just those that consist of the prefix of the directory and one more
component and that an entry has or nests below, in the order of the first such entries.  A container
with the same names in another order has the same listing in another order. -/
theorem list_isListing [LawfulInflater] {m : Mount} {host : Host} {p : VirtualPath} {rs : List Record}
    (h : m.Scans host p rs) (hback : ∀ r ∈ rs, '\\' ∉ r.name.toList) :
    ∃ listed, m.list host p = .ok listed ∧
      IsListing (directoryPrefix p.entryName) (rs.map Record.name)
        (listed.map VirtualPath.entryName) ∧
      ∀ {m' : Mount} {host' : Host} {rs' : List Record}, m'.Scans host' p rs' →
        (rs'.map Record.name).Perm (rs.map Record.name) →
          ∃ listed', m'.list host' p = .ok listed' ∧ listed'.Perm listed := by
  have hback' : ∀ e ∈ rs.map Record.name, '\\' ∉ e.toList := List.forall_mem_map.mpr hback
  have hlisting := isListing_children p.entryName (rs.map Record.name)
  refine ⟨_, h.list_eq, ?_, fun {m' host' rs'} h' hperm => ⟨_, h'.list_eq, ?_⟩⟩
  · rw [map_entryName_listed p hback']
    exact hlisting
  · exact (hlisting.perm (isListing_children p.entryName _) hperm).map p.child

/-- Two containers of a nested entry and another one, in either order.  In the first one the root has
the directory of the nested entry before the other entry, and the second one has the same children. -/
theorem list_nested_stored :
    ∃ listed listed',
      standard.list (Host.withContainer ([Part.nested, Part.stored].flatMap Part.encode))
        ⟨"zip2:z!"⟩ = .ok listed ∧
      listed.map VirtualPath.entryName = ["d", "a"] ∧
      standard.list (Host.withContainer ([Part.stored, Part.nested].flatMap Part.encode))
        ⟨"zip2:z!"⟩ = .ok listed' ∧ listed'.Perm listed := by
  have hframed : ∀ a ∈ [Part.nested, Part.stored], a.Framed true := by
    intro a ha
    simp only [List.mem_cons, List.not_mem_nil, or_false] at ha
    rcases ha with rfl | rfl
    · exact Part.framed_nested true
    · exact Part.honest_stored.framed true
  have hframed' : ∀ a ∈ [Part.stored, Part.nested], a.Framed true := by
    intro a ha
    exact hframed a ((List.Perm.swap _ _ []).mem_iff.mp ha)
  have hcontainer : (VirtualPath.mk "zip2:z!").container ⟨none, none⟩ = "z" := by cbv
  have hroot : (VirtualPath.mk "zip2:z!").entryName = "" := by cbv
  have hchildren : children "" ["d/a", "a"] = ["d", "a"] := by decide
  obtain ⟨listed, hlist, hlisting, hany⟩ :=
    list_isListing (scans_flatMap_encode hframed hcontainer) (by decide)
  obtain ⟨listed', hlist', hperm⟩ :=
    hany (scans_flatMap_encode hframed' hcontainer) (List.Perm.swap _ _ [])
  rw [hroot] at hlisting
  have hsame := hlisting.unique (isListing_children "" ["d/a", "a"])
  exact ⟨listed, listed', hlist, hsame.trans hchildren, hlist', hperm⟩

end Mount

end ZipMount
