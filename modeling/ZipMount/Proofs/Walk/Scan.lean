import ZipMount.Proofs.Layout.Found
import ZipMount.Proofs.Walk.Agreement

/-!
# What a scan accepts

A scan moves from entry to entry and touches none of them.  `Walk.Skims` is a scan that comes to the
end of the entries, and `Walk.Falters` is one that comes to an error.

The main statement is `skims_iff_laidOut`: a scan comes to the end exactly if the container is
`LaidOut`, framed parts one after the other and then a tail, and the records are those of the parts.
Any other container is one in which the scan falters.  One step of the scan is `next_start_eq_some`
at a header and `Part.Headed.next_behindHeader` behind one; a part is what lies between two headers.
-/

namespace ZipMount

/-- Nothing, or bytes that begin with a word that ends the run of entries. -/
def IsTail (tail : Bytes) : Prop :=
  tail = [] ∨ ∃ word ∈ LocalHeader.endSignatures, ∃ more, tail = Bytes.le 4 word ++ more

/-- The container is a sequence of framed parts with the given records, and then a tail. -/
def LaidOut [Inflater] (verify : Bool) (container : Bytes) (rs : List Record) : Prop :=
  ∃ (parts : List Part) (tail : Bytes), (∀ p ∈ parts, p.Framed verify) ∧ IsTail tail ∧
    container = parts.flatMap Part.encode ++ tail ∧ rs = parts.map Part.record

namespace Walk

/-- The records of a run that only moves from entry to entry, and the error it ends with. -/
inductive Falters [Inflater] : Walk → List Record → Error → Prop
  | failed {w w' : Walk} {e : Error} (h : w.next = (.error e, w')) : Falters w [] e
  | entry {w v : Walk} {r : Record} {rs : List Record} {e : Error}
      (h : w.next = (.ok (some r), v)) (rest : Falters v rs e) : Falters w (r :: rs) e

section Runs

variable [LawfulInflater] {w w' v : Walk} {r : Record} {rs : List Record} {e : Error}

/-- A scan from a walk that moves on alike is the same scan. -/
lemma Skims.congr (hs : w'.Skims rs) (h : w.next = w'.next) : w.Skims rs := by
  cases hs with
  | done h' => exact .done (h.trans h')
  | entry h' rest => exact .entry (h.trans h') rest

/-- A scan that falters from a walk that moves on alike falters, too. -/
lemma Falters.congr (hf : w'.Falters rs e) (h : w.next = w'.next) : w.Falters rs e := by
  cases hf with
  | failed h' => exact .failed (h.trans h')
  | entry h' rest => exact .entry (h.trans h') rest

/-- A scan goes on behind the entry it has moved to. -/
lemma Skims.of_entry (hs : w.Skims (r :: rs)) : ∃ v, w.next = (.ok (some r), v) ∧ v.Skims rs := by
  cases hs with
  | entry h rest => exact ⟨_, h, rest⟩

/-- A walk that moves to an error makes no scan. -/
lemma Skims.next_ne_error (hs : w.Skims rs) : w.next ≠ (.error e, w') := by
  intro h
  cases hs with
  | done h' =>
    rw [h] at h'
    cases h'
  | entry h' rest =>
    rw [h] at h'
    cases h'

/-- A scan that comes to the end does not falter. -/
lemma Skims.not_falters {rs' : List Record} (hs : w.Skims rs) : ¬ w.Falters rs' e := by
  intro hf
  induction hf generalizing rs with
  | failed h => exact hs.next_ne_error h
  | entry h rest ih =>
    obtain ⟨more, -, hs'⟩ := skims_next hs rfl h
    exact ih hs'

/-- Scans from one walk that come to the end report the same records. -/
lemma Skims.unique {rs' : List Record} (hs : w.Skims rs) (hs' : w.Skims rs') : rs = rs' := by
  induction hs generalizing rs' with
  | done h =>
    cases hs' with
    | done h' => rfl
    | entry h' rest =>
      rw [h] at h'
      cases h'
  | entry h rest ih =>
    obtain ⟨more, rfl, hmore⟩ := skims_next hs' rfl h
    rw [ih hmore]

/-- Collecting records with enough fuel follows a scan to the end. -/
lemma Skims.sweepWithin_eq (hs : w.Skims rs) {fuel : Nat} (hfuel : rs.length < fuel) :
    ∃ w', w.sweepWithin (fun v => ((), v)) fuel = ((rs.map (·, ()), none), w') := by
  induction hs generalizing fuel with
  | done h =>
    obtain ⟨fuel, rfl⟩ : ∃ k, fuel = k + 1 := ⟨fuel - 1, by omega⟩
    rw [sweepWithin, h]
    exact ⟨_, rfl⟩
  | entry h rest ih =>
    obtain ⟨fuel, rfl⟩ : ∃ k, fuel = k + 1 := ⟨fuel - 1, by omega⟩
    obtain ⟨w', hrest⟩ := ih (Nat.lt_of_succ_lt_succ hfuel)
    rw [sweepWithin, h]
    dsimp only
    rw [hrest]
    exact ⟨w', rfl⟩

/-- Collecting records with enough fuel follows a scan to its error. -/
lemma Falters.sweepWithin_eq (hf : w.Falters rs e) {fuel : Nat} (hfuel : rs.length < fuel) :
    ∃ w', w.sweepWithin (fun v => ((), v)) fuel = ((rs.map (·, ()), some e), w') := by
  induction hf generalizing fuel with
  | failed h =>
    obtain ⟨fuel, rfl⟩ : ∃ k, fuel = k + 1 := ⟨fuel - 1, by omega⟩
    rw [sweepWithin, h]
    exact ⟨_, rfl⟩
  | entry h rest ih =>
    obtain ⟨fuel, rfl⟩ : ∃ k, fuel = k + 1 := ⟨fuel - 1, by omega⟩
    obtain ⟨w', hrest⟩ := ih (Nat.lt_of_succ_lt_succ hfuel)
    rw [sweepWithin, h]
    dsimp only
    rw [hrest]
    exact ⟨w', rfl⟩

end Runs

/-! ## One step -/

variable [LawfulInflater] {regime : Regime}

/-- The entries end exactly at a tail. -/
lemma next_start_eq_none_iff {input : Bytes} :
    (∃ w, (start input regime).next = (.ok none, w)) ↔ IsTail input := by
  rw [next_start]
  by_cases hnil : input = []
  · rw [if_pos hnil]
    exact ⟨fun _ => .inl hnil, fun _ => ⟨_, rfl⟩⟩
  · rw [if_neg hnil]
    constructor
    · rintro ⟨w, h⟩
      split at h
      next => cases h
      next hheader => exact .inr (header_eq_none_iff.mp hheader)
      next => cases h
    · intro htail
      rw [header_eq_none_iff.mpr (htail.resolve_left hnil)]
      exact ⟨_, rfl⟩

/-- An entry is found only at a header that is accepted. -/
lemma next_start_eq_some {input : Bytes} {r : Record} {v : Walk}
    (h : (start input regime).next = (.ok (some r), v)) :
    ∃ (p : Part) (rest : Bytes), p.Headed ∧ input = p.header.encode ++ rest ∧
      r = p.entry.record ∧ v = p.behindHeader rest regime := by
  rw [next_start] at h
  split at h
  next => cases h
  next =>
    split at h
    next => cases h
    next => cases h
    next e rest hheader =>
      cases h
      obtain ⟨p, hheaded, rfl, hinput⟩ := Part.Headed.exists_of_header hheader
      exact ⟨p, rest, hheaded, hinput, rfl, rfl⟩

end Walk

/-- Behind a header, either the bytes ahead are those of a framed part and the walk moves on as at
the next header, or it moves to an error. -/
lemma Part.Headed.next_behindHeader [LawfulInflater] {p : Part} (h : p.Headed) (rest : Bytes)
    (regime : Regime) :
    (∃ payload trailer data more, (p.fill payload trailer data).Framed regime.verify ∧
      rest = payload ++ ((p.fill payload trailer data).ending ++ more) ∧
      (p.behindHeader rest regime).next = (Walk.start more regime).next) ∨
    ∃ e w, (p.behindHeader rest regime).next = (.error e, w) := by
  rcases hclose : (p.behindHeader rest regime).close with ⟨r, v⟩
  cases r with
  | error e =>
    right
    rw [Walk.next, hclose]
    exact ⟨e, v, rfl⟩
  | ok u =>
    left
    obtain ⟨payload, trailer, data, more, hframed, rfl⟩ := h.exists_framed hclose
    exact ⟨payload, trailer, data, more, hframed, rfl, hframed.next_begun more⟩

/-! ## Layouts -/

/-- There are no more parts than bytes. -/
lemma Walk.length_le_flatMap_encode (parts : List Part) :
    parts.length ≤ (parts.flatMap Part.encode).length := by
  induction parts with
  | nil => exact Nat.le_refl 0
  | cons p parts ih =>
    have hp : 0 < p.encode.length := by
      simp only [Part.encode, LocalHeader.encode, List.length_append, Bytes.length_le]
      omega
    rw [List.flatMap_cons, List.length_append, List.length_cons]
    omega

section LaidOut

variable [LawfulInflater] {verify : Bool} {p : Part} {more : Bytes} {rs : List Record}

/-- A tail alone is laid out. -/
lemma IsTail.laidOut {tail : Bytes} (h : IsTail tail) : LaidOut verify tail [] :=
  ⟨[], tail, fun _ hp => absurd hp List.not_mem_nil, h, rfl, rfl⟩

/-- A framed part in front of a layout makes a layout. -/
lemma LaidOut.cons (hp : p.Framed verify) (h : LaidOut verify more rs) :
    LaidOut verify (p.encode ++ more) (p.record :: rs) := by
  obtain ⟨parts, tail, hparts, htail, rfl, rfl⟩ := h
  refine ⟨p :: parts, tail, ?_, htail, ?_, rfl⟩
  · intro q hq
    rcases List.mem_cons.mp hq with rfl | hmem
    · exact hp
    · exact hparts q hmem
  · rw [List.flatMap_cons, List.append_assoc]

end LaidOut

namespace Walk

variable [LawfulInflater] {regime : Regime} {container : Bytes} {rs : List Record}

/-- A container that a scan comes to the end of is laid out. -/
lemma Skims.laidOut (hs : (start container regime).Skims rs) :
    LaidOut regime.verify container rs := by
  induction rs generalizing container with
  | nil =>
    have htail : IsTail container := by
      cases hs with
      | done h => exact next_start_eq_none_iff.mp ⟨_, h⟩
    exact htail.laidOut
  | cons r rs ih =>
    obtain ⟨v, hnext, hs'⟩ := hs.of_entry
    obtain ⟨p, rest, hheaded, rfl, rfl, rfl⟩ := next_start_eq_some hnext
    rcases hheaded.next_behindHeader rest regime with
      ⟨payload, trailer, data, more, hframed, rfl, hmore⟩ | ⟨e, w, herror⟩
    · have hlaid := ih (hs'.congr hmore.symm)
      have hcons := hlaid.cons hframed
      rw [← hframed.record_entry] at hcons
      rw [Part.encode_append] at hcons
      exact hcons
    · exact absurd herror hs'.next_ne_error

/-- A scan comes to the end of a container that is laid out. -/
lemma skims_of_laidOut (h : LaidOut regime.verify container rs) :
    (start container regime).Skims rs := by
  obtain ⟨parts, tail, hparts, htail, rfl, rfl⟩ := h
  induction parts with
  | nil =>
    obtain ⟨w, hnext⟩ := next_start_eq_none_iff.mpr htail
    exact .done hnext
  | cons p parts ih =>
    have hp := hparts p List.mem_cons_self
    have hrest := ih fun q hq => hparts q (List.mem_cons_of_mem p hq)
    rw [List.flatMap_cons, List.append_assoc]
    exact .entry (hp.next_start _) (hrest.congr (hp.next_begun _))

/-- A search with enough fuel stops at the first part whose record satisfies the condition. -/
lemma findWithin_of_framed {w : Walk} {parts : List Part} {tail : Bytes} {q : Record → Bool}
    {p : Part} (hparts : ∀ p ∈ parts, p.Framed regime.verify)
    (hw : w.next = (start (parts.flatMap Part.encode ++ tail) regime).next)
    (hfind : parts.find? (fun p => q p.record) = some p) {fuel : Nat}
    (hfuel : parts.length ≤ fuel) :
    ∃ more, w.findWithin fuel q = (.ok (some p.record), p.begun more regime) := by
  induction parts generalizing w fuel with
  | nil => cases hfind
  | cons p' parts ih =>
    obtain ⟨fuel, rfl⟩ : ∃ k, fuel = k + 1 := ⟨fuel - 1, by rw [List.length_cons] at hfuel; omega⟩
    have hp' := hparts p' List.mem_cons_self
    rw [List.flatMap_cons, List.append_assoc, hp'.next_start] at hw
    rw [findWithin, hw]
    dsimp only
    by_cases hq : q p'.record = true
    · rw [List.find?_cons, hq] at hfind
      obtain rfl := Option.some.inj hfind
      rw [if_pos hq]
      exact ⟨_, rfl⟩
    · rw [List.find?_cons, Bool.eq_false_iff.mpr hq] at hfind
      rw [if_neg hq]
      exact ih (fun p hp => hparts p (List.mem_cons_of_mem p' hp)) (hp'.next_begun _) hfind
        (Nat.le_of_succ_le_succ hfuel)

/-- A search from the start stops at the first part whose record satisfies the condition. -/
lemma find_of_framed {parts : List Part} (tail : Bytes) {q : Record → Bool} {p : Part}
    (hparts : ∀ p ∈ parts, p.Framed regime.verify)
    (hfind : parts.find? (fun p => q p.record) = some p) :
    ∃ more, (start (parts.flatMap Part.encode ++ tail) regime).find q =
      (.ok (some p.record), p.begun more regime) := by
  have hfuel : parts.length ≤ (start (parts.flatMap Part.encode ++ tail) regime).horizon := by
    have hle := length_le_flatMap_encode parts
    show parts.length ≤ (parts.flatMap Part.encode ++ tail).length + 1
    rw [List.length_append]
    omega
  exact findWithin_of_framed hparts rfl hfind hfuel

/-- In a container that is laid out, a search stops at the first record that satisfies the
condition. -/
lemma find_of_laidOut (h : LaidOut regime.verify container rs) {q : Record → Bool} {r : Record}
    (hfind : rs.find? q = some r) : ∃ w, (start container regime).find q = (.ok (some r), w) := by
  obtain ⟨parts, tail, hparts, -, rfl, rfl⟩ := h
  rw [List.find?_map] at hfind
  obtain ⟨p, hp, rfl⟩ := Option.map_eq_some_iff.mp hfind
  obtain ⟨more, hstop⟩ := find_of_framed tail hparts hp
  exact ⟨_, hstop⟩

/-- A search that moves on as from a header stops only behind a header that is accepted and stands in
the bytes ahead. -/
lemma exists_headed_of_findWithin {w u : Walk} {q : Record → Bool} {r : Record} {fuel : Nat}
    (hw : w.next = (start container regime).next)
    (h : w.findWithin fuel q = (.ok (some r), u)) :
    ∃ (p : Part) (rest : Bytes), p.Headed ∧ p.header.encode ++ rest <:+ container ∧
      r = p.entry.record ∧ q r = true ∧ u = p.behindHeader rest regime := by
  induction fuel generalizing w container with
  | zero => cases h
  | succ fuel ih =>
    rw [findWithin, hw] at h
    rcases hnext : (start container regime).next with ⟨e | _ | r', v⟩
    · rw [hnext] at h
      cases h
    · rw [hnext] at h
      cases h
    · rw [hnext] at h
      dsimp only at h
      obtain ⟨p, rest, hheaded, rfl, rfl, rfl⟩ := next_start_eq_some hnext
      by_cases hq : q p.entry.record = true
      · rw [if_pos hq] at h
        cases h
        exact ⟨p, rest, hheaded, List.suffix_rfl, rfl, hq, rfl⟩
      · rw [if_neg hq] at h
        rcases hheaded.next_behindHeader rest regime with
          ⟨payload, trailer, data, more, -, rfl, hmore⟩ | ⟨e, v, herror⟩
        · obtain ⟨p', rest', hheaded', hstands, hfound⟩ := ih hmore h
          -- The header that is found stands behind the part that is passed.
          refine ⟨p', rest', hheaded', hstands.trans ?_, hfound⟩
          rw [← List.append_assoc, ← List.append_assoc]
          exact List.suffix_append _ _
        · rcases fuel with _ | fuel
          · cases h
          · rw [findWithin, herror] at h
            cases h

/-- A search from the start stops only behind a header that is accepted and stands in the
container. -/
lemma exists_headed_of_find {u : Walk} {q : Record → Bool} {r : Record}
    (h : (start container regime).find q = (.ok (some r), u)) :
    ∃ (p : Part) (rest : Bytes), p.Headed ∧ p.header.encode ++ rest <:+ container ∧
      r = p.entry.record ∧ q r = true ∧ u = p.behindHeader rest regime :=
  exists_headed_of_findWithin rfl h

/-- Every scan comes to the end or to an error, after no more entries than the container has
bytes. -/
lemma exists_scan (container : Bytes) (regime : Regime) :
    ∃ rs, rs.length ≤ container.length ∧ ((start container regime).Skims rs ∨
      ∃ e, (start container regime).Falters rs e) := by
  induction hlen : container.length using Nat.strong_induction_on generalizing container with
  | h n ih =>
    subst hlen
    rcases hnext : (start container regime).next with ⟨r, v⟩
    cases r with
    | error e => exact ⟨[], Nat.zero_le _, .inr ⟨e, .failed hnext⟩⟩
    | ok found =>
      cases found with
      | none => exact ⟨[], Nat.zero_le _, .inl (.done hnext)⟩
      | some r =>
        obtain ⟨p, rest, hheaded, rfl, rfl, rfl⟩ := next_start_eq_some hnext
        have hheader : 0 < p.header.encode.length := by
          simp only [LocalHeader.encode, List.length_append, Bytes.length_le]
          omega
        rcases hheaded.next_behindHeader rest regime with
          ⟨payload, trailer, data, more, -, rfl, hmore⟩ | ⟨e, w, herror⟩
        · have hshort : more.length < (p.header.encode ++ (payload ++
              ((p.fill payload trailer data).ending ++ more))).length := by
            simp only [List.length_append]
            omega
          obtain ⟨rs, hcount, hscan⟩ := ih more.length hshort more rfl
          refine ⟨p.entry.record :: rs, ?_, ?_⟩
          · rw [List.length_cons]
            omega
          · rcases hscan with hs | ⟨e, hf⟩
            · exact .inl (.entry hnext (hs.congr hmore))
            · exact .inr ⟨e, .entry hnext (hf.congr hmore)⟩
        · refine ⟨[p.entry.record], ?_, .inr ⟨e, .entry hnext (.failed herror)⟩⟩
          rw [List.length_append, List.length_singleton]
          omega

/-- A scan, with or without checksums, reports some records and comes to the end exactly if the
container is laid out with these records: each part a header that says what its record says, a
payload of the recorded size or one whole deflate stream, and the descriptor that the header calls
for; behind the parts nothing, or a word that ends the run of entries.  In every other container,
and in no such one, it comes to an error. -/
theorem skims_iff_laidOut (container : Bytes) (regime : Regime) :
    (∀ rs, (start container regime).Skims rs ↔ LaidOut regime.verify container rs) ∧
      ((∃ rs e, (start container regime).Falters rs e) ↔
        ¬ ∃ rs, LaidOut regime.verify container rs) := by
  refine ⟨fun rs => ⟨Skims.laidOut, skims_of_laidOut⟩, ?_, ?_⟩
  · rintro ⟨rs, e, hf⟩ ⟨rs', hlaid⟩
    exact (skims_of_laidOut hlaid).not_falters hf
  · intro hnot
    obtain ⟨rs, -, hs | ⟨e, hf⟩⟩ := exists_scan container regime
    · exact absurd ⟨rs, hs.laidOut⟩ hnot
    · exact ⟨rs, e, hf⟩

/-- The records of a container are collected without an error exactly if it is laid out with
them. -/
theorem records_eq_iff {container : Bytes} {regime : Regime} {rs : List Record} :
    (start container regime).records = (rs, none) ↔ LaidOut regime.verify container rs := by
  have hhorizon : (start container regime).horizon = container.length + 1 := rfl
  have hmap : ∀ rs : List Record, (rs.map (·, ())).map Prod.fst = rs := by
    intro rs
    rw [List.map_map]
    exact List.map_id rs
  have hof : ∀ {found : List Record}, (start container regime).Skims found →
      found.length ≤ container.length → (start container regime).records = (found, none) := by
    intro found hs hcount
    obtain ⟨w, hsweep⟩ := hs.sweepWithin_eq (Nat.lt_succ_of_le hcount)
    rw [records, sweep, hhorizon, hsweep, ← hmap found]
    simp only [hmap]
  obtain ⟨found, hcount, hs | ⟨e, hf⟩⟩ := exists_scan container regime
  · rw [hof hs hcount]
    constructor
    · intro heq
      cases heq
      exact hs.laidOut
    · intro hlaid
      rw [(skims_of_laidOut hlaid).unique hs]
  · obtain ⟨w, hsweep⟩ := hf.sweepWithin_eq (Nat.lt_succ_of_le hcount)
    rw [records, sweep, hhorizon, hsweep]
    constructor
    · intro heq
      cases heq
    · intro hlaid
      exact absurd hf (skims_of_laidOut hlaid).not_falters

end Walk

end ZipMount
