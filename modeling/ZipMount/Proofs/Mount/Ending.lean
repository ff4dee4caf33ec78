import ZipMount.Proofs.Mount.Measure
import ZipMount.Proofs.Mount.Rounds

/-!
# Every scan ends

A mount answers its questions by going through a container from the first entry on, and goes on as
long as there is a next one.  The loops here have no other bound than what they meet.  Three of them
go from entry to entry (`scanning`): `locating` stops at a name, `deciding` at an entry that tells
whether a name is a directory, and `gathering` at the end of the entries.  `measuring` stops where
no more bytes of a payload can be passed over.

Each round of the first three uses up a header (`Walk.length_ahead_of_next`), and each round of the
last one some of the pending bytes (`pending_of_skip`), so they stop.  They stop with what the
functions of the mount give, which says that the bounds in those are never what ends a search.  The
main statement is `scans_stop`.
-/

namespace ZipMount

namespace Mount

/-! ## The loops -/

/-- Goes on from one entry to the next: `visit` says of each whether the loop stops there, and with
what, or else what it keeps; behind the last one it stops with what `last` makes of that. -/
def scanning [Inflater] {α β : Type} (visit : α → Record → Walk → β ⊕ α) (last : α → β) :
    α × Walk → Except Error β ⊕ α × Walk
  | (kept, w) =>
    match w.next with
    | (.error e, _) => .inl (.error e)
    | (.ok none, _) => .inl (.ok (last kept))
    | (.ok (some r), w) =>
      match visit kept r w with
      | .inl b => .inl (.ok b)
      | .inr kept => .inr (kept, w)

/-- Looks for an entry by its name. -/
def locating [Inflater] (name : String) :
    Unit × Walk → Except Error (Option (Record × Walk)) ⊕ Unit × Walk :=
  scanning (fun _ r w => if r.name = name then .inl (some (r, w)) else .inr ()) fun _ => none

/-- Looks for an entry that decides whether a name is a directory. -/
def deciding [Inflater] (name : String) : Unit × Walk → Except Error Bool ⊕ Unit × Walk :=
  scanning
    (fun _ r _ =>
      if r.name = name then .inl r.isDirectory
      else if (nestPrefix name).isPrefixOf r.name.toList then .inl true
      else .inr ())
    fun _ => false

/-- Goes through all entries and keeps something of each. -/
def gathering [Inflater] {β : Type} (keep : β → Record → β) : β × Walk → Except Error β ⊕ β × Walk :=
  scanning (fun kept r _ => .inr (keep kept r)) id

/-- Counts the bytes of a payload by passing over some at once. -/
def measuring [Inflater] (chunk : Nat) : Nat × Walk → Except IoError Nat ⊕ Nat × Walk
  | (total, w) =>
    match w.skip chunk with
    | (.error e, _) => .inl (.error e)
    | (.ok 0, _) => .inl (.ok total)
    | (.ok (k + 1), w) => .inr (total + (k + 1), w)

/-- What the searches through a container come to is what their loops stop with, after no more
rounds than there are headers in its bytes. -/
structure SearchesStop [Inflater] (m : Mount) (host : Host) (p : VirtualPath) (container : Bytes) :
    Prop where
  locate : ∃ rounds ≤ container.length / 30,
    Loops (locating p.entryName) rounds ((), Walk.start container (m.regime container.length))
      (m.locate host p)
  isDirectory : ∃ rounds ≤ container.length / 30, ∃ r,
    Loops (deciding p.entryName) rounds ((), Walk.start container (m.regime container.length)) r ∧
      m.isDirectory host p = (p.isRoot || r.toOption.getD false)
  size : ∀ r w, m.locate host p = .ok (some (r, w)) → r.declaredSize = none →
    ∃ rounds ≤ w.pending.length, ∃ total,
      Loops (measuring m.settings.sizeProbeChunk) rounds (0, w) total ∧
        m.knownSize host p = total.mapError Error.io
  list : ∃ rounds ≤ container.length / 30, ∃ found,
    Loops (gathering fun kept r => kept ++ [r]) rounds
        ([], Walk.start container (m.regime container.length)) found ∧
      m.list host p = found.map fun records =>
        (children p.entryName (records.map Record.name)).map p.child

section Loops

variable [LawfulInflater]

/-! ## Going from entry to entry -/

/-- Going from entry to entry goes round once for each header at most, and stops with what a
function gives that unfolds as the loop does. -/
lemma loops_scanning {α β : Type} {visit : α → Record → Walk → β ⊕ α} {last : α → β}
    (f : Nat → α × Walk → Except Error β)
    (herror : ∀ {fuel kept w w' e}, w.next = (.error e, w') → f (fuel + 1) (kept, w) = .error e)
    (hnone : ∀ {fuel kept w w'}, w.next = (.ok none, w') →
      f (fuel + 1) (kept, w) = .ok (last kept))
    (hsome : ∀ {fuel kept w w' r}, w.next = (.ok (some r), w') → f (fuel + 1) (kept, w) =
      match visit kept r w' with
      | .inl b => .ok b
      | .inr kept => f fuel (kept, w'))
    (kept : α) (w : Walk) :
    ∃ rounds, 30 * rounds ≤ w.ahead.length ∧
      Loops (scanning visit last) rounds (kept, w) (f w.horizon (kept, w)) := by
  have hround : ∀ fuel (a : α × Walk), scanning visit last a = .inl (f (fuel + 1) a) ∨
      ∃ a', scanning visit last a = .inr a' ∧ a'.2.ahead.length + 30 ≤ a.2.ahead.length ∧
        f (fuel + 1) a = f fuel a' := by
    rintro fuel ⟨kept, w⟩
    rcases hnext : w.next with ⟨e | _ | r, w'⟩
    · left
      simp only [scanning, hnext, herror hnext]
    · left
      simp only [scanning, hnext, hnone hnext]
    · rw [hsome hnext]
      rcases hvisit : visit kept r w' with b | kept'
      · left
        simp only [scanning, hnext, hvisit]
      · right
        refine ⟨(kept', w'), ?_, Walk.length_ahead_of_next hnext, rfl⟩
        simp only [scanning, hnext, hvisit]
  exact Loops.of_rounds (fun a : α × Walk => a.2.ahead.length) f hround (by decide)
    (a := (kept, w)) (Nat.lt_succ_self _)

/-- Finding an entry by its name is the loop that looks for it. -/
lemma loops_locating (name : String) (w : Walk) :
    ∃ rounds, 30 * rounds ≤ w.ahead.length ∧
      Loops (locating name) rounds ((), w) (match w.find (·.name = name) with
        | (.ok (some r), w) => .ok (some (r, w))
        | (.ok none, _) => .ok none
        | (.error e, _) => .error e) := by
  refine loops_scanning (fun fuel a => match a.2.findWithin fuel (·.name = name) with
    | (.ok (some r), w) => .ok (some (r, w))
    | (.ok none, _) => .ok none
    | (.error e, _) => .error e) ?_ ?_ ?_ () w
  · intro fuel kept w w' e hnext
    simp only [Walk.findWithin, hnext]
  · intro fuel kept w w' hnext
    simp only [Walk.findWithin, hnext]
  · intro fuel kept w w' r hnext
    by_cases hname : r.name = name <;> simp [Walk.findWithin, hnext, hname]

/-- Finding an entry that decides whether a name is a directory is the loop that looks for it. -/
lemma loops_deciding (name : String) (w : Walk) :
    ∃ rounds, 30 * rounds ≤ w.ahead.length ∧
      Loops (deciding name) rounds ((), w) (match w.find (decides name) with
        | (.ok (some r), _) => .ok (if r.name = name then r.isDirectory else true)
        | (.ok none, _) => .ok false
        | (.error e, _) => .error e) := by
  refine loops_scanning (fun fuel a => match a.2.findWithin fuel (decides name) with
    | (.ok (some r), _) => .ok (if r.name = name then r.isDirectory else true)
    | (.ok none, _) => .ok false
    | (.error e, _) => .error e) ?_ ?_ ?_ () w
  · intro fuel kept w w' e hnext
    simp only [Walk.findWithin, hnext]
  · intro fuel kept w w' hnext
    simp only [Walk.findWithin, hnext]
  · intro fuel kept w w' r hnext
    by_cases hname : r.name = name
    · simp [Walk.findWithin, hnext, decides, hname]
    · by_cases hnested : (nestPrefix name).isPrefixOf r.name.toList = true <;>
        simp [Walk.findWithin, hnext, decides, hname, hnested]

/-- What is kept of all entries is what the loop gathers. -/
lemma loops_gathering {β : Type} (keep : β → Record → β) (kept : β) (w : Walk) :
    ∃ rounds, 30 * rounds ≤ w.ahead.length ∧
      Loops (gathering keep) rounds (kept, w) (match w.records with
        | (_, some e) => .error e
        | (found, none) => .ok (found.foldl keep kept)) := by
  set gathered : Nat → β × Walk → Except Error β := fun fuel a =>
    match (a.2.sweepWithin (fun w => ((), w)) fuel).1 with
    | (_, some e) => .error e
    | (found, none) => .ok ((found.map Prod.fst).foldl keep a.1) with hgathered
  have hwhole : gathered w.horizon (kept, w) = match w.records with
      | (_, some e) => .error e
      | (found, none) => .ok (found.foldl keep kept) := by
    simp only [hgathered, Walk.records, Walk.sweep]
    rcases w.sweepWithin (fun w => ((), w)) w.horizon with ⟨⟨found, _ | e⟩, u⟩
    · rfl
    · rfl
  rw [← hwhole]
  refine loops_scanning gathered ?_ ?_ ?_ kept w
  · intro fuel kept w w' e hnext
    simp only [hgathered, Walk.sweepWithin, hnext]
  · intro fuel kept w w' hnext
    simp only [hgathered, Walk.sweepWithin, hnext, List.map_nil, List.foldl_nil, id]
  · intro fuel kept w w' r hnext
    simp only [hgathered, Walk.sweepWithin, hnext]
    rcases w'.sweepWithin (fun w => ((), w)) fuel with ⟨⟨found, _ | e⟩, u⟩
    · rfl
    · rfl

/-! ## Counting bytes -/

variable {w : Walk}

/-- What passing over some of the pending bytes leaves. -/
lemma pending_of_skip {chunk k : Nat} {w w' : Walk} (h : w.skip chunk = (.ok (k + 1), w')) :
    w'.pending.length + (k + 1) = w.pending.length := by
  by_cases hchunk : chunk = 0
  · rw [hchunk, Walk.skip_zero] at h
    cases h
  · by_cases hle : chunk ≤ w.pending.length
    · rw [Walk.skip_of_le (Nat.pos_of_ne_zero hchunk) hle] at h
      cases h
      rw [Walk.pending_pass, List.length_drop]
      omega
    · rw [Walk.skip_of_lt (Nat.lt_of_not_le hle)] at h
      rcases hf : w.failure with _ | e
      · rw [hf] at h
        obtain ⟨hnil, -⟩ := Walk.over_of_failure_none hf
        simp only [Prod.mk.injEq, Except.ok.injEq] at h
        obtain ⟨hcount, rfl⟩ := h
        rw [hnil, List.length_nil, hcount, Nat.zero_add]
      · rw [hf] at h
        cases h

/-- Counting with enough steps is measuring. -/
lemma measureWithin_eq_measure (chunk : Nat) {fuel : Nat} (hfuel : w.pending.length < fuel) :
    measureWithin chunk fuel w = measure chunk w := by
  by_cases hchunk : chunk = 0
  · obtain ⟨fuel, rfl⟩ : ∃ n, fuel = n + 1 := ⟨fuel - 1, by omega⟩
    simp only [hchunk, measure, measureWithin, Walk.skip_zero]
  · have hpos : 0 < chunk := Nat.pos_of_ne_zero hchunk
    rw [measure_eq_match hpos]
    rcases hf : w.failure with _ | e
    · exact measureWithin_eq hpos hf hfuel
    · exact measureWithin_of_failure hpos hf hfuel

/-- Counting the bytes of a payload goes round once for each byte at most. -/
lemma loops_measuring (chunk : Nat) (w : Walk) :
    ∃ rounds ≤ w.pending.length, Loops (measuring chunk) rounds (0, w) (measure chunk w) := by
  set counted : Nat → Nat × Walk → Except IoError Nat := fun fuel a =>
    (measureWithin chunk fuel a.2).map (a.1 + ·) with hcounted
  have hround : ∀ fuel (a : Nat × Walk), measuring chunk a = .inl (counted (fuel + 1) a) ∨
      ∃ a', measuring chunk a = .inr a' ∧ a'.2.pending.length + 1 ≤ a.2.pending.length ∧
        counted (fuel + 1) a = counted fuel a' := by
    rintro fuel ⟨total, w⟩
    rcases hskip : w.skip chunk with ⟨e | _ | k, w'⟩
    · left
      simp only [measuring, hcounted, measureWithin, hskip, Except.map]
    · left
      simp only [measuring, hcounted, measureWithin, hskip, Except.map, Nat.add_zero]
    · right
      have hleft := pending_of_skip hskip
      refine ⟨(total + (k + 1), w'), ?_, by dsimp only; omega, ?_⟩
      · simp only [measuring, hskip]
      · simp only [hcounted, measureWithin, hskip]
        rcases measureWithin chunk fuel w' with e | more
        · rfl
        · exact congrArg Except.ok (Nat.add_assoc total (k + 1) more).symm
  have hwhole : counted (w.pending.length + 1) (0, w) = measure chunk w := by
    simp only [hcounted, measureWithin_eq_measure chunk (Nat.lt_succ_self _)]
    rcases measure chunk w with e | n
    · rfl
    · exact congrArg Except.ok (Nat.zero_add n)
  obtain ⟨rounds, hle, hloops⟩ := Loops.of_rounds (fun a : Nat × Walk => a.2.pending.length) counted
    hround Nat.one_pos (a := (0, w)) (Nat.lt_succ_self _)
  rw [hwhole] at hloops
  exact ⟨rounds, by simpa using hle, hloops⟩

/-! ## Searches -/

section Searches

variable {m : Mount} {host : Host} {p : VirtualPath} {v : Walk}

/-- Locating an entry is the loop that looks for its name. -/
lemma loops_locate (hopen : m.openContainer host p = .ok v) :
    ∃ rounds, 30 * rounds ≤ v.ahead.length ∧
      Loops (locating p.entryName) rounds ((), v) (m.locate host p) := by
  have hwhole : m.locate host p = match v.find (·.name = p.entryName) with
      | (.ok (some r), w) => .ok (some (r, w))
      | (.ok none, _) => .ok none
      | (.error e, _) => .error e := by
    unfold locate
    rw [hopen]
    simp only [bind, Except.bind]
    rcases v.find (·.name = p.entryName) with ⟨e | _ | r, w⟩ <;> rfl
  rw [hwhole]
  exact loops_locating p.entryName v

/-- Whether a path is a directory is told by the loop that looks for an entry that decides it. -/
lemma loops_isDirectory (hopen : m.openContainer host p = .ok v) :
    ∃ rounds, 30 * rounds ≤ v.ahead.length ∧ ∃ r, Loops (deciding p.entryName) rounds ((), v) r ∧
      m.isDirectory host p = (p.isRoot || r.toOption.getD false) := by
  obtain ⟨rounds, hle, hloops⟩ := loops_deciding p.entryName v
  refine ⟨rounds, hle, _, hloops, ?_⟩
  unfold isDirectory
  rw [hopen]
  dsimp only
  rcases v.find (decides p.entryName) with ⟨e | _ | r, w⟩ <;> rfl

/-- The size of an entry that does not record it is told by the loop that counts its bytes. -/
lemma loops_knownSize {r : Record} {w : Walk} (h : m.locate host p = .ok (some (r, w)))
    (hd : r.declaredSize = none) :
    ∃ rounds ≤ w.pending.length, ∃ total,
      Loops (measuring m.settings.sizeProbeChunk) rounds (0, w) total ∧
        m.knownSize host p = total.mapError Error.io := by
  obtain ⟨rounds, hle, hloops⟩ := loops_measuring m.settings.sizeProbeChunk w
  refine ⟨rounds, hle, _, hloops, ?_⟩
  rw [knownSize_of_locate h, hd]

/-- The children of a directory come from the loop that goes through all entries. -/
lemma loops_list (hopen : m.openContainer host p = .ok v) :
    ∃ rounds, 30 * rounds ≤ v.ahead.length ∧ ∃ found,
      Loops (gathering fun kept r => kept ++ [r]) rounds ([], v) found ∧
        m.list host p = found.map fun records =>
          (children p.entryName (records.map Record.name)).map p.child := by
  obtain ⟨rounds, hle, hloops⟩ := loops_gathering (fun kept r => kept ++ [r]) [] v
  refine ⟨rounds, hle, _, hloops, ?_⟩
  unfold list
  rw [hopen]
  simp only [bind, Except.bind]
  rcases v.records with ⟨found, _ | e⟩
  · have hall : found.foldl (fun kept r => kept ++ [r]) [] = found := by
      rw [List.foldl_append_eq_append, List.nil_append]
      exact List.flatMap_singleton' found
    dsimp only
    rw [hall]
    rfl
  · rfl

/-- The searches of a path whose container can be read stop. -/
lemma searchesStop {container : Bytes}
    (hread : host.files.read (p.container host.environment) = .ok container) :
    m.SearchesStop host p container := by
  set v := Walk.start container (m.regime container.length) with hv
  have hopen : m.openContainer host p = .ok v := by
    unfold openContainer
    rw [hread]
  have hcount : ∀ {rounds}, 30 * rounds ≤ v.ahead.length → rounds ≤ container.length / 30 := by
    intro rounds hle
    have hahead : v.ahead.length = container.length := rfl
    omega
  constructor
  · obtain ⟨rounds, hle, hloops⟩ := loops_locate hopen
    exact ⟨rounds, hcount hle, hloops⟩
  · obtain ⟨rounds, hle, hloops⟩ := loops_isDirectory hopen
    exact ⟨rounds, hcount hle, hloops⟩
  · exact fun r w h hd => loops_knownSize h hd
  · obtain ⟨rounds, hle, hloops⟩ := loops_list hopen
    exact ⟨rounds, hcount hle, hloops⟩

end Searches

end Loops

/-- Every scan ends.  However requests to a walk through a container of `L` bytes are mixed, it
finds an entry no more than `L / 30` times, and each request comes to its end, whatever sizes are
claimed; so the searches for an entry, for what decides whether a name is a directory, for the size
of an entry and for the children of a directory all stop. -/
theorem scans_stop [LawfulInflater] (container : Bytes) :
    (∀ regime qs, ((Walk.start container regime).transcript qs).countP Walk.Answer.isFound ≤
      container.length / 30) ∧
    (∀ w : Walk, w.CallsStop) ∧
    (∀ extra uncompressed compressed, ∃ rounds ≤ extra.length / 4,
      Loops (resolving uncompressed compressed) rounds extra
        (zip64Sizes extra uncompressed compressed)) ∧
    ∀ (m : Mount) (host : Host) (p : VirtualPath),
      host.files.read (p.container host.environment) = .ok container →
        m.SearchesStop host p container := by
  refine ⟨fun regime qs => ?_, Walk.callsStop, fun extra u c => loops_resolving u c extra,
    fun m host p hread => searchesStop hread⟩
  have hfound := Walk.countP_isFound_le qs (Walk.start container regime)
  have hahead : (Walk.start container regime).ahead = container := rfl
  rw [hahead] at hfound
  omega

/-- In a container of 50 bytes an entry is found once at most, and the searches for it stop. -/
theorem scans_stop_overstated :
    (∀ regime qs, ((Walk.start Part.overstated.encode regime).transcript qs).countP
      Walk.Answer.isFound ≤ 1) ∧
    ((Walk.start Part.overstated.encode true).transcript [.next, .close, .next]).countP
      Walk.Answer.isFound = 1 ∧
    standard.SearchesStop (Host.withContainer Part.overstated.encode) ⟨"zip2:z!a"⟩
      Part.overstated.encode := by
  set host := Host.withContainer Part.overstated.encode with hhost
  have hread : host.files.read ((VirtualPath.mk "zip2:z!a").container host.environment) =
      .ok Part.overstated.encode := by
    have henv : host.environment = ⟨none, none⟩ := rfl
    have hcontainer : (VirtualPath.mk "zip2:z!a").container ⟨none, none⟩ = "z" := by cbv
    rw [henv, hcontainer, hhost, Host.read_withContainer]
  obtain ⟨hcount, -, -, hsearches⟩ := scans_stop Part.overstated.encode
  have hlength : Part.overstated.encode.length / 30 = 1 := by decide
  rw [hlength] at hcount
  exact ⟨hcount, by cbv, hsearches standard _ _ hread⟩

end Mount

end ZipMount
