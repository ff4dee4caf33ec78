import ZipMount.Proofs.Walk.Verified

/-!
# A walk through the beginning of a container

Put more bytes behind a container, and compare the walk through it with the walk through the longer
one.  As long as the first finds entries, the second finds the same, and the two are `Beside` each
other: behind the same header, with bytes ahead of which the first has a beginning.  If the first
gets past the payload, so does the second, and they are `Abreast`: both move on as from a next header.

Nothing is found in the shorter container that is not in the longer one, because no step takes the
end of the input for anything but an error or the end of the entries.  So a search that stops, stops
at the same record (`Abreast.findWithin`), the entries that are passed are the same ones
(`stops_append`), and what is delivered of a payload is the beginning of what there is
(`Beside.pending_prefix`).
-/

namespace ZipMount

/-- From a header that is accepted, a walk moves behind it. -/
lemma Part.Headed.next_start [Inflater] {p : Part} (h : p.Headed) (rest : Bytes)
    (regime : Regime) : (Walk.start (p.header.encode ++ rest) regime).next =
      (.ok (some p.entry.record), p.behindHeader rest regime) := by
  have hheader : Walk.header (p.header.encode ++ rest) = .ok (some (p.entry, rest)) :=
    Walk.header_eq_some_iff.mpr ⟨p.header, p.name, p.uncompressed, p.compressed, h.fits, h.names,
      h.sizes, h.delimited, rfl, rfl⟩
  have hne : p.header.encode ++ rest ≠ [] := by
    intro hnil
    rw [hnil] at hheader
    cases hheader
  rw [Walk.next_start, if_neg hne, hheader]
  rfl

namespace Walk

/-! ## Payloads that can be read -/

/-- The payload is stored, or begins with a complete deflate stream. -/
def Legible [Inflater] (w : Walk) : Prop :=
  ∃ c rest, w.current = some c ∧ w.place = .atPayload rest ∧
    (c.entry.method = .stored ∨ Inflatable rest)

/-! ## Walks behind the same header -/

/-- Both walks are behind the same header, of the entry with the given record, and what is ahead of
the first is the beginning of what is ahead of the second.  The cuts may differ. -/
def Beside (more : Bytes) (r : Record) (u w : Walk) : Prop :=
  ∃ (p : Part) (rest : Bytes) (regime regime' : Regime), regime'.verify = regime.verify ∧
    p.Headed ∧ r = p.entry.record ∧ u = p.behindHeader rest regime ∧
    w = p.behindHeader (rest ++ more) regime'

/-- Both walks move on as from a header, the second with more bytes ahead. -/
def Abreast [Inflater] (more : Bytes) (u w : Walk) : Prop :=
  ∃ (rest : Bytes) (regime regime' : Regime), regime'.verify = regime.verify ∧
    u.next = (start rest regime).next ∧ w.next = (start (rest ++ more) regime').next

/-- The entries ahead of a walk that touches none of them: each record, with the walk at the first
byte of the payload. -/
def stops [Inflater] (w : Walk) : List (Record × Walk) :=
  (w.sweep fun v => (v, v)).1.1

section Lawful

variable [LawfulInflater] {more : Bytes} {u u' w : Walk} {r : Record} {regime regime' : Regime}

/-- At the first byte, the walks are abreast. -/
lemma abreast_start (cut more : Bytes) (h : regime'.verify = regime.verify) :
    Abreast more (start cut regime) (start (cut ++ more) regime') :=
  ⟨cut, regime, regime', h, rfl, rfl⟩

/-- If the first of two walks abreast finds an entry, the second finds the same. -/
lemma Abreast.next (h : Abreast more u w) (hnext : u.next = (.ok (some r), u')) :
    ∃ w', w.next = (.ok (some r), w') ∧ Beside more r u' w' := by
  obtain ⟨rest, regime, regime', hverify, hu, hw⟩ := h
  rw [hu] at hnext
  obtain ⟨p, left, hheaded, rfl, rfl, rfl⟩ := next_start_eq_some hnext
  refine ⟨p.behindHeader (left ++ more) regime', ?_, p, left, regime, regime', hverify, hheaded, rfl,
    rfl, rfl⟩
  rw [hw, List.append_assoc, hheaded.next_start]

/-- If the first of two walks beside each other gets past the payload, they are abreast. -/
lemma Beside.abreast_or_error (h : Beside more r u w) :
    Abreast more u w ∨ ∃ e v, u.next = (.error e, v) := by
  obtain ⟨p, rest, regime, regime', hverify, hheaded, -, rfl, rfl⟩ := h
  rcases hheaded.next_behindHeader rest regime with
    ⟨payload, trailer, data, left, hframed, rfl, hnext⟩ | herror
  · refine .inl ⟨left, regime, regime', hverify, hnext, ?_⟩
    rw [← hverify] at hframed
    have hnext' := hframed.next_begun (left ++ more)
    rw [← Part.behindHeader_fill] at hnext'
    rw [List.append_assoc, List.append_assoc]
    exact hnext'
  · exact .inr herror

/-- What is pending of a payload that is cut off is the beginning of what is pending of the whole
one. -/
lemma Beside.pending_prefix (h : Beside more r u w) (hw : w.Legible) : u.pending <+: w.pending := by
  obtain ⟨p, rest, regime, regime', -, hheaded, -, rfl, rfl⟩ := h
  obtain ⟨c, ahead, hc, hplace, hlegible⟩ := hw
  obtain rfl : Current.untouched p.entry = c := Option.some.inj hc
  obtain rfl : rest ++ more = ahead := Place.atPayload.inj hplace
  set s := regime.slicing with hs
  set s' := regime'.slicing with hs'
  by_cases hnil : (p.behindHeader rest regime).pending = []
  · rw [hnil]
    exact List.nil_prefix
  · obtain ⟨c, q, hc, hr, hq⟩ := exists_of_pending_ne_nil hnil
    obtain rfl : Current.untouched p.entry = c := Option.some.inj hc
    have hq : (Place.atPayload rest).enter s p.entry = .ok q := hq
    have hr : p.entry.refusal = none := hr
    rw [pending_of_ok (w := p.behindHeader rest regime) rfl hr hq]
    rcases hm : p.entry.method with _ | _ | code
    · obtain rfl : .inStored rest (p.entry.compressedSize.getD 0) = q := by
        simpa [Place.enter, hm] using hq
      have hq' : (Place.atPayload (rest ++ more)).enter s' p.entry =
          .ok (.inStored (rest ++ more) (p.entry.compressedSize.getD 0)) := by
        simp only [Place.enter, hm]
      rw [pending_of_ok (w := p.behindHeader (rest ++ more) regime') rfl hr hq']
      exact (List.prefix_append rest more).take _
    · obtain rfl : .inDeflated (Inflater.inflow (s.slices rest)) = q := by
        simpa [Place.enter, hm] using hq
      have hq' : (Place.atPayload (rest ++ more)).enter s' p.entry =
          .ok (.inDeflated (Inflater.inflow (s'.slices (rest ++ more)))) := by
        simp only [Place.enter, hm]
      rw [pending_of_ok (w := p.behindHeader (rest ++ more) regime') rfl hr hq']
      obtain ⟨payload, data, left, hsplit, hpayload⟩ : Inflatable (rest ++ more) := by
        rcases hlegible with hstored | hcomplete
        · have hstored : p.entry.method = .stored := hstored
          rw [hm] at hstored
          cases hstored
        · exact hcomplete
      have hwhole := hpayload.inflow_eq s' left
      rw [← hsplit] at hwhole
      have hcut : (s.slices rest).flatten ++ more = (s'.slices (rest ++ more)).flatten := by
        rw [s.flatten_slices, s'.flatten_slices]
      rw [Place.pending, Place.pending, hwhole]
      rcases LawfulInflater.inflow_of_cut hwhole hcut with ⟨left', hflow⟩ | ⟨output, hle, hflow⟩
      · rw [hflow]
      · rw [hflow]
        exact hle
    · simp [Place.enter, hm] at hq

/-- A payload that ends without a failure is the same with more bytes behind it. -/
lemma Beside.of_failure_none (h : Beside more r u w) (hf : u.failure = none) :
    w.failure = none ∧ w.pending = u.pending := by
  obtain ⟨p, rest, regime, regime', hverify, hheaded, -, rfl, rfl⟩ := h
  have hr : p.entry.refusal = none :=
    refusal_of_failure_none (c := Current.untouched p.entry) rfl hf
  obtain ⟨payload, trailer, data, left, hdelivers, rfl⟩ := hheaded.exists_delivers hr hf
  have hdelivers' := hdelivers
  rw [← hverify] at hdelivers'
  rw [List.append_assoc, List.append_assoc, Part.behindHeader_fill, Part.behindHeader_fill,
    hdelivers.pending_begun, hdelivers'.pending_begun]
  exact ⟨hdelivers'.failure_begun _, rfl⟩

/-! ## Runs -/

/-- If a search ahead of the first of two walks abreast stops, a search ahead of the second stops at
the same entry. -/
lemma Abreast.findWithin (h : Abreast more u w) {q : Record → Bool} {fuel fuel' : Nat}
    (hfuel : fuel ≤ fuel') (hfind : u.findWithin fuel q = (.ok (some r), u')) :
    ∃ w', w.findWithin fuel' q = (.ok (some r), w') ∧ Beside more r u' w' := by
  induction fuel generalizing u w fuel' with
  | zero => cases hfind
  | succ fuel ih =>
    obtain ⟨fuel', rfl⟩ : ∃ k, fuel' = k + 1 := ⟨fuel' - 1, by omega⟩
    rw [Walk.findWithin] at hfind ⊢
    rcases hnext : u.next with ⟨e | _ | r', v⟩
    · rw [hnext] at hfind
      cases hfind
    · rw [hnext] at hfind
      cases hfind
    · obtain ⟨v', hnext', hbeside⟩ := h.next hnext
      rw [hnext] at hfind
      rw [hnext']
      dsimp only at hfind ⊢
      by_cases hq : q r' = true
      · rw [if_pos hq] at hfind ⊢
        cases hfind
        exact ⟨v', rfl, hbeside⟩
      · rw [if_neg hq] at hfind ⊢
        rcases hbeside.abreast_or_error with habreast | ⟨e, x, herror⟩
        · exact ih habreast (Nat.le_of_succ_le_succ hfuel) hfind
        · rcases fuel with _ | fuel
          · cases hfind
          · rw [Walk.findWithin, herror] at hfind
            cases hfind

/-- What a search finds at the front of a container, it finds with more bytes behind. -/
lemma find_append {cut : Bytes} {q : Record → Bool} (hverify : regime'.verify = regime.verify)
    (hfind : (start cut regime).find q = (.ok (some r), u)) :
    ∃ w, (start (cut ++ more) regime').find q = (.ok (some r), w) ∧ Beside more r u w := by
  have hfuel : (start cut regime).horizon ≤ (start (cut ++ more) regime').horizon := by
    show cut.length + 1 ≤ (cut ++ more).length + 1
    rw [List.length_append]
    omega
  exact (abreast_start cut more hverify).findWithin hfuel hfind

/-- Collecting records collects those of the stops. -/
lemma sweepWithin_eq_stops (fuel : Nat) (w : Walk) :
    (w.sweepWithin (fun v => ((), v)) fuel).1.1.map Prod.fst =
      (w.sweepWithin (fun v => (v, v)) fuel).1.1.map Prod.fst := by
  induction fuel generalizing w with
  | zero => rfl
  | succ fuel ih =>
    rw [sweepWithin, sweepWithin]
    rcases w.next with ⟨e | _ | r, v⟩
    · rfl
    · rfl
    · exact congrArg (r :: ·) (ih v)

/-- The records of the entries ahead are those of the stops. -/
lemma records_eq_stops (w : Walk) : w.records.1 = w.stops.map Prod.fst :=
  sweepWithin_eq_stops w.horizon w

/-- Each stop of the first of two walks abreast is one of the second. -/
lemma Abreast.sweepWithin (h : Abreast more u w) {fuel fuel' : Nat} (hfuel : fuel ≤ fuel') {i : Nat}
    (hstop : (u.sweepWithin (fun v => (v, v)) fuel).1.1[i]? = some (r, u')) :
    ∃ w', (w.sweepWithin (fun v => (v, v)) fuel').1.1[i]? = some (r, w') ∧ Beside more r u' w' := by
  induction fuel generalizing u w fuel' i with
  | zero => cases hstop
  | succ fuel ih =>
    obtain ⟨fuel', rfl⟩ : ∃ k, fuel' = k + 1 := ⟨fuel' - 1, by omega⟩
    rw [Walk.sweepWithin] at hstop ⊢
    rcases hnext : u.next with ⟨e | _ | r', v⟩
    · rw [hnext] at hstop
      cases hstop
    · rw [hnext] at hstop
      cases hstop
    · obtain ⟨v', hnext', hbeside⟩ := h.next hnext
      rw [hnext] at hstop
      rw [hnext']
      rcases i with _ | i
      · cases hstop
        exact ⟨v', rfl, hbeside⟩
      · rcases hbeside.abreast_or_error with habreast | ⟨e, x, herror⟩
        · exact ih habreast (Nat.le_of_succ_le_succ hfuel) hstop
        · have hnone : (v.sweepWithin (fun v => (v, v)) fuel).1.1 = [] := by
            rcases fuel with _ | fuel
            · rfl
            · rw [Walk.sweepWithin, herror]
          have hstop : (v.sweepWithin (fun v => (v, v)) fuel).1.1[i]? = some (r, u') := hstop
          rw [hnone] at hstop
          cases hstop

/-- Each stop in a container is one with more bytes behind. -/
lemma stops_append {cut : Bytes} {i : Nat} (hverify : regime'.verify = regime.verify)
    (hstop : (start cut regime).stops[i]? = some (r, u)) :
    ∃ w, (start (cut ++ more) regime').stops[i]? = some (r, w) ∧ Beside more r u w := by
  have hfuel : (start cut regime).horizon ≤ (start (cut ++ more) regime').horizon := by
    show cut.length + 1 ≤ (cut ++ more).length + 1
    rw [List.length_append]
    omega
  exact (abreast_start cut more hverify).sweepWithin hfuel hstop

/-- The records of a container are the first ones with more bytes behind. -/
lemma records_append (cut more : Bytes) (hverify : regime'.verify = regime.verify) :
    (start cut regime).records.1 <+: (start (cut ++ more) regime').records.1 := by
  rw [records_eq_stops, records_eq_stops, List.prefix_iff_getElem?]
  intro i hi
  have hlt : i < (start cut regime).stops.length := by rwa [List.length_map] at hi
  rcases hstop : (start cut regime).stops[i] with ⟨r, u⟩
  obtain ⟨w, hwhole, -⟩ : ∃ w, (start (cut ++ more) regime').stops[i]? = some (r, w) ∧
      Beside more r u w := stops_append hverify (List.getElem?_eq_some_iff.mpr ⟨hlt, hstop⟩)
  rw [List.getElem?_map, hwhole, List.getElem_map, hstop]
  rfl

end Lawful

end Walk

end ZipMount
