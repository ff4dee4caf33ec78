import ZipMount.Proofs.Layout.Accepted

/-!
# What a walk gets through is a part

A walk at a header knows what the header says and nothing of what follows it.  `Part.Headed` says
this much of a part, and `Part.behindHeader` is the walk at the first byte after such a header,
with any bytes ahead.

If the walk then reads to an end without failing, the bytes ahead are the payload and the descriptor
of a part that delivers its data, followed by the rest (`exists_delivers`).  If it moves on without
touching anything, they are those of a framed part (`exists_framed`).  The part has the same header
in either case; `Part.fill` puts the other pieces behind it.
-/

namespace ZipMount

/-- A payload is accepted exactly if nothing that is recorded for it differs. -/
lemma Entry.check_eq_ok_iff {e : Entry} {crc : UInt32} {held : Nat} :
    e.check crc held = .ok () ↔
      (∀ declared, e.declaredSize = some declared → declared = held) ∧
        ∀ expected, e.expectedCrc = some expected → expected = crc := by
  have hlength : (∀ declared, e.declaredSize = some declared → declared = held) ↔
      e.declaredSize = none ∨ e.declaredSize = some held := by
    cases e.declaredSize <;> simp
  have hcrc : (∀ expected, e.expectedCrc = some expected → expected = crc) ↔
      e.expectedCrc = none ∨ e.expectedCrc = some crc := by
    cases e.expectedCrc <;> simp
  rw [hlength, hcrc, check]
  rcases e.declaredSize with _ | declared
  · rcases e.expectedCrc with _ | expected
    · simp [pure, Except.pure]
    · by_cases hx : expected = crc
      · simp [hx, pure, Except.pure]
      · simp [hx, throw, throwThe, MonadExceptOf.throw]
  · by_cases hd : declared = held
    · rcases e.expectedCrc with _ | expected
      · simp [hd, pure, Except.pure]
      · by_cases hx : expected = crc
        · simp [hd, hx, pure, Except.pure]
        · simp [hd, hx, throw, throwThe, MonadExceptOf.throw]
    · simp [hd, throw, throwThe, MonadExceptOf.throw, bind, Except.bind]

namespace Part

/-- The part with other pieces behind its header. -/
def fill (p : Part) (payload : Bytes) (trailer : Option Trailer) (data : Bytes) : Part :=
  { p with payload, trailer, data }

/-- What the walk makes of a header does not depend on what follows it. -/
@[simp] lemma entry_fill (p : Part) (payload : Bytes) (trailer : Option Trailer) (data : Bytes) :
    (p.fill payload trailer data).entry = p.entry := rfl

/-- The header is one that the walk accepts, and says what the part stands for. -/
structure Headed (p : Part) : Prop where
  fits : p.header.Fits
  names : p.header.Names p.name
  sizes : p.header.Sizes p.uncompressed p.compressed
  delimited : p.header.hasDescriptor = true → p.compressed = 0 →
    p.header.isEncrypted = false ∧ p.header.method = 8

/-- The walk at the first byte after the header, with the given bytes ahead. -/
def behindHeader (p : Part) (rest : Bytes) (regime : Regime) : Walk :=
  ⟨.atPayload rest, some (Current.untouched p.entry), regime⟩

variable {p : Part} {regime : Regime}

/-- With the pieces of a part ahead, the walk behind its header is at the payload of that part. -/
lemma behindHeader_fill (p : Part) (payload : Bytes) (trailer : Option Trailer) (data more : Bytes)
    (regime : Regime) :
    p.behindHeader (payload ++ ((p.fill payload trailer data).ending ++ more)) regime =
      (p.fill payload trailer data).begun more regime := rfl

/-- The data is as recorded if it has passed the comparison. -/
lemma Trailed.recorded_of_check (h : p.Trailed) (hf : p.header.Fits)
    (hc : p.settled.check (crc32 p.data) p.data.length = .ok ()) : p.Recorded := by
  obtain ⟨hlength, hcrc⟩ := Entry.check_eq_ok_iff.mp hc
  have hlt : p.recordedCrc < 2 ^ 32 := by
    unfold recordedCrc
    cases ht : p.trailer with
    | none => exact hf.crc32
    | some t => exact (h.trailer_fits t ht).facts.crc32
  constructor
  · exact (hlength _ h.declaredSize_settled).symm
  · rw [← hcrc _ h.expectedCrc_settled]
    exact UInt32.toNat_ofNat_of_lt' hlt

/-- Whatever has been read behind the payload is a descriptor that the header announces. -/
lemma exists_trailer {input more : Bytes} {e : Entry}
    (h : Walk.settle p.entry input = .ok (e, more)) :
    ∃ trailer, ∀ payload data, (p.fill payload trailer data).Trailed ∧
      e = (p.fill payload trailer data).settled ∧
      input = (p.fill payload trailer data).ending ++ more := by
  by_cases hd : p.header.hasDescriptor = true
  · have hwidth : p.entry.descriptor = some p.width := p.descriptor_entry.trans (if_pos hd)
    rw [Walk.settle, hwidth] at h
    obtain ⟨facts, left, hread, hlast⟩ := Reader.exists_of_bind_eq_ok h
    cases hlast
    obtain ⟨signed, hfits, hinput⟩ := Trailer.exists_of_read hread
    refine ⟨some ⟨facts, signed⟩, fun payload data => ⟨⟨hd, ?_⟩, rfl, hinput⟩⟩
    intro t ht
    cases ht
    exact hfits
  · have hnone : p.header.hasDescriptor = false := Bool.eq_false_iff.mpr hd
    have hwidth : p.entry.descriptor = none := p.descriptor_entry.trans (if_neg hd)
    rw [Walk.settle, hwidth] at h
    cases h
    refine ⟨none, fun payload data => ⟨⟨hnone, ?_⟩, rfl, rfl⟩⟩
    intro t ht
    cases ht

/-- A header that is found is that of a part of which nothing else is known. -/
lemma Headed.exists_of_header {input rest : Bytes} {e : Entry}
    (h : Walk.header input = .ok (some (e, rest))) :
    ∃ p : Part, p.Headed ∧ e = p.entry ∧ input = p.header.encode ++ rest := by
  obtain ⟨header, name, u, c, hfits, hnames, hsizes, hdelimited, he, hinput⟩ :=
    Walk.header_eq_some_iff.mp h
  exact ⟨⟨header, [], none, name, u, c, []⟩, ⟨hfits, hnames, hsizes, hdelimited⟩, he, hinput⟩

variable [LawfulInflater]

/-- A payload that has begun and is followed by further bytes is an encoding of the bytes that it
delivers. -/
lemma exists_payload (hr : p.entry.refusal = none) {s : Slicing} {rest left : Bytes} {q : Place}
    (henter : (Place.atPayload rest).enter s p.entry = .ok q) (hb : q.beyond = some (.ok left)) :
    ∃ payload, rest = payload ++ left ∧ ∀ trailer,
      (p.fill payload trailer q.pending).Readable ∧ (p.fill payload trailer q.pending).Decodes ∧
      (p.header.method = 0 → payload.length = p.compressed) := by
  have hreadable : p.Readable := refusal_eq_none_iff.mp (refusal_entry (p := p) ▸ hr)
  rcases hreadable.2 with hm | hm
  · have hmethod : p.entry.method = .stored := method_entry_of_zero hm
    rw [Place.enter, hmethod, getD_compressedSize] at henter
    cases henter
    rw [Place.beyond] at hb
    split at hb
    next hle =>
      cases hb
      have hlen : (rest.take p.compressed).length = p.compressed := List.length_take_of_le hle
      refine ⟨rest.take p.compressed, (List.take_append_drop _ _).symm, fun trailer => ?_⟩
      refine ⟨hreadable, ?_, fun _ => hlen⟩
      have hdata : (p.fill (rest.take p.compressed) trailer
          (Place.inStored rest p.compressed).pending).header.method = 0 := hm
      rw [Decodes, if_pos hdata]
      rfl
    next => cases hb
  · have hne : p.header.method ≠ 0 := by omega
    have hmethod : p.entry.method = .deflated := method_entry_of_eight hm
    rw [Place.enter, hmethod] at henter
    cases henter
    obtain ⟨payload, hrest, hpayload⟩ := exists_inflates_of_ending (Option.some.inj hb)
    refine ⟨payload, hrest, fun trailer => ⟨hreadable, ?_, fun h0 => absurd h0 hne⟩⟩
    rw [Decodes, if_neg (by exact hne)]
    exact hpayload

namespace Headed

/-- The bytes ahead of a walk that reads to an end without failing are those of a part that delivers
its data, and the rest. -/
theorem exists_delivers (h : p.Headed) (hr : p.entry.refusal = none) {rest : Bytes}
    (hf : (p.behindHeader rest regime).failure = none) :
    ∃ payload trailer data more, (p.fill payload trailer data).Delivers regime.verify ∧
      rest = payload ++ ((p.fill payload trailer data).ending ++ more) := by
  obtain ⟨q, left, more, henter, hb, hcon⟩ := Walk.exists_conclusion
    (w := p.behindHeader rest regime) (c := Current.untouched p.entry) rfl rfl hr hf
  obtain ⟨e, hsettle⟩ := Walk.settle_of_conclusion hcon
  obtain ⟨payload, hrest, hpayload⟩ := Part.exists_payload hr henter hb
  obtain ⟨trailer, htrailer⟩ := exists_trailer hsettle
  obtain ⟨htrailed, he, hleft⟩ := htrailer payload q.pending
  obtain ⟨hreadable, hdecodes, hstored⟩ := hpayload trailer
  refine ⟨payload, trailer, q.pending, more, ⟨htrailed, hreadable, hdecodes, hstored, ?_⟩, ?_⟩
  · intro hverify
    have hcheck : e.check (crc32 q.pending) q.pending.length = .ok () := by
      have hproduced : ((Current.untouched p.entry).absorb q.pending).produced =
          q.pending.length := by
        simp [Current.absorb, Current.untouched]
      have hverify' : (p.behindHeader rest regime).verify = true := hverify
      rw [Walk.conclusion, hsettle] at hcon
      dsimp only at hcon
      rw [hverify', if_pos rfl, hproduced] at hcon
      split at hcon
      next => cases hcon
      next hok => exact hok
    rw [he] at hcheck
    exact htrailed.recorded_of_check h.fits hcheck
  · rw [hrest, hleft]

/-- The bytes ahead of a walk that passes over a payload by its recorded size are those of a framed
part, and the rest. -/
lemma exists_framed_of_sized (h : p.Headed) {rest : Bytes} {v : Walk} {size : Nat}
    (hs : p.entry.compressedSize = some size)
    (hclose : (p.behindHeader rest regime).close = (.ok (), v)) :
    ∃ payload trailer data more, (p.fill payload trailer data).Framed regime.verify ∧
      rest = payload ++ ((p.fill payload trailer data).ending ++ more) := by
  have hcurrent : (p.behindHeader rest regime).current = some (Current.untouched p.entry) := rfl
  obtain ⟨hle, e, more, hsettle⟩ := Walk.exists_of_close_passed rfl hcurrent hs hclose
  obtain ⟨trailer, htrailer⟩ := exists_trailer hsettle
  obtain ⟨htrailed, -, hleft⟩ := htrailer (rest.take size) []
  obtain ⟨hsize, hsized⟩ := htrailed.compressed_of_some hs
  have hlen : (rest.take size).length = size := List.length_take_of_le hle
  refine ⟨rest.take size, trailer, [], more, ?_, ?_⟩
  · exact {
      toTrailed := htrailed
      fits := h.fits
      names := h.names
      sizes := h.sizes
      sized := fun _ => hlen.trans hsize.symm
      unsized := by
        intro htrailer_ne hzero
        rcases hsized with hnone | hne
        · exact absurd hnone htrailer_ne
        · exact absurd hzero hne }
  · rw [← hleft, List.take_append_drop]

/-- The bytes ahead of a walk that reads a payload of which no size is recorded to its end are those
of a framed part, and the rest. -/
lemma exists_framed_of_unsized (h : p.Headed) {rest : Bytes} {v : Walk}
    (hs : p.entry.compressedSize = none)
    (hclose : (p.behindHeader rest regime).close = (.ok (), v)) :
    ∃ payload trailer data more, (p.fill payload trailer data).Framed regime.verify ∧
      rest = payload ++ ((p.fill payload trailer data).ending ++ more) := by
  have hunsized : p.header.hasDescriptor = true ∧ p.compressed = 0 := by
    simpa [entry, LocalHeader.describe] using hs
  obtain ⟨hplain, hm⟩ := h.delimited hunsized.1 hunsized.2
  have hr : p.entry.refusal = none := by
    rw [refusal_entry]
    exact refusal_eq_none_iff.mpr ⟨hplain, .inr hm⟩
  have hfailure : (p.behindHeader rest regime).failure = none := by
    rw [Walk.close_of_drained (c := Current.untouched p.entry) rfl hr (.inr hs)] at hclose
    rcases hf : (p.behindHeader rest regime).failure with _ | e
    · rfl
    · rw [hf] at hclose
      cases hclose
  obtain ⟨payload, trailer, data, more, hd, hrest⟩ := h.exists_delivers hr hfailure
  have hne : (p.fill payload trailer data).header.method ≠ 0 := by
    show p.header.method ≠ 0
    omega
  have hdecode := hd.decodes
  rw [Decodes, if_neg hne] at hdecode
  refine ⟨payload, trailer, data, more, ?_, hrest⟩
  exact {
    toTrailed := hd.toTrailed
    fits := h.fits
    names := h.names
    sizes := h.sizes
    sized := by
      rintro (hnone | hsized)
      · exact absurd hnone (hd.trailer_ne_none hunsized.1)
      · exact absurd hunsized.2 hsized
    unsized := fun _ _ => ⟨hplain, hm, hdecode, hd.recorded⟩ }

/-- The bytes ahead of a walk that moves on without touching anything are those of a framed part,
and the rest. -/
theorem exists_framed (h : p.Headed) {rest : Bytes} {v : Walk}
    (hclose : (p.behindHeader rest regime).close = (.ok (), v)) :
    ∃ payload trailer data more, (p.fill payload trailer data).Framed regime.verify ∧
      rest = payload ++ ((p.fill payload trailer data).ending ++ more) := by
  rcases hs : p.entry.compressedSize with _ | size
  · exact h.exists_framed_of_unsized hs hclose
  · exact h.exists_framed_of_sized hs hclose

end Headed

end Part

end ZipMount
