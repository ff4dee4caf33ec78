import ZipMount.Proofs.Walk.Abreast
import ZipMount.Proofs.Walk.Alike

/-!
# Walks through containers that match

Two containers are `Matched` if they are the same but for the payloads that have their sizes in their
headers, and these have the same lengths.  An untouched walk goes by the sizes and never looks into
such a payload, so walks through matched containers move alike: to the same error, to the end, or to
entries with the same record, where they are `Twins`.  What a search finds and what a scan reports
are the same in both (`Matched.find`, `Matched.records_eq`).

Reading goes into the payloads.  Twins deliver the same bytes with the same end if the payloads
are the same and reading stays inside, as it does in a stored payload and in a deflate stream that
is complete before the recorded size is up (`Twins.outlook_eq`).  A stream that is not goes on into
what follows, where the containers may differ.
-/

namespace ZipMount

/-- A reader for which the bytes at hand suffice gives the same value whatever follows them. -/
lemma Reader.Suffices.map_eq {α : Type} {r : Reader α} {k : Nat} (hr : Suffices k r) {front : Bytes}
    (hk : k ≤ front.length) (rest rest' : Bytes) :
    (r (front ++ rest)).map Prod.fst = (r (front ++ rest')).map Prod.fst := by
  obtain ⟨a, left, -, hread⟩ := hr front hk
  rw [hread rest, hread rest']
  rfl

namespace Part

variable {p : Part}

/-- The part with another payload. -/
def refill (p : Part) (payload : Bytes) : Part := { p with payload }

/-- A record tells the size of its data unless a descriptor is announced. -/
lemma declaredSize_ne_none_iff :
    p.entry.record.declaredSize ≠ none ↔ p.header.hasDescriptor = false := by
  simp [entry, Entry.record, LocalHeader.describe]

/-- Without a descriptor, the compressed size is recorded. -/
lemma compressedSize_of_no_descriptor (hd : p.header.hasDescriptor = false) :
    p.entry.compressedSize = some p.compressed := by
  simp [entry, LocalHeader.describe, hd]

/-- A descriptor has at least the bytes of its shorter form. -/
lemma le_length_ending {t : Trailer} (ht : p.trailer = some t) :
    4 + 2 * p.width.bytes ≤ p.ending.length := by
  simp only [ending, ht, Trailer.encode, Descriptor.encodeSigned, Descriptor.encodeUnsigned]
  split <;> simp only [List.length_append, Bytes.length_le] <;> omega

namespace Framed

variable [LawfulInflater] {verify : Bool} {payload : Bytes}

/-- The header of a framed part is accepted. -/
lemma headed (h : p.Framed verify) : p.Headed where
  fits := h.fits
  names := h.names
  sizes := h.sizes
  delimited := by
    intro hd hc
    obtain ⟨hplain, hmethod, -⟩ := h.unsized (h.trailer_ne_none hd) hc
    exact ⟨hplain, hmethod⟩

/-- A walk that does not verify passes whatever one that does passes. -/
lemma lenient (h : p.Framed verify) : p.Framed false where
  toTrailed := h.toTrailed
  fits := h.fits
  names := h.names
  sizes := h.sizes
  sized := h.sized
  unsized := by
    intro ht hc
    obtain ⟨hplain, hmethod, hdecode, -⟩ := h.unsized ht hc
    exact ⟨hplain, hmethod, hdecode, nofun⟩

/-- A walk that verifies compares only payloads of which no size is recorded. -/
lemma strict (h : p.Framed false)
    (hr : verify = true → p.trailer ≠ none → p.compressed = 0 → p.Recorded) : p.Framed verify where
  toTrailed := h.toTrailed
  fits := h.fits
  names := h.names
  sizes := h.sizes
  sized := h.sized
  unsized := by
    intro ht hc
    obtain ⟨hplain, hmethod, hdecode, -⟩ := h.unsized ht hc
    exact ⟨hplain, hmethod, hdecode, fun hv => hr hv ht hc⟩

/-- Where no descriptor is announced, another payload of the same length does as well. -/
lemma refill (h : p.Framed verify) (hlen : payload.length = p.payload.length)
    (hsame : p.header.hasDescriptor = true → payload = p.payload) :
    (p.refill payload).Framed verify where
  trailer_iff := h.trailer_iff
  trailer_fits := h.trailer_fits
  fits := h.fits
  names := h.names
  sizes := h.sizes
  sized hs := hlen.trans (h.sized hs)
  unsized := by
    intro ht hc
    rw [hsame (h.hasDescriptor_of_trailer ht)]
    exact h.unsized ht hc

/-- Data that is compared and not as recorded makes every walk at the payload fail in one way. -/
lemma exists_failure (h : p.Framed false) (ht : p.trailer ≠ none) (hc : p.compressed = 0)
    (hr : ¬ p.Recorded) :
    ∃ e, ∀ more (s : Slicing), (p.begun more (.verifying s)).next.1 = .error e := by
  have hd := h.delivers_of_unsized ht hc
  cases hcheck : p.settled.check (crc32 p.data) p.data.length with
  | ok _ => exact absurd (h.recorded_of_check h.fits hcheck) hr
  | error f =>
    refine ⟨.io (.fault f), fun more s => ?_⟩
    set w := p.begun more (.verifying s)
    obtain ⟨q, henter, hpending, hbeyond⟩ := hd.enter_begun s more
    have hcurrent : w.current = some (Current.untouched p.entry) := rfl
    have hfailure : w.failure = some (.fault f) := by
      rw [Walk.failure, Walk.ending_of_beyond_ok hcurrent hd.refusal_eq_none henter hbeyond,
        hpending]
      have hconclusion := h.conclusion_ending true more
      rw [if_pos rfl, hcheck] at hconclusion
      have hverify : w.verify = true := rfl
      rw [hverify, hconclusion]
      rfl
    have hnone : p.entry.compressedSize = none := by
      simp [entry, LocalHeader.describe, h.hasDescriptor_of_trailer ht, hc]
    rw [Walk.next, Walk.close_of_drained hcurrent hd.refusal_eq_none (.inr hnone), hfailure]

end Framed

end Part

/-- Two containers that are the same but for payloads that have their sizes in their headers. -/
inductive Matched [Inflater] : Bytes → Bytes → Prop
  | same (container : Bytes) : Matched container container
  /-- The payload is cut off, and ends the container. -/
  | cut {p : Part} {rest rest' : Bytes} (hp : p.Headed) (hd : p.header.hasDescriptor = false)
      (hlen : rest'.length = rest.length) (hshort : rest.length < p.compressed) :
      Matched (p.header.encode ++ rest) (p.header.encode ++ rest')
  | part {p : Part} {payload more more' : Bytes} (hp : p.Framed false)
      (hp' : (p.refill payload).Framed false)
      (hsame : p.header.hasDescriptor = true → payload = p.payload) (hm : Matched more more') :
      Matched (p.encode ++ more) ((p.refill payload).encode ++ more')

namespace Walk

/-- Walks at the payload of an entry with the given record, in containers that match from there on. -/
inductive Twins [Inflater] : Record → Walk → Walk → Prop
  | same {p : Part} (hp : p.Headed) (rest : Bytes) (regime : Regime) :
      Twins p.entry.record (p.behindHeader rest regime) (p.behindHeader rest regime)
  | cut {p : Part} {rest rest' : Bytes} (hp : p.Headed) (hd : p.header.hasDescriptor = false)
      (hlen : rest'.length = rest.length) (hshort : rest.length < p.compressed) (regime : Regime) :
      Twins p.entry.record (p.behindHeader rest regime) (p.behindHeader rest' regime)
  | part {p : Part} {payload more more' : Bytes} (hp : p.Framed false)
      (hp' : (p.refill payload).Framed false)
      (hsame : p.header.hasDescriptor = true → payload = p.payload) (hm : Matched more more')
      (regime : Regime) :
      Twins p.entry.record (p.begun more regime) ((p.refill payload).begun more' regime)

/-- The bytes of the payload that the walk is at, by its recorded size. -/
def ownPayload (w : Walk) : Bytes :=
  match w.place, w.current with
  | .atPayload rest, some c => rest.take (c.entry.compressedSize.getD 0)
  | _, _ => []

/-- The payload is one that reading does not leave before its end: it is not read at all, it is
stored, it has no recorded size, or it has a complete deflate stream within its size. -/
def Contained [Inflater] (w : Walk) : Prop :=
  ∃ c, w.current = some c ∧ (c.entry.refusal.isSome = true ∨ c.entry.method = .stored ∨
    c.entry.compressedSize = none ∨ Inflatable w.ownPayload)

/-- A conclusion fails or not by what is read behind the payload. -/
lemma conclusion_congr (regime : Regime) {c : Current} {rest rest' : Bytes}
    (h : (settle c.entry rest).map Prod.fst = (settle c.entry rest').map Prod.fst) :
    (concluded regime (conclusion regime.verify c rest)).1 =
      (concluded regime (conclusion regime.verify c rest')).1 := by
  unfold conclusion
  generalize settle c.entry rest = read at h ⊢
  generalize settle c.entry rest' = read' at h ⊢
  rcases read with e | ⟨e, left⟩ <;> rcases read' with e' | ⟨e', left'⟩ <;> cases h
  · rfl
  · dsimp only
    cases regime.verify with
    | false => rfl
    | true =>
      rw [if_pos rfl, if_pos rfl]
      rcases e.check (Checksum.finish c.register) c.produced with f | _ <;> rfl

end Walk

section Lawful

variable [LawfulInflater]

/-! ## Moving on -/

namespace Matched

variable {container container' more more' : Bytes}

/-- Matched containers have the same length. -/
lemma length_eq (h : Matched container container') : container'.length = container.length := by
  induction h with
  | same => rfl
  | cut hp hd hlen hshort => rw [List.length_append, List.length_append, hlen]
  | @part p payload more more' hp hp' hsame hm ih =>
    have hpayload : payload.length = p.payload.length := by
      cases hs : p.entry.compressedSize with
      | some size => rw [hp.length_of_some hs, ← hp'.length_of_some (p := p.refill payload) hs]; rfl
      | none =>
        rw [hsame (hp.hasDescriptor_of_trailer (hp.compressed_of_none hs).1)]
    rw [Part.encode_append, Part.encode_append]
    simp only [List.length_append]
    show p.header.encode.length + (payload.length + (p.ending.length + more'.length)) = _
    rw [hpayload, ih]

/-- At the first byte, walks through matched containers move alike. -/
lemma next (h : Matched container container') (regime : Regime) :
    Walk.MovedAlike Walk.Twins (Walk.start container regime).next
      (Walk.start container' regime).next := by
  cases h with
  | same =>
    rcases hnext : (Walk.start container regime).next with ⟨e | _ | r, v⟩
    · exact .failed e v v
    · exact .ended v v
    · obtain ⟨p, rest, hp, -, rfl, rfl⟩ := Walk.next_start_eq_some hnext
      exact .found (.same hp rest regime)
  | cut hp hd hlen hshort =>
    rw [hp.next_start, hp.next_start]
    exact .found (.cut hp hd hlen hshort regime)
  | @part p payload more more' hp hp' hsame hm =>
    have hnext : ∀ {q : Part}, q.Framed false → ∀ rest,
        (Walk.start (q.encode ++ rest) regime).next =
          (.ok (some q.entry.record), q.begun rest regime) := by
      intro q hq rest
      rw [Part.encode_append, hq.headed.next_start]
      rfl
    rw [hnext hp, hnext hp']
    exact .found (.part hp hp' hsame hm regime)

end Matched

/-! ## Reading -/

namespace Matched

variable {more more' : Bytes}

/-- Matched containers are the same, or they begin with the same header. -/
lemma eq_or_exists_front (h : Matched more more') : more = more' ∨
    ∃ front rest rest', 4 ≤ front.length ∧ more = front ++ rest ∧ more' = front ++ rest' := by
  have hfour : ∀ p : Part, 4 ≤ p.header.encode.length := by
    intro p
    simp only [LocalHeader.encode, List.length_append, Bytes.length_le]
    omega
  cases h with
  | same => exact .inl rfl
  | @cut p rest rest' => exact .inr ⟨p.header.encode, rest, rest', hfour p, rfl, rfl⟩
  | @part p payload more more' =>
    exact .inr ⟨p.header.encode, p.payload ++ (p.ending ++ more), payload ++ (p.ending ++ more'),
      hfour p, Part.encode_append p more, Part.encode_append (p.refill payload) more'⟩

/-- What is read behind a payload is the same in matched containers, even if the payload has been
left before its end. -/
lemma settle_eq (h : Matched more more') {p : Part} (hp : p.Framed false) (left : Bytes) :
    (Walk.settle p.entry (left ++ (p.ending ++ more))).map Prod.fst =
      (Walk.settle p.entry (left ++ (p.ending ++ more'))).map Prod.fst := by
  rcases h.eq_or_exists_front with rfl | ⟨front, rest, rest', hfour, rfl, rfl⟩
  · rfl
  · have hd := hp.trailer_iff
    have happend : ∀ tail : Bytes, left ++ (p.ending ++ (front ++ tail)) =
        left ++ p.ending ++ front ++ tail := by simp only [List.append_assoc, implies_true]
    rw [happend, happend]
    cases ht : p.trailer with
    | none =>
      have hnone : p.entry.descriptor = none := by
        rw [Part.descriptor_entry, hd, ht]
        rfl
      rw [Walk.settle, hnone]
      rfl
    | some t =>
      have hsome : p.entry.descriptor = some p.width := by
        rw [Part.descriptor_entry, hd, ht]
        rfl
      -- The first word may be taken for a signature, and then the descriptor ends inside the header.
      have hsuffices : Reader.Suffices (8 + 2 * p.width.bytes + 0) (Walk.settle p.entry) := by
        rw [Walk.settle, hsome]
        exact (Descriptor.suffices_read p.width).bind fun _ => Reader.suffices_pure _
      have hending := Part.le_length_ending ht
      refine hsuffices.map_eq ?_ rest rest'
      simp only [List.length_append]
      omega

end Matched

namespace Walk

variable {p : Part} {regime : Regime} {more more' payload rest : Bytes}

/-- At a part, they are those of the part, or none if no size is recorded. -/
lemma ownPayload_begun (h : p.Framed false) :
    (p.begun more regime).ownPayload = p.payload.take p.compressed := by
  have hle : p.compressed ≤ p.payload.length := by
    by_cases hzero : p.compressed = 0
    · omega
    · rw [h.sized (.inr hzero)]
  show (p.payload ++ (p.ending ++ more)).take (p.entry.compressedSize.getD 0) = _
  rw [Part.getD_compressedSize, List.take_append_of_le_length hle]

/-- Where a size is recorded, they are the whole payload of the part. -/
lemma ownPayload_begun_of_some (h : p.Framed false) {size : Nat}
    (hs : p.entry.compressedSize = some size) : (p.begun more regime).ownPayload = p.payload := by
  obtain ⟨hsize, -⟩ := h.compressed_of_some hs
  rw [ownPayload_begun h, hsize, ← h.length_of_some hs, List.take_length]

/-- Reading a contained payload gives the same bytes whatever stands behind the part, and leaves the
same rest of the payload. -/
lemma Contained.exists_place (hc : (p.begun more regime).Contained) (hp : p.Framed false)
    (hr : p.entry.refusal = none) (s : Slicing) : ∃ output left, ∀ tail, ∃ q,
      (Place.atPayload (p.payload ++ tail)).enter s p.entry = .ok q ∧ q.pending = output ∧
        q.beyond = some (.ok (left ++ tail)) := by
  -- A deflate stream that is complete in the payload is the same one with more bytes behind.
  have hdeflated : p.entry.method = .deflated → ∀ payload output left,
      p.payload = payload ++ left → Inflates payload output → ∀ tail, ∃ q,
        (Place.atPayload (p.payload ++ tail)).enter s p.entry = .ok q ∧ q.pending = output ∧
          q.beyond = some (.ok (left ++ tail)) := by
    intro hm payload output left hsplit hpayload tail
    have hflow := hpayload.inflow_eq s (left ++ tail)
    rw [← List.append_assoc, ← hsplit] at hflow
    refine ⟨.inDeflated ⟨output, .ok (left ++ tail)⟩, ?_, rfl, rfl⟩
    rw [Place.enter, hm, hflow]
  have hreadable := Part.refusal_eq_none_iff.mp (Part.refusal_entry (p := p) ▸ hr)
  cases hs : p.entry.compressedSize with
  | none =>
    obtain ⟨ht, hzero⟩ := hp.compressed_of_none hs
    obtain ⟨-, hm, hpayload, -⟩ := hp.unsized ht hzero
    have hmethod : p.entry.method = .deflated := Part.method_entry_of_eight hm
    exact ⟨_, _, hdeflated hmethod _ _ _ (List.append_nil _).symm hpayload⟩
  | some size =>
    rcases hreadable.2 with hm | hm
    · have hmethod : p.entry.method = .stored := Part.method_entry_of_zero hm
      have hlen := hp.length_of_some hs
      refine ⟨p.payload, [], fun tail => ⟨.inStored (p.payload ++ tail) size, ?_, ?_, ?_⟩⟩
      · rw [Place.enter, hmethod, hs]
        rfl
      · simp [Place.pending, ← hlen]
      · simp [Place.beyond, ← hlen]
    · have hmethod : p.entry.method = .deflated := Part.method_entry_of_eight hm
      obtain ⟨c, hcurrent, hcontained⟩ := hc
      obtain rfl : Current.untouched p.entry = c := Option.some.inj hcurrent
      rcases hcontained with hrefused | hstored | hnone | ⟨payload, output, left, hsplit, hpayload⟩
      · have hrefused : p.entry.refusal.isSome = true := hrefused
        rw [hr] at hrefused
        cases hrefused
      · have hstored : p.entry.method = .stored := hstored
        rw [hmethod] at hstored
        cases hstored
      · have hnone : p.entry.compressedSize = none := hnone
        rw [hs] at hnone
        cases hnone
      · rw [ownPayload_begun_of_some hp hs] at hsplit
        exact ⟨output, left, hdeflated hmethod payload output left hsplit hpayload⟩

/-- A contained payload delivers the same bytes and ends alike with matched containers behind it. -/
lemma Contained.outlook_eq (hc : (p.begun more regime).Contained) (hp : p.Framed false)
    (hm : Matched more more') :
    (p.begun more regime).pending = (p.begun more' regime).pending ∧
      (p.begun more regime).failure = (p.begun more' regime).failure := by
  have hcurrent : ∀ tail, (p.begun tail regime).current = some (Current.untouched p.entry) :=
    fun _ => rfl
  cases hr : p.entry.refusal with
  | some feature =>
    obtain ⟨hnil, hfail⟩ := outlook_of_refusal (hcurrent more) hr
    obtain ⟨hnil', hfail'⟩ := outlook_of_refusal (hcurrent more') hr
    exact ⟨hnil.trans hnil'.symm, hfail.trans hfail'.symm⟩
  | none =>
    obtain ⟨output, left, hplace⟩ := hc.exists_place hp hr regime.slicing
    have houtlook : ∀ tail, (p.begun tail regime).pending = output ∧
        (p.begun tail regime).ending.1 = (concluded regime (conclusion regime.verify
          ((Current.untouched p.entry).absorb output) (left ++ (p.ending ++ tail)))).1 := by
      intro tail
      obtain ⟨q, henter, hpending, hbeyond⟩ := hplace (p.ending ++ tail)
      refine ⟨(pending_of_ok (hcurrent tail) hr henter).trans hpending, ?_⟩
      rw [ending_of_beyond_ok (hcurrent tail) hr henter hbeyond, hpending]
      rfl
    obtain ⟨hpending, hending⟩ := houtlook more
    obtain ⟨hpending', hending'⟩ := houtlook more'
    refine ⟨hpending.trans hpending'.symm, ?_⟩
    have hconclusion := conclusion_congr regime
      (c := (Current.untouched p.entry).absorb output) (hm.settle_eq hp left)
    rw [failure, failure, hending, hending', hconclusion]

namespace Twins

variable {r : Record} {u w : Walk}

/-- A payload whose size is not in its header is the same for twins. -/
lemma ownPayload_eq (h : Twins r u w) (hd : r.declaredSize = none) :
    w.ownPayload = u.ownPayload := by
  cases h with
  | same => rfl
  | @cut p rest rest' _ hsized =>
    exact absurd hd (Part.declaredSize_ne_none_iff.mpr hsized)
  | @part p payload more more' hp hp' hsame =>
    have hdescriptor : p.header.hasDescriptor = true := by
      by_contra hnone
      exact Part.declaredSize_ne_none_iff.mpr (Bool.eq_false_iff.mpr hnone) hd
    rw [ownPayload_begun hp, ownPayload_begun hp', hsame hdescriptor]
    rfl

/-- Twins deliver the same bytes and end alike, if their payloads are the same and contained. -/
lemma outlook_eq (h : Twins r u w) (hc : u.Contained) (hown : w.ownPayload = u.ownPayload) :
    u.pending = w.pending ∧ u.failure = w.failure := by
  cases h with
  | same => exact ⟨rfl, rfl⟩
  | @cut p rest rest' hp hd hlen hshort =>
    have hall : ∀ ahead : Bytes, ahead.length = rest.length → ∀ regime,
        (p.behindHeader ahead regime).ownPayload = ahead := by
      intro ahead hahead regime
      show ahead.take (p.entry.compressedSize.getD 0) = ahead
      rw [Part.getD_compressedSize]
      exact List.take_of_length_le (by omega)
    rw [hall rest' hlen, hall rest rfl] at hown
    rw [hown]
    exact ⟨rfl, rfl⟩
  | @part p payload more more' hp hp' hsame hm regime =>
    have hpayload : payload = p.payload := by
      cases hs : p.entry.compressedSize with
      | some size =>
        rw [ownPayload_begun_of_some hp hs, ownPayload_begun_of_some hp' hs] at hown
        exact hown
      | none =>
        exact hsame (hp.hasDescriptor_of_trailer (hp.compressed_of_none hs).1)
    subst hpayload
    exact hc.outlook_eq hp hm

/-- Twins move on alike. -/
lemma next (h : Twins r u w) : MovedAlike Twins u.next w.next := by
  cases h with
  | @same p hp rest regime =>
    rcases hp.next_behindHeader rest regime with
      ⟨-, -, -, more, -, -, hnext⟩ | ⟨e, v, herror⟩
    · rw [hnext]
      exact (Matched.same more).next regime
    · rw [herror]
      exact .failed e v v
  | @cut p rest rest' hp hd hlen hshort regime =>
    have hsize := Part.compressedSize_of_no_descriptor hd
    have hnext : ∀ ahead : Bytes, ahead.length < p.compressed →
        (p.behindHeader ahead regime).next.1 = .error (.io .shortPayload) := by
      intro ahead hahead
      rw [Walk.next, close_of_short rfl rfl hsize hahead]
    exact .of_error (hnext rest hshort) (hnext rest' (by omega))
  | @part p payload more more' hp hp' hsame hm regime =>
    by_cases hr : regime.verify = true → p.trailer ≠ none → p.compressed = 0 → p.Recorded
    · have hr' : regime.verify = true → (p.refill payload).trailer ≠ none →
          (p.refill payload).compressed = 0 → (p.refill payload).Recorded :=
        fun hv ht hzero => ⟨(hr hv ht hzero).length_eq, (hr hv ht hzero).crc32_eq⟩
      rw [(hp.strict hr).next_begun, (hp'.strict hr').next_begun]
      exact hm.next regime
    · -- The data is compared, and is not as recorded.
      simp only [Classical.not_imp] at hr
      obtain ⟨hverify, ht, hzero, hrecorded⟩ := hr
      obtain ⟨e, he⟩ := hp.exists_failure ht hzero hrecorded
      obtain rfl := hsame (hp.hasDescriptor_of_trailer ht)
      obtain ⟨verify, s⟩ := regime
      obtain rfl : verify = true := hverify
      exact .of_error (he more s) (he more' s)

end Twins

end Walk

namespace Matched

variable {container container' : Bytes}

/-- Walks through matched containers see equally far. -/
lemma horizon_eq (h : Matched container container') (regime : Regime) :
    (Walk.start container' regime).horizon = (Walk.start container regime).horizon :=
  congrArg (· + 1) h.length_eq

/-- Searches through matched containers come to the same. -/
lemma find (h : Matched container container') (q : Record → Bool) (regime : Regime) :
    Walk.MovedAlike Walk.Twins ((Walk.start container regime).find q)
      ((Walk.start container' regime).find q) :=
  (h.next regime).find Walk.Twins.next (h.horizon_eq regime) q

/-- Scans of matched containers report the same. -/
lemma records_eq (h : Matched container container') (regime : Regime) :
    (Walk.start container regime).records = (Walk.start container' regime).records :=
  (h.next regime).records_eq Walk.Twins.next (h.horizon_eq regime)

end Matched

end Lawful

end ZipMount
