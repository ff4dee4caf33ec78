import ZipMount.Proofs.Inflater
import ZipMount.Proofs.Layout.Header
import ZipMount.Proofs.Walk.Leaving

/-!
# The parts of an honest container

A `Part` is one entry as it stands in a container, header, payload and descriptor, together with
what it stands for: its name, its sizes and the data of its payload.  `Part.Honest` says that the
former keep to the latter.  Flags, method and extra fields are free, and so is a payload that cannot
be read.

Honesty has two halves.  `Part.Delivers` is what matters to a walk that reads the payload to its end,
and `Part.Framed` what matters to one that touches nothing.  The walk at the payload is `Part.begun`.
What lies ahead of it when the part delivers is the data (`pending_begun`), and after the data the
next header (`ending_begun`); and when the part is framed, leaving it leads to the next header at once
(`close_begun`).
-/

namespace ZipMount

/-- Every code but two names a method without a decoder. -/
lemma Method.ofCode_of_ne {code : Nat} (h0 : code ≠ 0) (h8 : code ≠ 8) :
    ofCode code = .other code := by
  unfold ofCode
  split
  · exact absurd rfl h0
  · exact absurd rfl h8
  · rfl

/-- A descriptor as it stands behind a payload. -/
structure Trailer where
  facts : Descriptor
  /-- Whether its signature is written. -/
  signed : Bool

namespace Trailer

/-- The bytes of a descriptor. -/
def encode (w : SizeWidth) (t : Trailer) : Bytes :=
  if t.signed then t.facts.encodeSigned w else t.facts.encodeUnsigned w

/-- The numbers fit, and a checksum without a signature before it cannot be taken for one. -/
structure Fits (w : SizeWidth) (t : Trailer) : Prop where
  facts : t.facts.Fits w
  crc32_ne : t.signed = false → t.facts.crc32 ≠ Descriptor.signature

/-- A descriptor reads back. -/
lemma reads {w : SizeWidth} {t : Trailer} (h : t.Fits w) :
    Reader.Reads (Descriptor.read w) (t.encode w) t.facts := by
  unfold encode
  cases hs : t.signed with
  | true => exact Descriptor.reads_signed h.facts
  | false => exact Descriptor.reads_unsigned h.facts (h.crc32_ne hs)

end Trailer

/-- An entry as it stands in a container, and what it stands for. -/
structure Part where
  header : LocalHeader
  payload : Bytes
  trailer : Option Trailer
  name : String
  /-- The uncompressed size that the header and its extra fields give. -/
  uncompressed : Nat
  /-- The compressed size that the header and its extra fields give. -/
  compressed : Nat
  /-- What the payload decodes to, if it can be read. -/
  data : Bytes

namespace Part

/-- The width of the sizes in the descriptor. -/
def width (p : Part) : SizeWidth :=
  if p.header.isZip64 then .eight else .four

/-- The bytes after the payload. -/
def ending (p : Part) : Bytes :=
  match p.trailer with
  | none => []
  | some t => t.encode p.width

/-- The bytes of the part. -/
def encode (p : Part) : Bytes :=
  p.header.encode ++ (p.payload ++ p.ending)

/-- The payload is not encrypted, and there is a decoder for its method. -/
def Readable (p : Part) : Prop :=
  p.header.isEncrypted = false ∧ (p.header.method = 0 ∨ p.header.method = 8)

instance (p : Part) : Decidable p.Readable := by
  unfold Readable
  infer_instance

/-- The length recorded for the data: in the descriptor if there is one, else in the header. -/
def recordedLength (p : Part) : Nat :=
  match p.trailer with
  | none => p.uncompressed
  | some t => t.facts.uncompressed

/-- The checksum recorded for the data: in the descriptor if there is one, else in the header. -/
def recordedCrc (p : Part) : Nat :=
  match p.trailer with
  | none => p.header.crc32
  | some t => t.facts.crc32

/-- The payload is an encoding of the data: the data itself, or one whole deflate stream. -/
def Decodes [Inflater] (p : Part) : Prop :=
  if p.header.method = 0 then p.payload = p.data
  else Inflates p.payload p.data

/-- The part is what it says it is. -/
structure Honest [Inflater] (p : Part) : Prop where
  fits : p.header.Fits
  names : p.header.Names p.name
  sizes : p.header.Sizes p.uncompressed p.compressed
  /-- A descriptor follows the payload if and only if the header announces one. -/
  trailer_iff : p.header.hasDescriptor = p.trailer.isSome
  trailer_fits : ∀ t, p.trailer = some t → t.Fits p.width
  /-- The payload has its recorded size; before a descriptor, zero records none. -/
  payload_length : p.trailer = none ∨ p.compressed ≠ 0 → p.payload.length = p.compressed
  /-- A payload without a recorded size is a deflate stream that is not encrypted. -/
  deflated : p.trailer ≠ none → p.compressed = 0 →
    p.header.isEncrypted = false ∧ p.header.method = 8
  decodes : p.Readable → p.Decodes
  data_length : p.Readable → p.data.length = p.recordedLength
  data_crc32 : p.Readable → (crc32 p.data).toNat = p.recordedCrc

/-- A descriptor follows the payload if and only if the header announces one, and it reads back. -/
structure Trailed (p : Part) : Prop where
  trailer_iff : p.header.hasDescriptor = p.trailer.isSome
  trailer_fits : ∀ t, p.trailer = some t → t.Fits p.width

/-- The data has the length and the checksum that are recorded for it. -/
structure Recorded (p : Part) : Prop where
  length_eq : p.data.length = p.recordedLength
  crc32_eq : (crc32 p.data).toNat = p.recordedCrc

/-- A walk that reads the payload to its end gets the data.  Nothing is said about the recorded size
of a deflated payload: its decoder does not need one. -/
structure Delivers [Inflater] (verify : Bool) (p : Part) : Prop extends Trailed p where
  readable : p.Readable
  decodes : p.Decodes
  /-- A stored payload ends where its recorded size says. -/
  stored_length : p.header.method = 0 → p.payload.length = p.compressed
  recorded : verify = true → p.Recorded

/-- A walk that touches nothing passes from the header over the payload to what follows the part.
Nothing is said about a payload of recorded size but that it has that size. -/
structure Framed [Inflater] (verify : Bool) (p : Part) : Prop extends Trailed p where
  fits : p.header.Fits
  names : p.header.Names p.name
  sizes : p.header.Sizes p.uncompressed p.compressed
  /-- The payload has its recorded size; before a descriptor, zero records none. -/
  sized : p.trailer = none ∨ p.compressed ≠ 0 → p.payload.length = p.compressed
  /-- A payload without a recorded size is one whole deflate stream that is not encrypted. -/
  unsized : p.trailer ≠ none → p.compressed = 0 →
    p.header.isEncrypted = false ∧ p.header.method = 8 ∧
      Inflates p.payload p.data ∧ (verify = true → p.Recorded)

/-- What is reported of the part. -/
def record (p : Part) : Record where
  name := p.name
  declaredSize := if p.trailer.isSome then none else some p.uncompressed
  compressedSize := if p.trailer.isSome ∧ p.compressed = 0 then none else some p.compressed
  crc32 := if p.trailer.isSome then 0 else UInt32.ofNat p.header.crc32
  method := Method.ofCode p.header.method

/-- Why the payload cannot be read, if it cannot. -/
def refusal (p : Part) : Option Feature :=
  if p.header.isEncrypted then some (.encryption p.name)
  else if p.header.method = 0 ∨ p.header.method = 8 then none
  else some (.method p.name p.header.method)

/-- The entry of the part, as the walk describes it. -/
def entry (p : Part) : Entry :=
  p.header.describe p.name p.uncompressed p.compressed

/-- The entry with the facts of the descriptor. -/
def settled (p : Part) : Entry :=
  match p.trailer with
  | none => p.entry
  | some t => p.entry.describedBy t.facts

/-- The walk at the first byte of the payload, with the given bytes behind the part. -/
def begun (p : Part) (more : Bytes) (regime : Regime) : Walk :=
  ⟨.atPayload (p.payload ++ (p.ending ++ more)), some (Current.untouched p.entry), regime⟩

section Laws

variable {p : Part}

/-- The pieces of a part stand one after the other. -/
lemma encode_append (p : Part) (more : Bytes) :
    p.encode ++ more = p.header.encode ++ (p.payload ++ (p.ending ++ more)) := by
  simp only [encode, List.append_assoc]

/-- A part can be read if and only if there is no reason why not. -/
lemma refusal_eq_none_iff : p.refusal = none ↔ p.Readable := by
  unfold refusal Readable
  by_cases henc : p.header.isEncrypted = true
  · simp [henc]
  · by_cases hm : p.header.method = 0 ∨ p.header.method = 8
    · simp [henc, hm]
    · simp [henc, hm]

/-- The walk refuses a payload for the same reason. -/
lemma refusal_entry : p.entry.refusal = p.refusal := by
  show p.header.refusal p.name = p.refusal
  unfold LocalHeader.refusal refusal
  by_cases henc : p.header.isEncrypted = true
  · rw [if_pos henc, if_pos henc]
  · rw [if_neg henc, if_neg henc]
    by_cases h0 : p.header.method = 0
    · simp [h0, Method.ofCode]
    · by_cases h8 : p.header.method = 8
      · simp [h8, Method.ofCode]
      · rw [if_neg (by omega), Method.ofCode_of_ne h0 h8]

/-- What the header says of the compressed size is what the part stands for, and nothing before a
descriptor is zero. -/
lemma getD_compressedSize : p.entry.compressedSize.getD 0 = p.compressed := by
  by_cases hc : p.header.hasDescriptor && decide (p.compressed = 0)
  · simp_all [entry, LocalHeader.describe]
  · simp [entry, LocalHeader.describe, hc]

/-- A part with method 0 has a stored payload. -/
lemma method_entry_of_zero (hm : p.header.method = 0) : p.entry.method = .stored := by
  simp [entry, LocalHeader.describe, hm, Method.ofCode]

/-- A part with method 8 has a deflated payload. -/
lemma method_entry_of_eight (hm : p.header.method = 8) : p.entry.method = .deflated := by
  simp [entry, LocalHeader.describe, hm, Method.ofCode]

/-- A descriptor is expected where the header announces one. -/
lemma descriptor_entry (p : Part) :
    p.entry.descriptor = if p.header.hasDescriptor then some p.width else none := rfl

namespace Trailed

/-- The record of the entry is that of the part. -/
lemma record_entry (h : p.Trailed) : p.entry.record = p.record := by
  have hd := h.trailer_iff
  unfold entry Entry.record LocalHeader.describe record
  cases ht : p.trailer with
  | none => simp [hd, ht]
  | some t => simp [hd, ht]

/-- The descriptor reads back. -/
lemma settle_ending (h : p.Trailed) (more : Bytes) :
    Walk.settle p.entry (p.ending ++ more) = .ok (p.settled, more) := by
  have hd := h.trailer_iff
  cases ht : p.trailer with
  | none =>
    have hnone : p.entry.descriptor = none := by
      rw [descriptor_entry, hd, ht]
      rfl
    simp only [Walk.settle, hnone, ending, settled, ht]
    rfl
  | some t =>
    have hsome : p.entry.descriptor = some p.width := by
      rw [descriptor_entry, hd, ht]
      rfl
    have hread := Trailer.reads (h.trailer_fits t ht) more
    simp only [Walk.settle, hsome, ending, settled, ht]
    exact Reader.bind_of_ok hread

/-- The length that the data is compared with is the recorded one. -/
lemma declaredSize_settled (h : p.Trailed) : p.settled.declaredSize = some p.recordedLength := by
  have hd := h.trailer_iff
  cases ht : p.trailer with
  | none => simp [settled, recordedLength, ht, entry, LocalHeader.describe, hd]
  | some t => simp [settled, recordedLength, ht, Entry.describedBy]

/-- The checksum that the data is compared with is the recorded one. -/
lemma expectedCrc_settled (h : p.Trailed) :
    p.settled.expectedCrc = some (UInt32.ofNat p.recordedCrc) := by
  have hd := h.trailer_iff
  cases ht : p.trailer with
  | none => simp [settled, recordedCrc, ht, entry, LocalHeader.describe, hd]
  | some t => simp [settled, recordedCrc, ht, Entry.describedBy]

/-- Data of the recorded length and checksum is accepted. -/
lemma check_settled (h : p.Trailed) (hr : p.Recorded) :
    p.settled.check (crc32 p.data) p.data.length = .ok () := by
  have hlength := hr.length_eq
  have hcrc : UInt32.ofNat p.recordedCrc = crc32 p.data := by
    rw [← hr.crc32_eq, UInt32.ofNat_toNat]
  simp [Entry.check, h.declaredSize_settled, h.expectedCrc_settled, hlength, hcrc]
  rfl

/-- After the data, a walk that verifies compares it with what is recorded, and then is behind the
descriptor. -/
lemma conclusion_ending (h : p.Trailed) (verify : Bool) (more : Bytes) :
    Walk.conclusion verify ((Current.untouched p.entry).absorb p.data) (p.ending ++ more) =
      ((if verify then p.settled.check (crc32 p.data) p.data.length else .ok ()).mapError
        IoError.fault).map fun _ => more := by
  have hcrc : Checksum.finish ((Current.untouched p.entry).absorb p.data).register =
      crc32 p.data := rfl
  have hproduced : ((Current.untouched p.entry).absorb p.data).produced = p.data.length := by
    simp [Current.absorb, Current.untouched]
  have hsettle : Walk.settle ((Current.untouched p.entry).absorb p.data).entry
      (p.ending ++ more) = .ok (p.settled, more) := h.settle_ending more
  unfold Walk.conclusion
  simp only [hsettle, hcrc, hproduced]
  cases verify with
  | false => rfl
  | true => cases p.settled.check (crc32 p.data) p.data.length <;> rfl

/-- A descriptor is announced only where one stands. -/
lemma trailer_ne_none (h : p.Trailed) (hd : p.header.hasDescriptor = true) : p.trailer ≠ none := by
  rw [h.trailer_iff] at hd
  exact Option.ne_none_iff_isSome.mpr hd

/-- A descriptor stands only where one is announced. -/
lemma hasDescriptor_of_trailer (h : p.Trailed) (ht : p.trailer ≠ none) :
    p.header.hasDescriptor = true := by
  rw [h.trailer_iff]
  exact Option.isSome_iff_ne_none.mpr ht

/-- Where a size is recorded, it is the one that the part stands for. -/
lemma compressed_of_some (h : p.Trailed) {size : Nat} (hs : p.entry.compressedSize = some size) :
    p.compressed = size ∧ (p.trailer = none ∨ p.compressed ≠ 0) := by
  have hd := h.trailer_iff
  cases ht : p.trailer with
  | none =>
    have hsize : p.compressed = size := by simpa [entry, LocalHeader.describe, hd, ht] using hs
    exact ⟨hsize, .inl rfl⟩
  | some t =>
    have hsize : p.compressed ≠ 0 ∧ p.compressed = size := by
      simpa [entry, LocalHeader.describe, hd, ht] using hs
    exact ⟨hsize.2, .inr hsize.1⟩

/-- Where no size is recorded, there is a descriptor instead. -/
lemma compressed_of_none (h : p.Trailed) (hs : p.entry.compressedSize = none) :
    p.trailer ≠ none ∧ p.compressed = 0 := by
  have hd := h.trailer_iff
  cases ht : p.trailer with
  | none => simp [entry, LocalHeader.describe, hd, ht] at hs
  | some t =>
    have hzero : p.compressed = 0 := by simpa [entry, LocalHeader.describe, hd, ht] using hs
    exact ⟨Option.some_ne_none t, hzero⟩

end Trailed

/-! ## Parts that are read -/

variable [LawfulInflater] {verify : Bool} {regime : Regime}

namespace Delivers

/-- The walk does not refuse the payload. -/
lemma refusal_eq_none (h : p.Delivers verify) : p.entry.refusal = none := by
  rw [refusal_entry, refusal_eq_none_iff.mpr h.readable]

/-- The payload begins with the data ahead of it, and the bytes behind the payload after the
data. -/
lemma enter_begun (h : p.Delivers verify) (s : Slicing) (more : Bytes) :
    ∃ q, (Place.atPayload (p.payload ++ (p.ending ++ more))).enter s p.entry = .ok q ∧
      q.pending = p.data ∧ q.beyond = some (.ok (p.ending ++ more)) := by
  have hdec := h.decodes
  unfold Decodes at hdec
  -- A stored payload is delimited by its recorded size, a deflated one by itself.
  rcases h.readable.2 with hm | hm
  · rw [if_pos hm] at hdec
    have hmethod : p.entry.method = .stored := method_entry_of_zero hm
    have hsize : p.entry.compressedSize.getD 0 = p.payload.length := by
      rw [h.stored_length hm, getD_compressedSize]
    refine ⟨.inStored (p.payload ++ (p.ending ++ more)) p.payload.length, ?_, ?_, ?_⟩
    · rw [Place.enter, hmethod, hsize]
    · simp [Place.pending, hdec]
    · simp [Place.beyond]
  · have hne : p.header.method ≠ 0 := by omega
    rw [if_neg hne] at hdec
    have hmethod : p.entry.method = .deflated := method_entry_of_eight hm
    have hflow := hdec.inflow_eq s (p.ending ++ more)
    refine ⟨.inDeflated ⟨p.data, .ok (p.ending ++ more)⟩, ?_, rfl, rfl⟩
    rw [Place.enter, hmethod, hflow]

/-- Ahead of the payload is the data. -/
lemma pending_begun (h : p.Delivers regime.verify) (more : Bytes) :
    (p.begun more regime).pending = p.data := by
  obtain ⟨q, henter, hpend, -⟩ := h.enter_begun regime.slicing more
  rw [Walk.pending_of_ok (w := p.begun more regime) (c := Current.untouched p.entry) rfl
    h.refusal_eq_none henter, hpend]

/-- After the data, the walk is at the next header. -/
lemma ending_begun (h : p.Delivers regime.verify) (more : Bytes) :
    (p.begun more regime).ending = (.ok [], ⟨.atHeader more, none, regime⟩) := by
  obtain ⟨q, henter, hpend, hbeyond⟩ := h.enter_begun regime.slicing more
  have hcon : Walk.conclusion regime.verify ((Current.untouched p.entry).absorb p.data)
      (p.ending ++ more) = .ok more := by
    rw [h.conclusion_ending]
    cases hverify : regime.verify with
    | false => rfl
    | true =>
      rw [h.check_settled (h.recorded hverify)]
      rfl
  rw [Walk.ending_of_beyond_ok (w := p.begun more regime) (c := Current.untouched p.entry) rfl
    h.refusal_eq_none henter hbeyond, hpend]
  have hverify : (p.begun more regime).verify = regime.verify := rfl
  rw [hverify, hcon]
  rfl

/-- The data does not end with a failure. -/
lemma failure_begun (h : p.Delivers regime.verify) (more : Bytes) :
    (p.begun more regime).failure = none := by
  rw [Walk.failure, h.ending_begun more]

/-- Leaving a payload of which something has been read leads to the next header. -/
lemma close_pass_begun (h : p.Delivers regime.verify) {k : Nat} (hpos : 0 < k)
    (hk : k ≤ p.data.length) (more : Bytes) :
    ((p.begun more regime).pass k).close = (.ok (), ⟨.atHeader more, none, regime⟩) := by
  have hcurrent : ((p.begun more regime).pass k).current =
      some ((Current.untouched p.entry).absorb (p.data.take k)) := by
    rw [Walk.pass, h.pending_begun]
    rfl
  have hproduced : ((Current.untouched p.entry).absorb (p.data.take k)).produced ≠ 0 := by
    simp only [Current.absorb, Current.untouched, List.length_take_of_le hk]
    omega
  rw [Walk.close_of_drained hcurrent h.refusal_eq_none (.inl hproduced), Walk.failure_pass,
    Walk.ending_pass, h.failure_begun, h.ending_begun]

end Delivers

/-! ## Parts that are passed over -/

namespace Framed

/-- The header is accepted, and says what the part stands for. -/
lemma header_encode (h : p.Framed verify) (rest : Bytes) :
    Walk.header (p.header.encode ++ rest) = .ok (some (p.entry, rest)) := by
  refine Walk.header_encode h.fits (LocalHeader.entry_of_says h.names h.sizes ?_) rest
  intro hd hc
  obtain ⟨hplain, hmethod, -⟩ := h.unsized (h.trailer_ne_none hd) hc
  exact ⟨hplain, hmethod⟩

/-- A payload without a recorded size is delivered. -/
lemma delivers_of_unsized (h : p.Framed verify) (ht : p.trailer ≠ none) (hc : p.compressed = 0) :
    p.Delivers verify := by
  obtain ⟨hplain, hmethod, hdecode, hrecorded⟩ := h.unsized ht hc
  have hne : p.header.method ≠ 0 := by omega
  exact {
    toTrailed := h.toTrailed
    readable := ⟨hplain, .inr hmethod⟩
    decodes := by rwa [Decodes, if_neg hne]
    stored_length := fun h0 => absurd h0 hne
    recorded := hrecorded }

/-- Where a size is recorded, it is that of the payload. -/
lemma length_of_some (h : p.Framed verify) {size : Nat} (hs : p.entry.compressedSize = some size) :
    p.payload.length = size := by
  obtain ⟨hsize, hsized⟩ := h.compressed_of_some hs
  rw [h.sized hsized, hsize]

/-- Leaving a part of which nothing has been read leads to the next header: by its recorded size
where there is one, and by decoding it otherwise. -/
lemma close_begun (h : p.Framed regime.verify) (more : Bytes) :
    (p.begun more regime).close = (.ok (), ⟨.atHeader more, none, regime⟩) := by
  have hcurrent : (p.begun more regime).current = some (Current.untouched p.entry) := rfl
  cases hs : p.entry.compressedSize with
  | some size =>
    have hlen := h.length_of_some hs
    have hle : size ≤ (p.payload ++ (p.ending ++ more)).length := by
      rw [List.length_append]
      omega
    have hsettle : Walk.settle p.entry ((p.payload ++ (p.ending ++ more)).drop size) =
        .ok (p.settled, more) := by
      rw [← hlen, List.drop_left, h.settle_ending more]
    exact Walk.close_of_passed rfl hcurrent hs hle hsettle
  | none =>
    obtain ⟨ht, hc⟩ := h.compressed_of_none hs
    have hd := h.delivers_of_unsized ht hc
    rw [Walk.close_of_drained hcurrent hd.refusal_eq_none (.inr hs), hd.failure_begun,
      hd.ending_begun]

/-- At its header, the walk moves to its payload. -/
lemma next_start (h : p.Framed regime.verify) (more : Bytes) :
    (Walk.start (p.encode ++ more) regime).next = (.ok (some p.record), p.begun more regime) := by
  have hheader := h.header_encode (p.payload ++ (p.ending ++ more))
  rw [← encode_append] at hheader
  have hne : p.encode ++ more ≠ [] := by
    intro hnil
    rw [hnil] at hheader
    cases hheader
  rw [Walk.next_start, if_neg hne, hheader, ← h.record_entry]
  rfl

/-- At its payload, the walk moves on as at the next header. -/
lemma next_begun (h : p.Framed regime.verify) (more : Bytes) :
    (p.begun more regime).next = (Walk.start more regime).next :=
  Walk.next_of_close (h.close_begun more) rfl

end Framed

/-! ## Honest parts -/

namespace Honest

/-- The descriptor of an honest part is where the header says. -/
lemma trailed (h : p.Honest) : p.Trailed := ⟨h.trailer_iff, h.trailer_fits⟩

/-- The data of an honest part that can be read is as recorded. -/
lemma recorded (h : p.Honest) (hr : p.Readable) : p.Recorded := ⟨h.data_length hr, h.data_crc32 hr⟩

/-- An honest part that can be read delivers its data. -/
lemma delivers (h : p.Honest) (hr : p.Readable) (verify : Bool) : p.Delivers verify where
  toTrailed := h.trailed
  readable := hr
  decodes := h.decodes hr
  stored_length := by
    intro h0
    by_cases ht : p.trailer = none
    · exact h.payload_length (.inl ht)
    · refine h.payload_length (.inr fun hc => ?_)
      have h8 := (h.deflated ht hc).2
      omega
  recorded := fun _ => h.recorded hr

/-- An honest part can be passed over. -/
lemma framed (h : p.Honest) (verify : Bool) : p.Framed verify where
  toTrailed := h.trailed
  fits := h.fits
  names := h.names
  sizes := h.sizes
  sized := h.payload_length
  unsized := by
    intro ht hc
    obtain ⟨hplain, h8⟩ := h.deflated ht hc
    have hr : p.Readable := ⟨hplain, .inr h8⟩
    have hne : p.header.method ≠ 0 := by omega
    have hdecode := h.decodes hr
    rw [Decodes, if_neg hne] at hdecode
    exact ⟨hplain, h8, hdecode, fun _ => h.recorded hr⟩

end Honest

end Laws

end Part

end ZipMount
