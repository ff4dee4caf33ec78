import ZipMount.Proofs.Layout.Field
import ZipMount.Walk

/-!
# Headers read back

What stands in front of a payload and behind it reads back as it was written, whatever follows.
`Reader.Reads` is the statement for one reader, and it is closed under sequencing, so a format of
many fields is read back field by field in the order of its definition.

`LocalHeader.Names` and `LocalHeader.Sizes` say which name and which sizes a header stands for
without reference to how it is read: the name is text in the promised encoding, and a size that the
header marks stands in the first zip64 field.  `entry_of_says` is what the walk makes of such a
header.
-/

namespace ZipMount

namespace Reader

variable {α β : Type}

/-- The reader takes exactly the given text off every input that begins with it. -/
def Reads (r : Reader α) (text : Bytes) (a : α) : Prop :=
  ∀ rest, r (text ++ rest) = .ok (a, rest)

/-- A value that is not read takes no text. -/
lemma Reads.pure (a : α) : Reads (Pure.pure a : Reader α) [] a :=
  fun _ => rfl

/-- What is read in sequence stands in sequence. -/
lemma Reads.bind {r : Reader α} {f : α → Reader β} {s t : Bytes} {a : α} {b : β}
    (hr : Reads r s a) (hf : Reads (f a) t b) : Reads (r >>= f) (s ++ t) b := by
  intro rest
  rw [List.append_assoc, bind_of_ok (hr (t ++ rest)), hf rest]

/-- A last value is made of what has been read. -/
lemma Reads.last {r : Reader α} {f : α → Reader β} {s : Bytes} {a : α} {b : β}
    (hr : Reads r s a) (hf : Reads (f a) [] b) : Reads (r >>= f) s b := by
  have h := hr.bind hf
  rwa [List.append_nil] at h

/-- Bytes read back as themselves. -/
lemma reads_bytes (text : Bytes) : Reads (bytes text.length) text text :=
  fun rest => bytes_append text rest

/-- A number that fits its field reads back. -/
lemma reads_field {k n : Nat} (h : n < 256 ^ k) : Reads (field k) (Bytes.le k n) n :=
  fun rest => field_le h rest

/-- With `k` bytes at hand the reader succeeds, whatever follows them, and takes no more of them. -/
def Suffices (k : Nat) (r : Reader α) : Prop :=
  ∀ front : Bytes, k ≤ front.length → ∃ a left, front.length ≤ left.length + k ∧
    ∀ rest, r (front ++ rest) = .ok (a, left ++ rest)

/-- A value that is not read needs no bytes. -/
lemma suffices_pure (a : α) : Suffices 0 (Pure.pure a : Reader α) :=
  fun front _ => ⟨a, front, Nat.le_refl _, fun _ => rfl⟩

/-- A field needs as many bytes as it takes. -/
lemma suffices_field (k : Nat) : Suffices k (field k) := by
  intro front hk
  refine ⟨Bytes.value (front.take k), front.drop k, by rw [List.length_drop]; omega, fun rest => ?_⟩
  have hle : k ≤ (front ++ rest).length := by
    rw [List.length_append]
    omega
  rw [field_of_le hle, List.take_append_of_le_length hk, List.drop_append_of_le_length hk]

/-- What is read in sequence needs the bytes of both. -/
lemma Suffices.bind {r : Reader α} {f : α → Reader β} {j k : Nat} (hr : Suffices j r)
    (hf : ∀ a, Suffices k (f a)) : Suffices (j + k) (r >>= f) := by
  intro front hfront
  obtain ⟨a, left, hleft, hread⟩ := hr front (by omega)
  obtain ⟨b, left', hleft', hread'⟩ := hf a left (by omega)
  refine ⟨b, left', by omega, fun rest => ?_⟩
  rw [bind_of_ok (hread rest), hread' rest]

/-- More bytes suffice as well. -/
lemma Suffices.mono {r : Reader α} {j k : Nat} (hr : Suffices j r) (hjk : j ≤ k) :
    Suffices k r := by
  intro front hfront
  obtain ⟨a, left, hleft, hread⟩ := hr front (by omega)
  exact ⟨a, left, by omega, hread⟩

end Reader

open Reader (Reads reads_bytes reads_field)

/-! ## Descriptors -/

namespace Descriptor

/-- The numbers fit their fields. -/
structure Fits (w : SizeWidth) (d : Descriptor) : Prop where
  crc32 : d.crc32 < 256 ^ 4
  compressed : d.compressed < 256 ^ w.bytes
  uncompressed : d.uncompressed < 256 ^ w.bytes

/-- A descriptor with its signature reads back. -/
lemma reads_signed {w : SizeWidth} {d : Descriptor} (h : d.Fits w) :
    Reads (read w) (d.encodeSigned w) d := by
  unfold read encodeSigned encodeUnsigned
  rw [List.append_assoc]
  refine (reads_field (by decide)).bind ?_
  rw [if_pos rfl]
  refine (reads_field h.crc32).bind ?_
  refine (reads_field h.compressed).bind ?_
  exact (reads_field h.uncompressed).last (.pure d)

/-- A descriptor without its signature reads back if its checksum is not the signature. -/
lemma reads_unsigned {w : SizeWidth} {d : Descriptor} (h : d.Fits w)
    (hcrc : d.crc32 ≠ signature) : Reads (read w) (d.encodeUnsigned w) d := by
  unfold read encodeUnsigned
  rw [List.append_assoc]
  refine (reads_field h.crc32).bind ?_
  rw [if_neg hcrc]
  refine ((Reads.pure d.crc32).bind ?_ : Reads _ ([] ++ _) d)
  refine (reads_field h.compressed).bind ?_
  exact (reads_field h.uncompressed).last (.pure d)

/-- A descriptor is read if there are bytes for the longer of its two forms. -/
lemma suffices_read (w : SizeWidth) : Reader.Suffices (8 + 2 * w.bytes) (read w) := by
  have hfacts : ∀ crc32, Reader.Suffices (w.bytes + (w.bytes + 0)) (do
      let compressed ← Reader.field w.bytes
      let uncompressed ← Reader.field w.bytes
      return (⟨crc32, compressed, uncompressed⟩ : Descriptor) : Reader Descriptor) :=
    fun crc32 => (Reader.suffices_field _).bind fun _ =>
      (Reader.suffices_field _).bind fun _ => Reader.suffices_pure _
  have hread : Reader.Suffices (4 + (4 + (w.bytes + (w.bytes + 0)))) (read w) := by
    refine (Reader.suffices_field 4).bind fun first => ?_
    dsimp only
    split
    · exact (Reader.suffices_field 4).bind hfacts
    · exact ((Reader.suffices_pure first).bind hfacts).mono (by omega)
  exact hread.mono (by omega)

end Descriptor

/-! ## Extra fields -/

namespace ExtraField

/-- The tag and the length fit their fields. -/
structure Fits (f : ExtraField) : Prop where
  tag : f.tag < 256 ^ 2
  length : f.data.length < 256 ^ 2

/-- An extra field reads back. -/
lemma reads {f : ExtraField} (h : f.Fits) : Reads read f.encode f := by
  unfold read encode
  rw [List.append_assoc]
  refine (reads_field h.tag).bind ?_
  refine (reads_field h.length).bind ?_
  exact (reads_bytes f.data).last (.pure f)

/-- The first field of a list of them. -/
lemma upTo_encode {f : ExtraField} (h : f.Fits) (limit : Nat) (rest : Bytes) :
    upTo (limit + 1) (f.encode ++ rest) = f :: upTo limit rest := by
  rw [upTo, reads h rest]

/-- A field takes at least four bytes. -/
lemma length_encode (f : ExtraField) : f.encode.length = 4 + f.data.length := by
  simp only [encode, List.length_append, Bytes.length_le]

/-- Behind fields that do not satisfy a condition, the first field that does is found. -/
lemma find?_upTo {q : ExtraField → Bool} {before : List ExtraField} {f : ExtraField} {after : Bytes}
    {limit : Nat} (hb : ∀ g ∈ before, g.Fits ∧ q g = false) (hf : f.Fits) (hq : q f = true)
    (hlimit : before.length < limit) :
    (upTo limit (before.flatMap encode ++ (f.encode ++ after))).find? q = some f := by
  induction before generalizing limit with
  | nil =>
    obtain ⟨l, rfl⟩ : ∃ l, limit = l + 1 := ⟨limit - 1, by omega⟩
    rw [List.flatMap_nil, List.nil_append, upTo_encode hf, List.find?_cons_of_pos hq]
  | cons g before ih =>
    obtain ⟨l, rfl⟩ : ∃ l, limit = l + 1 := ⟨limit - 1, by omega⟩
    obtain ⟨hg, hqg⟩ := hb g List.mem_cons_self
    have hrest := ih (fun g hg => hb g (List.mem_cons_of_mem _ hg)) (Nat.lt_of_succ_lt_succ hlimit)
    rw [List.flatMap_cons, List.append_assoc, upTo_encode hg,
      List.find?_cons_of_neg (by rw [hqg]; decide), hrest]

/-- There are no more fields than bytes. -/
lemma length_le_flatMap (fields : List ExtraField) :
    fields.length ≤ (fields.flatMap encode).length := by
  induction fields with
  | nil => exact Nat.le_refl 0
  | cons f fields ih =>
    rw [List.flatMap_cons, List.length_append, List.length_cons, length_encode]
    omega

/-- The first field that satisfies a condition is found among all fields. -/
lemma find?_all {q : ExtraField → Bool} {before : List ExtraField} {f : ExtraField} {after : Bytes}
    (hb : ∀ g ∈ before, g.Fits ∧ q g = false) (hf : f.Fits) (hq : q f = true) :
    (all (before.flatMap encode ++ (f.encode ++ after))).find? q = some f := by
  refine find?_upTo hb hf hq ?_
  have hle := length_le_flatMap before
  rw [List.length_append, List.length_append, length_encode]
  omega

end ExtraField

/-! ## Local headers -/

namespace LocalHeader

/-- The numbers and the lengths fit their fields. -/
structure Fits (h : LocalHeader) : Prop where
  version : h.version < 256 ^ 2
  flags : h.flags < 256 ^ 2
  method : h.method < 256 ^ 2
  modTime : h.modTime < 256 ^ 2
  modDate : h.modDate < 256 ^ 2
  crc32 : h.crc32 < 256 ^ 4
  compressed : h.compressed < 256 ^ 4
  uncompressed : h.uncompressed < 256 ^ 4
  name : h.name.length < 256 ^ 2
  extra : h.extra.length < 256 ^ 2

/-- The fields of a header read back. -/
lemma reads {h : LocalHeader} (hf : h.Fits) : Reads read h.fields h := by
  unfold read fields
  simp only [List.append_assoc]
  refine (reads_field hf.version).bind ?_
  refine (reads_field hf.flags).bind ?_
  refine (reads_field hf.method).bind ?_
  refine (reads_field hf.modTime).bind ?_
  refine (reads_field hf.modDate).bind ?_
  refine (reads_field hf.crc32).bind ?_
  refine (reads_field hf.compressed).bind ?_
  refine (reads_field hf.uncompressed).bind ?_
  refine (reads_field hf.name).bind ?_
  refine (reads_field hf.extra).bind ?_
  refine (reads_bytes h.name).bind ?_
  exact (reads_bytes h.extra).last (.pure h)

/-- The name a header stands for: text as it is if that is promised, and anything else with its
ill-formed parts replaced. -/
def Names (h : LocalHeader) (name : String) : Prop :=
  if h.hasUtf8Name then h.name = Utf8.encode name else name = Utf8.decodeLossy h.name

/-- The entry has its name. -/
lemma entryName_of_names {h : LocalHeader} {name : String} (hn : h.Names name) :
    h.entryName = .ok name := by
  unfold Names at hn
  unfold entryName
  split
  next hutf8 =>
    rw [if_pos hutf8] at hn
    rw [hn, Utf8.decode?_encode]
  next hutf8 =>
    rw [if_neg hutf8] at hn
    rw [hn]

/-- The sizes that the header marks, as they stand in the zip64 field. -/
def marked (h : LocalHeader) (uncompressed compressed : Nat) : Bytes :=
  (if h.uncompressed = sizeMarker then Bytes.le 8 uncompressed else []) ++
    (if h.compressed = sizeMarker then Bytes.le 8 compressed else [])

/-- The sizes a header stands for: its own unless it marks them, and those in the first zip64 field
if it does. -/
structure Sizes (h : LocalHeader) (uncompressed compressed : Nat) : Prop where
  uncompressed_eq : h.uncompressed ≠ sizeMarker → uncompressed = h.uncompressed
  compressed_eq : h.compressed ≠ sizeMarker → compressed = h.compressed
  uncompressed_lt : uncompressed < 256 ^ 8
  compressed_lt : compressed < 256 ^ 8
  zip64 : h.isZip64 = true → ∃ (before : List ExtraField) (after more : Bytes),
    (∀ g ∈ before, g.Fits ∧ g.tag ≠ zip64Tag) ∧
    (ExtraField.mk zip64Tag (h.marked uncompressed compressed ++ more)).Fits ∧
    h.extra = before.flatMap ExtraField.encode ++
      ((ExtraField.mk zip64Tag (h.marked uncompressed compressed ++ more)).encode ++ after)

/-- A header that marks no size stands for its own sizes. -/
lemma sizes_of_unmarked {h : LocalHeader} (hf : h.Fits) (hz : h.isZip64 = false) :
    h.Sizes h.uncompressed h.compressed where
  uncompressed_eq := fun _ => rfl
  compressed_eq := fun _ => rfl
  uncompressed_lt := Nat.lt_of_lt_of_le hf.uncompressed (by decide)
  compressed_lt := Nat.lt_of_lt_of_le hf.compressed (by decide)
  zip64 := by
    intro hz'
    rw [hz] at hz'
    cases hz'

/-- A marked size is read from the zip64 field, any other is at hand. -/
lemma reads_resolveSize {headerSize size : Nat} (hs : headerSize ≠ sizeMarker → size = headerSize)
    (hlt : size < 256 ^ 8) :
    Reads (resolveSize headerSize) (if headerSize = sizeMarker then Bytes.le 8 size else [])
      size := by
  unfold resolveSize
  by_cases hm : headerSize = sizeMarker
  · rw [if_pos hm, if_pos hm]
    exact reads_field hlt
  · rw [if_neg hm, if_neg hm, hs hm]
    exact .pure headerSize

/-- The marked sizes read back. -/
lemma reads_resolveSizes {h : LocalHeader} {u c : Nat} (hs : h.Sizes u c) :
    Reads (resolveSizes h.uncompressed h.compressed) (h.marked u c) (u, c) := by
  unfold resolveSizes marked
  refine (reads_resolveSize hs.uncompressed_eq hs.uncompressed_lt).bind ?_
  exact (reads_resolveSize hs.compressed_eq hs.compressed_lt).last (.pure (u, c))

/-- The entry has its sizes. -/
lemma sizes_of_sizes {h : LocalHeader} {u c : Nat} (hs : h.Sizes u c) : h.sizes = .ok (u, c) := by
  unfold sizes
  by_cases hz : h.isZip64 = true
  · obtain ⟨before, after, more, hbefore, hfits, hextra⟩ := hs.zip64 hz
    have hfind : (ExtraField.all h.extra).find? (·.tag = zip64Tag) =
        some ⟨zip64Tag, h.marked u c ++ more⟩ := by
      rw [hextra]
      refine ExtraField.find?_all (fun g hg => ?_) hfits (decide_eq_true rfl)
      exact ⟨(hbefore g hg).1, decide_eq_false (hbefore g hg).2⟩
    rw [if_pos hz, zip64Sizes, hfind]
    dsimp only
    rw [reads_resolveSizes hs more]
  · have hnone : h.uncompressed ≠ sizeMarker ∧ h.compressed ≠ sizeMarker := by
      simpa [isZip64] using hz
    rw [if_neg hz, hs.uncompressed_eq hnone.1, hs.compressed_eq hnone.2]

/-- What the walk makes of a header: its description, if the end of the payload can be found. -/
lemma entry_of_says {h : LocalHeader} {name : String} {u c : Nat} (hn : h.Names name)
    (hs : h.Sizes u c)
    (hend : h.hasDescriptor = true → c = 0 → h.isEncrypted = false ∧ h.method = 8) :
    h.entry = .ok (h.describe name u c) := by
  have hdel : delimited (h.describe name u c) = .ok (h.describe name u c) := by
    unfold delimited
    by_cases hd : h.hasDescriptor = true
    · by_cases hc : c = 0
      · obtain ⟨henc, hmethod⟩ := hend hd hc
        simp [describe, hd, hc, refusal, henc, hmethod, Method.ofCode]
      · simp [describe, hd, hc]
    · simp [describe, hd]
  unfold entry
  simp only [entryName_of_names hn, sizes_of_sizes hs, bind, Except.bind, hdel]

end LocalHeader

/-- The next entry of a container is the one whose header stands first. -/
lemma Walk.header_encode {h : LocalHeader} {e : Entry} (hf : h.Fits) (he : h.entry = .ok e)
    (rest : Bytes) : Walk.header (h.encode ++ rest) = .ok (some (e, rest)) := by
  have hword : Reader.field 4 (h.encode ++ rest) =
      .ok (LocalHeader.signature, h.fields ++ rest) := by
    rw [LocalHeader.encode, List.append_assoc]
    exact reads_field (by decide) _
  rw [header, hword]
  dsimp only
  rw [if_pos rfl, LocalHeader.reads hf rest]
  simp only [he, bind, Except.bind, pure, Except.pure]

/-- Without further bytes or in front of a word that ends the run of entries, no entry follows. -/
lemma Walk.header_end {word : Nat} (hw : word ∈ LocalHeader.endSignatures) (rest : Bytes) :
    Walk.header (Bytes.le 4 word ++ rest) = .ok none := by
  have hlt : word < 256 ^ 4 := by
    simp only [LocalHeader.endSignatures, List.mem_cons, List.not_mem_nil, or_false] at hw
    omega
  have hne : word ≠ LocalHeader.signature := by
    rintro rfl
    exact absurd hw (by decide)
  rw [header, reads_field hlt rest]
  dsimp only
  rw [if_neg hne, if_pos hw]

end ZipMount
