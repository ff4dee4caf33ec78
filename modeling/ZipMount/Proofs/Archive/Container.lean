import ZipMount.Archive
import ZipMount.Proofs.Deflate.RoundTrip
import ZipMount.Proofs.Layout.Container
import ZipMount.Proofs.Path.Child

/-!
# Archives are honest containers

What is written for a member is an honest part, whichever of the ways of writing it is taken.
`Layout.Stands` gathers what this needs of a layout: names and numbers fit their fields, and the
payload is an encoding of data of the recorded length and checksum if it is one that can be read.
`Member.Sound` are the conditions on the member itself, and `Member.stands_layout` is the one place
where the kinds of members are told apart.

The directory and the end record are the tail of the container, so an archive of sound members is an
honest container (`Archive.container`), for every encoder of deflate streams that the decoder undoes.
-/

namespace ZipMount

/-! ## Layouts -/

namespace Layout

/-- The layout is that of a member of the given name, with the given data if it can be read. -/
structure Stands [Inflater] (l : Layout) (name : String) (data : Bytes) : Prop where
  name_eq : l.name = Utf8.encode name
  name_lt : l.name.length < 256 ^ 2
  method_lt : l.method < 256 ^ 2
  crc32_lt : l.crc32 < 256 ^ 4
  payload_lt : l.payload.length < sizeMarker
  size_lt : l.size < sizeMarker
  /-- Only deflated payloads are followed by a descriptor. -/
  described : l.sizesIn ≠ .header → l.method = 8
  /-- The checksum cannot be taken for the signature that is left out. -/
  unsigned : l.sizesIn = .descriptor false → l.crc32 ≠ Descriptor.signature
  stored : l.method = 0 → l.payload = data
  deflated : l.method = 8 → Inflates l.payload data
  length_eq : l.method = 0 ∨ l.method = 8 → data.length = l.size
  crc32_eq : l.method = 0 ∨ l.method = 8 → (ZipMount.crc32 data).toNat = l.crc32

/-- What is written, as a part of a container. -/
def part (l : Layout) (name : String) (data : Bytes) : Part where
  header := l.header
  payload := l.payload
  trailer :=
    match l.sizesIn with
    | .header => none
    | .descriptor signed => some ⟨⟨l.crc32, l.payload.length, l.size⟩, signed⟩
  name := name
  uncompressed := l.header.uncompressed
  compressed := l.header.compressed
  data := data

variable {l : Layout} {name : String} {data : Bytes}

/-- The header announces a descriptor exactly where one is written. -/
lemma hasDescriptor_header : l.header.hasDescriptor = (l.part name data).trailer.isSome := by
  cases hs : l.sizesIn <;> simp [LocalHeader.hasDescriptor, header, part, flags, hs] <;> decide

/-- Names are promised to be UTF-8. -/
lemma hasUtf8Name_header (l : Layout) : l.header.hasUtf8Name = true := by
  cases hs : l.sizesIn <;> simp [LocalHeader.hasUtf8Name, header, flags, hs] <;> decide

/-- Nothing is encrypted. -/
lemma isEncrypted_header (l : Layout) : l.header.isEncrypted = false := by
  cases hs : l.sizesIn <;> simp [LocalHeader.isEncrypted, header, flags, hs]

/-- The flags are written as they are. -/
lemma flags_header (l : Layout) : l.header.flags = l.flags := by
  cases hs : l.sizesIn <;> simp [header, hs]

/-- The method is written as it is. -/
lemma method_header (l : Layout) : l.header.method = l.method := by
  cases hs : l.sizesIn <;> simp [header, hs]

/-- The name is written as it is. -/
lemma name_header (l : Layout) : l.header.name = l.name := by
  cases hs : l.sizesIn <;> simp [header, hs]

/-- The recorded length and checksum are those of the layout. -/
lemma recorded_part (l : Layout) (name : String) (data : Bytes) :
    (l.part name data).recordedLength = l.size ∧ (l.part name data).recordedCrc = l.crc32 := by
  cases hs : l.sizesIn <;> simp [Part.recordedLength, Part.recordedCrc, part, header, hs]

/-- What is written can be read exactly if it is stored or deflated. -/
lemma readable_part : (l.part name data).Readable ↔ l.method = 0 ∨ l.method = 8 := by
  show l.header.isEncrypted = false ∧ (l.header.method = 0 ∨ l.header.method = 8) ↔ _
  rw [isEncrypted_header, method_header]
  exact and_iff_right rfl

/-- The numbers of the layout and the length of its name fit their fields. -/
structure Fits (l : Layout) : Prop where
  name : l.name.length < 256 ^ 2
  method : l.method < 256 ^ 2
  crc32 : l.crc32 < 256 ^ 4
  payload : l.payload.length < 256 ^ 4
  size : l.size < 256 ^ 4

/-- The numbers of the header fit their fields. -/
lemma Fits.header (h : l.Fits) : l.header.Fits := by
  have hname := h.name
  have hmethod := h.method
  have hcrc := h.crc32
  have hpayload := h.payload
  have hsize := h.size
  cases hs : l.sizesIn with
  | header =>
    constructor <;> simp only [Layout.header, flags, hs, DirectoryRecord.version,
      DirectoryRecord.date, List.length_nil] <;> omega
  | descriptor signed =>
    constructor <;> simp only [Layout.header, flags, hs, DirectoryRecord.version,
      DirectoryRecord.date, List.length_nil] <;> omega

namespace Stands

variable [Inflater]

/-- No size is marked as being too large for the header. -/
lemma isZip64_header (h : l.Stands name data) : l.header.isZip64 = false := by
  have hpayload := h.payload_lt
  have hsize := h.size_lt
  cases hs : l.sizesIn with
  | header =>
    simp only [LocalHeader.isZip64, header, hs, Bool.or_eq_false_iff, decide_eq_false_iff_not]
    omega
  | descriptor signed =>
    simp only [LocalHeader.isZip64, header, hs]
    decide

/-- The numbers of the layout fit their fields. -/
lemma fits (h : l.Stands name data) : l.Fits := by
  have hpayload := h.payload_lt
  have hsize := h.size_lt
  unfold sizeMarker at hpayload hsize
  exact ⟨h.name_lt, h.method_lt, h.crc32_lt, by omega, by omega⟩

/-- The numbers of the header fit their fields. -/
lemma fits_header (h : l.Stands name data) : l.header.Fits :=
  h.fits.header

/-- The descriptor is the short one. -/
lemma width_part (h : l.Stands name data) : (l.part name data).width = .four := by
  have hzip : (l.part name data).header.isZip64 = false := h.isZip64_header
  rw [Part.width, hzip]
  rfl

/-- What is written behind the payload is the descriptor of the part. -/
lemma ending_part (h : l.Stands name data) : (l.part name data).ending = l.trailer := by
  unfold Part.ending trailer
  rw [h.width_part]
  cases hs : l.sizesIn with
  | header => simp [part, hs]
  | descriptor signed => cases signed <;> simp [part, hs, Trailer.encode]

/-- What is written is the part. -/
lemma encode_part (h : l.Stands name data) : (l.part name data).encode = l.segment := by
  rw [Part.encode, h.ending_part, segment, List.append_assoc]
  rfl

/-- A part of which a descriptor follows is deflated, and its header leaves the sizes to the
descriptor. -/
lemma of_trailer (h : l.Stands name data) (ht : (l.part name data).trailer ≠ none) :
    l.method = 8 ∧ l.header.compressed = 0 := by
  cases hs : l.sizesIn with
  | header =>
    simp only [part, hs] at ht
    exact absurd rfl ht
  | descriptor signed =>
    have hne : l.sizesIn ≠ .header := by
      rw [hs]
      exact SizesIn.noConfusion
    refine ⟨h.described hne, ?_⟩
    simp only [header, hs]

/-- The numbers of a descriptor fit their fields. -/
lemma trailer_fits (h : l.Stands name data) {t : Trailer}
    (ht : (l.part name data).trailer = some t) : t.Fits (l.part name data).width := by
  have hpayload := h.payload_lt
  have hsize := h.size_lt
  unfold sizeMarker at hpayload hsize
  rw [h.width_part]
  rcases hs : l.sizesIn with _ | signed
  · simp only [part, hs] at ht
    cases ht
  · simp only [part, hs] at ht
    cases ht
    refine ⟨⟨h.crc32_lt, ?_, ?_⟩, ?_⟩
    · show l.payload.length < 256 ^ 4
      omega
    · show l.size < 256 ^ 4
      omega
    · intro hsigned
      have hfalse : signed = false := hsigned
      rw [hfalse] at hs
      exact h.unsigned hs

/-- The payload has its recorded size; before a descriptor, none is recorded. -/
lemma length_payload (h : l.Stands name data)
    (hsized : (l.part name data).trailer = none ∨ (l.part name data).compressed ≠ 0) :
    l.payload.length = l.header.compressed := by
  rcases hs : l.sizesIn with _ | signed
  · simp only [header, hs]
  · exfalso
    have ht : (l.part name data).trailer ≠ none := by simp [part, hs]
    rcases hsized with hnone | hne
    · exact ht hnone
    · exact hne (h.of_trailer ht).2

/-- The payload is an encoding of the data if it can be read. -/
lemma decodes (h : l.Stands name data) (hm : l.method = 0 ∨ l.method = 8) :
    (l.part name data).Decodes := by
  show if l.header.method = 0 then l.payload = data
    else Inflates l.payload data
  rw [method_header]
  rcases hm with h0 | h8
  · rw [if_pos h0, h.stored h0]
  · rw [if_neg (by omega)]
    exact h.deflated h8

/-- What is written is an honest part. -/
theorem honest (h : l.Stands name data) : (l.part name data).Honest where
  fits := h.fits_header
  names := by
    show LocalHeader.Names l.header name
    rw [LocalHeader.Names, if_pos (hasUtf8Name_header l), name_header, h.name_eq]
  sizes := LocalHeader.sizes_of_unmarked h.fits_header h.isZip64_header
  trailer_iff := hasDescriptor_header
  trailer_fits := fun _ => h.trailer_fits
  payload_length := h.length_payload
  deflated := by
    intro ht _
    refine ⟨isEncrypted_header l, ?_⟩
    show l.header.method = 8
    rw [method_header, (h.of_trailer ht).1]
  decodes := fun hr => h.decodes (readable_part.mp hr)
  data_length := by
    intro hr
    rw [(recorded_part l name data).1]
    exact h.length_eq (readable_part.mp hr)
  data_crc32 := by
    intro hr
    rw [(recorded_part l name data).2]
    exact h.crc32_eq (readable_part.mp hr)

end Stands

end Layout

/-! ## Members -/

namespace Member

/-- The name that the member is given. -/
def name : Member → String
  | stored name _ | deflated name _ | streamed name _ | streamedUnsigned name _ | directory name
  | raw name _ _ _ => name

/-- The name of the entry: that of a directory ends with a slash. -/
def entryName : Member → String
  | directory name => directoryName name
  | x => x.name

/-- The data of the entry, if it can be read.  That of a directory is empty. -/
def data? : Member → Option Bytes
  | stored _ data | deflated _ data | streamed _ data | streamedUnsigned _ data => some data
  | directory _ => some []
  | raw _ _ _ _ => none

variable {deflate : Bytes → Bytes} {x : Member}

/-- The member can be written with the given encoder, and a path can name it. -/
structure Sound (deflate : Bytes → Bytes) (x : Member) : Prop where
  name_ne : x.name ≠ ""
  normal : VirtualPath.IsNormal x.name
  name_lt : (Utf8.encode x.entryName).length < 256 ^ 2
  payload_lt : (x.layout deflate).payload.length < sizeMarker
  size_lt : (x.layout deflate).size < sizeMarker
  /-- A checksum without a signature before it cannot be taken for one. -/
  unsigned : ∀ name data, x = streamedUnsigned name data →
    (ZipMount.crc32 data).toNat ≠ Descriptor.signature
  /-- What is encoded already is not encoded in a way that could be read. -/
  undecoded : ∀ name method payload size, x = raw name method payload size →
    method ≠ 0 ∧ method ≠ 8 ∧ method < 256 ^ 2

/-- Stored data stands, with the sizes in the header. -/
lemma stands_stored [Inflater] {name : String} {data : Bytes}
    (hname : (Utf8.encode name).length < 256 ^ 2) (hdata : data.length < sizeMarker) :
    ((stored name data).layout deflate).Stands name data where
  name_eq := rfl
  name_lt := hname
  method_lt := by
    show 0 < 256 ^ 2
    decide
  crc32_lt := (ZipMount.crc32 data).toNat_lt
  payload_lt := hdata
  size_lt := hdata
  described := fun hne => absurd rfl hne
  unsigned := fun hs => by cases hs
  stored := fun _ => rfl
  deflated := fun hm => by cases hm
  length_eq := fun _ => rfl
  crc32_eq := fun _ => rfl

/-- Deflated data stands, wherever the sizes are. -/
lemma stands_deflated [Inflater] {name : String} {data : Bytes} {sizesIn : SizesIn}
    (hz : Deflate.IsEncoder deflate) (hname : (Utf8.encode name).length < 256 ^ 2)
    (hpayload : (deflate data).length < sizeMarker) (hdata : data.length < sizeMarker)
    (hunsigned : sizesIn = .descriptor false →
      (ZipMount.crc32 data).toNat ≠ Descriptor.signature) :
    (Layout.mk (Utf8.encode name) 8 (ZipMount.crc32 data).toNat (deflate data) data.length
      sizesIn).Stands name data where
  name_eq := rfl
  name_lt := hname
  method_lt := by
    show 8 < 256 ^ 2
    decide
  crc32_lt := (ZipMount.crc32 data).toNat_lt
  payload_lt := hpayload
  size_lt := hdata
  described := fun _ => rfl
  unsigned := hunsigned
  stored := fun hm => by cases hm
  deflated := fun _ => hz.inflates data
  length_eq := fun _ => rfl
  crc32_eq := fun _ => rfl

/-- What is encoded already stands as it is. -/
lemma stands_raw [Inflater] {name : String} {method size : Nat} {payload : Bytes}
    (hname : (Utf8.encode name).length < 256 ^ 2) (hpayload : payload.length < sizeMarker)
    (hsize : size < sizeMarker) (h0 : method ≠ 0) (h8 : method ≠ 8) (hmethod : method < 256 ^ 2) :
    ((raw name method payload size).layout deflate).Stands name [] where
  name_eq := rfl
  name_lt := hname
  method_lt := hmethod
  crc32_lt := by
    show 0 < 256 ^ 4
    decide
  payload_lt := hpayload
  size_lt := hsize
  described := fun hne => absurd rfl hne
  unsigned := fun hs => by cases hs
  stored := fun hm => absurd hm h0
  deflated := fun hm => absurd hm h8
  length_eq := fun hm => (hm.elim h0 h8).elim
  crc32_eq := fun hm => (hm.elim h0 h8).elim

/-- A directory is laid out as no data stored under its name. -/
lemma layout_directory (name : String) :
    (directory name).layout deflate = (stored (directoryName name) []).layout deflate := by
  have hcrc : (ZipMount.crc32 []).toNat = 0 := by decide +kernel
  show (⟨_, 0, 0, [], 0, .header⟩ : Layout) = ⟨_, 0, (ZipMount.crc32 []).toNat, [], 0, .header⟩
  rw [hcrc]

/-- A sound member is laid out as what it is. -/
theorem stands_layout [Inflater] (hz : Deflate.IsEncoder deflate) (h : x.Sound deflate) :
    (x.layout deflate).Stands x.entryName (x.data?.getD []) := by
  have hname := h.name_lt
  have hpayload := h.payload_lt
  have hsize := h.size_lt
  cases x with
  | stored name data => exact stands_stored hname hsize
  | deflated name data => exact stands_deflated hz hname hpayload hsize (by rintro ⟨⟩)
  | streamed name data => exact stands_deflated hz hname hpayload hsize (by rintro ⟨⟩)
  | streamedUnsigned name data =>
    exact stands_deflated hz hname hpayload hsize fun _ => h.unsigned name data rfl
  | directory name =>
    rw [layout_directory]
    exact stands_stored hname (by decide)
  | raw name method payload size =>
    obtain ⟨h0, h8, hmethod⟩ := h.undecoded name method payload size rfl
    exact stands_raw hname hpayload hsize h0 h8 hmethod

/-- What is written for the member, as a part of a container. -/
def part (deflate : Bytes → Bytes) (x : Member) : Part :=
  (x.layout deflate).part x.entryName (x.data?.getD [])

/-- What is written for a member that can be read is a part that can be read. -/
lemma readable_part (h : x.data? ≠ none) : (x.part deflate).Readable := by
  refine Layout.readable_part.mpr ?_
  cases x with
  | stored | directory => exact .inl rfl
  | deflated | streamed | streamedUnsigned => exact .inr rfl
  | raw => exact absurd rfl h

/-! ## Names of entries -/

/-- A slash behind a name changes nothing at its front. -/
lemma entryName_eq (x : Member) : x.entryName = x.name ∨ x.entryName = x.name ++ "/" := by
  cases x with
  | directory name =>
    show directoryName name = name ∨ directoryName name = name ++ "/"
    unfold directoryName
    by_cases hlast : name.toList.getLast? = some '/'
    · rw [if_pos hlast]
      exact .inl rfl
    · rw [if_neg hlast]
      exact .inr rfl
  | _ => exact .inl rfl

namespace Sound

/-- Normalising leaves the name of the entry alone. -/
lemma isNormal_entryName (h : x.Sound deflate) : VirtualPath.IsNormal x.entryName := by
  rcases x.entryName_eq with heq | heq
  · rw [heq]
    exact h.normal
  · rw [heq]
    constructor
    · rw [String.toList_append, List.mem_append]
      rintro (hmem | hmem)
      · exact h.normal.no_backslash hmem
      · exact absurd hmem (by decide)
    · have hne : x.name.toList ≠ [] := by
        intro hnil
        exact h.name_ne (String.toList_eq_nil_iff.mp hnil)
      rw [String.toList_append, List.head?_append_of_ne_nil _ hne]
      exact h.normal.no_slash_first

/-- The name of the entry is not empty. -/
lemma entryName_ne (h : x.Sound deflate) : x.entryName ≠ "" := by
  rcases x.entryName_eq with heq | heq
  · rw [heq]
    exact h.name_ne
  · rw [heq]
    intro hempty
    have hlist : x.name.toList ++ ['/'] = [] := by
      rw [← String.toList_eq_nil_iff, String.toList_append] at hempty
      exact hempty
    exact List.append_ne_nil_of_right_ne_nil _ (List.cons_ne_nil _ _) hlist

end Sound

end Member

/-! ## Archives -/

namespace Archive

variable {deflate : Bytes → Bytes} {a : Archive}

/-- The parts that an archive is written as. -/
def parts (deflate : Bytes → Bytes) (a : Archive) : List Part :=
  a.map (Member.part deflate)

/-- What is written behind the parts. -/
def tail (deflate : Bytes → Bytes) (a : Archive) : Bytes :=
  a.directory deflate ++ (a.endRecord deflate).encode

/-- The segments of sound members are their parts. -/
lemma body_eq [Inflater] (hz : Deflate.IsEncoder deflate) (ha : ∀ x ∈ a, x.Sound deflate) :
    a.body deflate = (a.parts deflate).flatMap Part.encode := by
  rw [body, layouts, parts, List.flatMap_map, List.flatMap_map]
  refine List.flatMap_congr fun x hx => ?_
  exact (Member.stands_layout hz (ha x hx)).encode_part.symm

/-- A directory record begins with its signature. -/
lemma exists_encode_record (r : DirectoryRecord) :
    ∃ more, r.encode = Bytes.le 4 DirectoryRecord.signature ++ more := by
  unfold DirectoryRecord.encode
  simp only [List.append_assoc]
  exact ⟨_, rfl⟩

/-- An end record begins with its signature. -/
lemma exists_encode_endRecord (r : EndRecord) :
    ∃ more, r.encode = Bytes.le 4 EndRecord.signature ++ more := by
  unfold EndRecord.encode
  simp only [List.append_assoc]
  exact ⟨_, rfl⟩

/-- A directory, or the end record if there is none, ends the run of entries. -/
lemma tail_ends (deflate : Bytes → Bytes) (a : Archive) :
    ∃ word ∈ LocalHeader.endSignatures, ∃ more, a.tail deflate = Bytes.le 4 word ++ more := by
  rcases a with _ | ⟨x, a⟩
  · obtain ⟨more, hmore⟩ := exists_encode_endRecord (endRecord deflate [])
    exact ⟨EndRecord.signature, by decide, more, hmore⟩
  · obtain ⟨more, hmore⟩ := exists_encode_record ((x.layout deflate).record 0)
    refine ⟨DirectoryRecord.signature, by decide, ?_⟩
    simp only [tail, directory, layouts, recordsFrom, List.map_cons, List.flatMap_cons, hmore,
      List.append_assoc]
    exact ⟨_, rfl⟩

/-- An archive of sound members, as an honest container. -/
def container [Inflater] (deflate : Bytes → Bytes) (a : Archive) (hz : Deflate.IsEncoder deflate)
    (ha : ∀ x ∈ a, x.Sound deflate) : HonestContainer where
  parts := a.parts deflate
  tail := a.tail deflate
  honest := by
    intro p hp
    obtain ⟨x, hx, rfl⟩ := List.mem_map.mp hp
    exact (Member.stands_layout hz (ha x hx)).honest
  tail_ends := .inr (tail_ends deflate a)

/-- The bytes of an archive are those of the honest container. -/
theorem encode_container [Inflater] (hz : Deflate.IsEncoder deflate) (ha : ∀ x ∈ a, x.Sound deflate) :
    (container deflate a hz ha).encode = a.write deflate := by
  rw [write, body_eq hz ha, List.append_assoc]
  rfl

end Archive

end ZipMount
