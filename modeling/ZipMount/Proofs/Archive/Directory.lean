import ZipMount.Proofs.Archive.Container

/-!
# The directory describes the entries

A walk never looks at the directory of a container, so nothing that is known of walks says whether
the directory is right.  Here it is read the way it is meant to be read: the end record stands at a
fixed distance from the end, it tells how many records there are and where, and each record tells
where the local header of its entry is.  `EndRecord.read`, `DirectoryRecord.read` and
`DirectoryRecord.readMany` do this.  Fields that have only one value here are read with
`Reader.expect`, which refuses every other value.

The main statement is `directory_write`.  What is read back are the number of members, the extent of
the directory and one record per member in order, and each record agrees with the header that it
points to, or with the descriptor behind the payload if there is one (`Member.DescribedBy`).
Nothing is asked of the encoder of deflate streams, and only of the numbers that they fit their
fields.
-/

namespace ZipMount

/-! ## Reading a directory -/

/-- Reads a field that has to hold the given number. -/
def Reader.expect (k n : Nat) : Reader Unit := do
  let found ← Reader.field k
  if found = n then pure ()
  else throw (.fault (.invalidArchive (.signature found)))

/-- The directory record at the front of the input.  Its extra fields and its comment are passed
over. -/
def DirectoryRecord.read : Reader DirectoryRecord := do
  Reader.expect 4 signature
  Reader.expect 2 version
  Reader.expect 2 version
  let flags ← Reader.field 2
  let method ← Reader.field 2
  let _modTime ← Reader.field 2
  let _modDate ← Reader.field 2
  let crc32 ← Reader.field 4
  let compressed ← Reader.field 4
  let uncompressed ← Reader.field 4
  let nameLength ← Reader.field 2
  let extraLength ← Reader.field 2
  let commentLength ← Reader.field 2
  let _disk ← Reader.field 2
  let _internalAttributes ← Reader.field 2
  let _externalAttributes ← Reader.field 4
  let offset ← Reader.field 4
  let name ← Reader.bytes nameLength
  let _extra ← Reader.bytes extraLength
  let _comment ← Reader.bytes commentLength
  return { flags, method, crc32, compressed, uncompressed, offset, name }

/-- The given number of directory records at the front of the input. -/
def DirectoryRecord.readMany : Nat → Reader (List DirectoryRecord)
  | 0 => pure []
  | count + 1 => do
    let r ← read
    let rs ← readMany count
    return r :: rs

/-- The number of bytes of an end record. -/
def EndRecord.width : Nat := 22

/-- The end record at the front of the input.  All of the container is on one disk, so the number of
entries stands there twice, and there is no comment. -/
def EndRecord.read : Reader EndRecord := do
  Reader.expect 4 signature
  Reader.expect 2 0
  Reader.expect 2 0
  let count ← Reader.field 2
  Reader.expect 2 count
  let size ← Reader.field 4
  let offset ← Reader.field 4
  Reader.expect 2 0
  return { count, size, offset }

/-- The local header at the front of the input, with its signature. -/
def LocalHeader.readSigned : Reader LocalHeader := do
  Reader.expect 4 signature
  read

/-- The descriptor at the front of the input, with a signature or without, as it is known to be. -/
def Descriptor.readKnown (signed : Bool) : Reader Descriptor := do
  if signed then Reader.expect 4 signature
  let crc32 ← Reader.field 4
  let compressed ← Reader.field 4
  let uncompressed ← Reader.field 4
  return { crc32, compressed, uncompressed }

open Reader (Reads reads_bytes reads_field)

/-- What is read from a text and nothing else leaves nothing. -/
lemma Reader.Reads.whole {α : Type} {r : Reader α} {text : Bytes} {a : α} (h : Reads r text a) :
    r text = .ok (a, []) := by
  have hread := h []
  rwa [List.append_nil] at hread

/-- A field that holds the expected number reads back. -/
lemma Reader.reads_expect {k n : Nat} (h : n < 256 ^ k) : Reads (expect k n) (Bytes.le k n) () := by
  unfold expect
  refine (reads_field h).last ?_
  rw [if_pos rfl]
  exact .pure ()

/-- A header reads back with its signature. -/
lemma LocalHeader.reads_signed {h : LocalHeader} (hf : h.Fits) : Reads readSigned h.encode h := by
  unfold readSigned encode
  exact (Reader.reads_expect (by decide)).bind (reads hf)

/-- A descriptor that is known to have a signature, or to have none, reads back. -/
lemma Descriptor.reads_known {d : Descriptor} (hd : d.Fits .four) (signed : Bool) :
    Reads (readKnown signed) (Trailer.encode .four ⟨d, signed⟩) d := by
  have hfacts : Reads (readKnown false) (d.encodeUnsigned .four) d := by
    unfold readKnown encodeUnsigned
    rw [List.append_assoc]
    refine (reads_field hd.crc32).bind ?_
    refine (reads_field hd.compressed).bind ?_
    exact (reads_field hd.uncompressed).last (.pure d)
  cases signed with
  | false => exact hfacts
  | true => exact (Reader.reads_expect (by decide)).bind hfacts

namespace DirectoryRecord

/-- The numbers and the length of the name fit their fields. -/
structure Fits (r : DirectoryRecord) : Prop where
  flags : r.flags < 256 ^ 2
  method : r.method < 256 ^ 2
  crc32 : r.crc32 < 256 ^ 4
  compressed : r.compressed < 256 ^ 4
  uncompressed : r.uncompressed < 256 ^ 4
  offset : r.offset < 256 ^ 4
  name : r.name.length < 256 ^ 2

/-- The attributes of an entry fit their field. -/
lemma attributes_lt (name : Bytes) : attributes name < 256 ^ 4 := by
  unfold attributes
  split <;> decide

/-- A directory record reads back. -/
lemma reads {r : DirectoryRecord} (h : r.Fits) : Reads read r.encode r := by
  unfold read encode
  simp only [List.append_assoc]
  refine (Reader.reads_expect (by decide)).bind ?_
  refine (Reader.reads_expect (by decide)).bind ?_
  refine (Reader.reads_expect (by decide)).bind ?_
  refine (reads_field h.flags).bind ?_
  refine (reads_field h.method).bind ?_
  refine (reads_field (by decide)).bind ?_
  refine (reads_field (by decide)).bind ?_
  refine (reads_field h.crc32).bind ?_
  refine (reads_field h.compressed).bind ?_
  refine (reads_field h.uncompressed).bind ?_
  refine (reads_field h.name).bind ?_
  refine (reads_field (by decide)).bind ?_
  refine (reads_field (by decide)).bind ?_
  refine (reads_field (by decide)).bind ?_
  refine (reads_field (by decide)).bind ?_
  refine (reads_field (attributes_lt r.name)).bind ?_
  refine (reads_field h.offset).bind ?_
  refine (reads_bytes r.name).last ?_
  exact (reads_bytes []).bind ((reads_bytes []).last (.pure r))

/-- As many directory records as were written read back. -/
lemma reads_many {rs : List DirectoryRecord} (h : ∀ r ∈ rs, r.Fits) :
    Reads (readMany rs.length) (rs.flatMap encode) rs := by
  induction rs with
  | nil => exact .pure []
  | cons r rs ih =>
    rw [List.flatMap_cons, List.length_cons, readMany]
    refine (reads (h r List.mem_cons_self)).bind ?_
    exact (ih fun r' hr' => h r' (List.mem_cons_of_mem r hr')).last (.pure (r :: rs))

end DirectoryRecord

namespace EndRecord

/-- An end record has a fixed number of bytes. -/
lemma length_encode (e : EndRecord) : e.encode.length = width := by
  simp only [encode, List.length_append, Bytes.length_le]
  rfl

/-- The numbers fit their fields. -/
structure Fits (e : EndRecord) : Prop where
  count : e.count < 256 ^ 2
  size : e.size < 256 ^ 4
  offset : e.offset < 256 ^ 4

/-- An end record reads back. -/
lemma reads {e : EndRecord} (h : e.Fits) : Reads read e.encode e := by
  unfold read encode
  simp only [List.append_assoc]
  refine (Reader.reads_expect (by decide)).bind ?_
  refine (Reader.reads_expect (by decide)).bind ?_
  refine (Reader.reads_expect (by decide)).bind ?_
  refine (reads_field h.count).bind ?_
  refine (Reader.reads_expect h.count).bind ?_
  refine (reads_field h.size).bind ?_
  refine (reads_field h.offset).bind ?_
  exact (Reader.reads_expect (by decide)).last (.pure e)

end EndRecord

/-! ## What a record describes -/

/-- The checksum and the sizes in a header. -/
def LocalHeader.facts (h : LocalHeader) : Descriptor :=
  ⟨h.crc32, h.compressed, h.uncompressed⟩

/-- The checksum and the sizes in a directory record. -/
def DirectoryRecord.facts (r : DirectoryRecord) : Descriptor :=
  ⟨r.crc32, r.compressed, r.uncompressed⟩

/-- Whether the descriptor behind the payload has a signature, if there is a descriptor. -/
def Member.trails : Member → Option Bool
  | streamed _ _ => some true
  | streamedUnsigned _ _ => some false
  | _ => none

/-- The record agrees with the local header of the member, and on the checksum and the sizes with
whichever of the header and the descriptor behind the payload has them. -/
structure DirectoryRecord.Agrees (x : Member) (r : DirectoryRecord) (h : LocalHeader)
    (behind : Bytes) : Prop where
  name : h.name = r.name
  flags : h.flags = r.flags
  method : h.method = r.method
  announced : h.hasDescriptor = x.trails.isSome
  header : x.trails = none → h.facts = r.facts
  descriptor : ∀ signed, x.trails = some signed →
    ∃ rest, Descriptor.readKnown signed behind = .ok (r.facts, rest)

/-- The record is that of the member: the local header of the member begins at its offset, the
payload follows, and the record agrees with what stands there. -/
def Member.DescribedBy (deflate : Bytes → Bytes) (container : Bytes) (x : Member)
    (r : DirectoryRecord) : Prop :=
  r.name = Utf8.encode x.entryName ∧ r.compressed = (x.layout deflate).payload.length ∧
    ∃ h behind, LocalHeader.readSigned (container.drop r.offset) =
      .ok (h, (x.layout deflate).payload ++ behind) ∧ r.Agrees x h behind

namespace Layout

/-- The record is made of the layout, and the layout stands where the record says. -/
structure RecordedBy (container : Bytes) (l : Layout) (r : DirectoryRecord) : Prop where
  record_eq : r = l.record r.offset
  found : l.segment <+: container.drop r.offset

/-- The records of layouts that stand one after the other are those of the layouts. -/
lemma recordedBy_recordsFrom {container : Bytes} {ls : List Layout} {offset : Nat}
    (h : ls.flatMap segment <+: container.drop offset) :
    List.Forall₂ (RecordedBy container) ls (Archive.recordsFrom offset ls) := by
  -- The offset moves on with the layouts, and what stands there is always the segments left.
  induction ls generalizing offset with
  | nil => exact .nil
  | cons l ls ih =>
    obtain ⟨after, hafter⟩ := h
    rw [List.flatMap_cons, List.append_assoc] at hafter
    refine .cons ⟨rfl, ?_⟩ (ih ?_)
    · show l.segment <+: container.drop offset
      rw [← hafter]
      exact List.prefix_append _ _
    · rw [← List.drop_drop, ← hafter, List.drop_left]
      exact List.prefix_append _ _

/-- The checksum and the sizes of a layout. -/
def facts (l : Layout) : Descriptor :=
  ⟨l.crc32, l.payload.length, l.size⟩

/-- If the sizes are to be in the header, they are there, and no descriptor is announced. -/
lemma header_of_header {l : Layout} (h : l.sizesIn = .header) :
    l.header.hasDescriptor = false ∧ l.header.facts = l.facts := by
  simp only [LocalHeader.hasDescriptor, LocalHeader.facts, header, flags, h, facts, and_true]
  decide

/-- If the sizes are to be in a descriptor, it is announced, and stands behind the payload. -/
lemma trailer_of_descriptor {l : Layout} {signed : Bool} (h : l.sizesIn = .descriptor signed) :
    l.header.hasDescriptor = true ∧ l.trailer = Trailer.encode .four ⟨l.facts, signed⟩ := by
  constructor
  · simp only [LocalHeader.hasDescriptor, header, flags, h]
    decide
  · unfold trailer
    rw [h]
    cases signed <;> rfl

namespace RecordedBy

variable {container : Bytes} {l : Layout} {r : DirectoryRecord}

/-- The checksum and the sizes of the record are those of the layout. -/
lemma facts_eq (h : l.RecordedBy container r) : r.facts = l.facts := by
  rw [h.record_eq]
  rfl

/-- A record of a layout that is there points into the container. -/
lemma offset_lt (h : l.RecordedBy container r) : r.offset < container.length := by
  have hle := h.found.length_le
  have hpos : 0 < l.segment.length := by
    simp only [segment, LocalHeader.encode, List.length_append, Bytes.length_le]
    omega
  rw [List.length_drop] at hle
  omega

/-- In a container whose length fits a field, the numbers of the record fit theirs. -/
lemma fits (h : l.RecordedBy container r) (hl : l.Fits) (hlen : container.length < 256 ^ 4) :
    r.Fits := by
  have hoffset := h.offset_lt
  have hflags : l.flags < 256 ^ 2 := by
    unfold flags
    split <;> decide
  rw [h.record_eq]
  exact ⟨hflags, hl.method, hl.crc32, hl.payload, hl.size, hoffset.trans hlen, hl.name⟩

end RecordedBy

end Layout

namespace Member

variable {deflate : Bytes → Bytes} {container : Bytes} {x : Member} {r : DirectoryRecord}

/-- Where the sizes of a member are is settled by its kind. -/
lemma sizesIn_layout (deflate : Bytes → Bytes) (x : Member) :
    (x.layout deflate).sizesIn = x.trails.elim .header .descriptor := by
  cases x <;> rfl

/-- The checksum of a member fits its field. -/
lemma crc32_layout_lt (deflate : Bytes → Bytes) (x : Member) :
    (x.layout deflate).crc32 < 256 ^ 4 := by
  cases x with
  | stored _ data | deflated _ data | streamed _ data | streamedUnsigned _ data =>
    exact (ZipMount.crc32 data).toNat_lt
  | directory | raw => exact Nat.pow_pos (by decide)

/-- The name of the layout is that of the entry. -/
lemma name_layout (deflate : Bytes → Bytes) (x : Member) :
    (x.layout deflate).name = Utf8.encode x.entryName := by
  cases x <;> rfl

/-- Without a descriptor, the header of the member has the checksum and the sizes. -/
lemma header_layout (ht : x.trails = none) :
    (x.layout deflate).header.hasDescriptor = false ∧
      (x.layout deflate).header.facts = (x.layout deflate).facts := by
  refine Layout.header_of_header ?_
  rw [sizesIn_layout, ht]
  rfl

/-- With a descriptor, that has them. -/
lemma trailer_layout {signed : Bool} (ht : x.trails = some signed) :
    (x.layout deflate).header.hasDescriptor = true ∧
      (x.layout deflate).trailer = Trailer.encode .four ⟨(x.layout deflate).facts, signed⟩ := by
  refine Layout.trailer_of_descriptor ?_
  rw [sizesIn_layout, ht]
  rfl

/-- The record of a member agrees with what stands where the member is. -/
lemma agrees_of_recordedBy (hl : (x.layout deflate).Fits)
    (h : (x.layout deflate).RecordedBy container r) (after : Bytes) :
    r.Agrees x (x.layout deflate).header ((x.layout deflate).trailer ++ after) where
  name := by
    rw [Layout.name_header, h.record_eq]
    rfl
  flags := by
    rw [Layout.flags_header, h.record_eq]
    rfl
  method := by
    rw [Layout.method_header, h.record_eq]
    rfl
  announced := by
    cases ht : x.trails with
    | none => exact (header_layout ht).1
    | some signed => exact (trailer_layout ht).1
  header := by
    intro ht
    rw [h.facts_eq, (header_layout ht).2]
  descriptor := by
    intro signed ht
    rw [h.facts_eq, (trailer_layout ht).2]
    exact ⟨after, Descriptor.reads_known ⟨hl.crc32, hl.payload, hl.size⟩ signed after⟩

/-- A member that stands where its record says is described by the record. -/
lemma describedBy_of_recordedBy (hl : (x.layout deflate).Fits)
    (h : (x.layout deflate).RecordedBy container r) : x.DescribedBy deflate container r := by
  obtain ⟨after, hafter⟩ := h.found
  refine ⟨?_, ?_, (x.layout deflate).header, (x.layout deflate).trailer ++ after, ?_,
    agrees_of_recordedBy hl h after⟩
  · rw [← name_layout deflate, h.record_eq]
    rfl
  · rw [h.record_eq]
    rfl
  · rw [← hafter, Layout.segment, List.append_assoc, List.append_assoc]
    exact LocalHeader.reads_signed hl.header _

end Member

/-! ## The directory of an archive -/

namespace Archive

variable {deflate : Bytes → Bytes} {a : Archive}

/-- Nothing that has to be written down is too large for its field.  A name counts with the slash
that it may be given. -/
structure Writable (deflate : Bytes → Bytes) (a : Archive) : Prop where
  count : a.length < 2 ^ 16
  name : ∀ x ∈ a, (Utf8.encode x.entryName).length < 2 ^ 16
  method : ∀ x ∈ a, (x.layout deflate).method < 2 ^ 16
  payload : ∀ x ∈ a, (x.layout deflate).payload.length < 2 ^ 32
  size : ∀ x ∈ a, (x.layout deflate).size < 2 ^ 32
  total : (a.write deflate).length < 2 ^ 32

namespace Writable

/-- The numbers of the layouts fit their fields. -/
lemma fits_layout (h : a.Writable deflate) {x : Member} (hx : x ∈ a) : (x.layout deflate).Fits where
  name := by
    rw [Member.name_layout]
    exact h.name x hx
  method := h.method x hx
  crc32 := Member.crc32_layout_lt deflate x
  payload := h.payload x hx
  size := h.size x hx

/-- The numbers of the end record fit their fields. -/
lemma fits_endRecord (h : a.Writable deflate) : (a.endRecord deflate).Fits := by
  have htotal := h.total
  simp only [write, List.length_append] at htotal
  refine ⟨h.count, ?_, ?_⟩
  · show (a.directory deflate).length < 256 ^ 4
    omega
  · show (a.body deflate).length < 256 ^ 4
    omega

end Writable

/-- There is one record per layout. -/
lemma length_recordsFrom (offset : Nat) (ls : List Layout) :
    (recordsFrom offset ls).length = ls.length := by
  induction ls generalizing offset with
  | nil => rfl
  | cons l ls ih => rw [recordsFrom, List.length_cons, List.length_cons, ih]

/-- Each layout of an archive stands where its record says. -/
lemma recordedBy_write (deflate : Bytes → Bytes) (a : Archive) :
    List.Forall₂ (Layout.RecordedBy (a.write deflate)) (a.layouts deflate)
      (recordsFrom 0 (a.layouts deflate)) := by
  refine Layout.recordedBy_recordsFrom ?_
  rw [List.drop_zero, write, List.append_assoc]
  exact List.prefix_append _ _

/-- The members of an archive fit their fields and stand where their records say. -/
lemma Writable.forall₂_recordedBy (h : a.Writable deflate) :
    List.Forall₂ (fun x r => (x.layout deflate).Fits ∧
      (x.layout deflate).RecordedBy (a.write deflate) r) a (recordsFrom 0 (a.layouts deflate)) :=
  (List.forall₂_and_left _ _).mpr
    ⟨fun _ hx => h.fits_layout hx, List.forall₂_map_left_iff.mp (recordedBy_write deflate a)⟩

/-- The records of an archive fit their fields. -/
lemma Writable.fits_records (h : a.Writable deflate) :
    ∀ r ∈ recordsFrom 0 (a.layouts deflate), r.Fits := by
  have hrecords : List.Forall₂ (fun r (_ : Member) => r.Fits ∧ True)
      (recordsFrom 0 (a.layouts deflate)) a :=
    (h.forall₂_recordedBy.imp fun _ _ hx => ⟨hx.2.fits hx.1 h.total, trivial⟩).flip
  exact ((List.forall₂_and_left _ _).mp hrecords).1

/-- The directory of an archive describes its members.  The end record tells how many members there
are, and where the directory is, which ends at the end record.  The directory has one record per
member, in the order of the members, and nothing else; and each record is that of its member. -/
theorem directory_write (h : a.Writable deflate) :
    ∃ (e : EndRecord) (records : List DirectoryRecord),
      EndRecord.read ((a.write deflate).drop ((a.write deflate).length - EndRecord.width)) =
          .ok (e, []) ∧
        e.count = a.length ∧
        e.offset + e.size + EndRecord.width = (a.write deflate).length ∧
        DirectoryRecord.readMany e.count (((a.write deflate).drop e.offset).take e.size) =
          .ok (records, []) ∧
        List.Forall₂ (Member.DescribedBy deflate (a.write deflate)) a records := by
  have hcount : a.length = (recordsFrom 0 (a.layouts deflate)).length := by
    rw [length_recordsFrom, layouts, List.length_map]
  have hlength : (a.write deflate).length =
      (a.body deflate).length + (a.directory deflate).length + EndRecord.width := by
    rw [write, List.length_append, List.length_append, EndRecord.length_encode]
  refine ⟨a.endRecord deflate, recordsFrom 0 (a.layouts deflate), ?_, rfl, hlength.symm, ?_, ?_⟩
  · rw [hlength, Nat.add_sub_cancel, ← List.length_append, write, List.drop_left]
    exact (EndRecord.reads h.fits_endRecord).whole
  · show DirectoryRecord.readMany a.length
      (((a.write deflate).drop (a.body deflate).length).take (a.directory deflate).length) = _
    rw [write, List.append_assoc, List.drop_left, List.take_left, hcount]
    exact (DirectoryRecord.reads_many h.fits_records).whole
  · exact h.forall₂_recordedBy.imp fun _ _ hx => Member.describedBy_of_recordedBy hx.1 hx.2

/-- One member of each kind. -/
def assorted : Archive :=
  [.stored "s" [1, 2], .deflated "d" [3], .streamed "t" [], .streamedUnsigned "u" [4, 4],
    .directory "dir", .raw "r" 12 [9] 7]

/-- The directory of an archive with members of every kind. -/
theorem directory_assorted :
    assorted.Writable Deflate.encode ∧
      ∃ (e : EndRecord) (records : List DirectoryRecord),
        EndRecord.read ((assorted.write Deflate.encode).drop
            ((assorted.write Deflate.encode).length - EndRecord.width)) = .ok (e, []) ∧
          e.count = 6 ∧
          e.offset + e.size + EndRecord.width = (assorted.write Deflate.encode).length ∧
          DirectoryRecord.readMany e.count
            (((assorted.write Deflate.encode).drop e.offset).take e.size) = .ok (records, []) ∧
          List.Forall₂ (Member.DescribedBy Deflate.encode (assorted.write Deflate.encode)) assorted
            records := by
  have hwritable : assorted.Writable Deflate.encode := by
    constructor <;> decide +kernel
  exact ⟨hwritable, directory_write hwritable⟩

end Archive

end ZipMount
