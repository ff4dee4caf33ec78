import ZipMount.Proofs.Mount.Rounds

/-!
# Looking for the zip64 field

Sizes that a header marks are in the first complete zip64 field among its extra fields.  Every byte
string is complete fields with other tags, and then either a complete zip64 field and anything behind
it, or something that is no complete field (`ExtraField.exists_fields`).  In the first case the sizes
are the numbers that the field begins with, if it is long enough for them, and in the second one there
are none: no field behind a broken one counts, and neither does a broken zip64 field.

The search goes through the bytes by an offset.  `seeking` is that loop with every byte taken by its
index, and it stops with nothing at an index where there is no byte.  It goes along with `resolving`,
which takes fields off the front of what is left, so it stops, and never with nothing.  The main
statement is `zip64Sizes_of_fields`.
-/

namespace ZipMount

/-! ## Bytes by their index -/

namespace Bytes

variable {bytes : Bytes} {start stop : Nat}

/-- The bytes from one index up to another, if there are such bytes. -/
def slice? (bytes : Bytes) (start stop : Nat) : Option Bytes :=
  if start ≤ stop ∧ stop ≤ bytes.length then some ((bytes.take stop).drop start) else none

/-- The number in the two bytes from an index on, if there are two. -/
def word? (bytes : Bytes) (start : Nat) : Option Nat := do
  let low ← bytes[start]?
  let high ← bytes[start + 1]?
  return value [low, high]

/-- Between two indices that are not outside there are the bytes in front of what is left. -/
lemma slice?_of_le (h : start ≤ stop) (hstop : stop ≤ bytes.length) :
    bytes.slice? start stop = some ((bytes.drop start).take (stop - start)) := by
  rw [slice?, if_pos ⟨h, hstop⟩, List.drop_take]

/-- At an index with two bytes there is the number in front of what is left. -/
lemma word?_of_le (h : start + 2 ≤ bytes.length) :
    bytes.word? start = some (value ((bytes.drop start).take 2)) := by
  have hlow : start < bytes.length := by omega
  have hhigh : start + 1 < bytes.length := by omega
  rw [List.drop_eq_getElem_cons hlow, List.drop_eq_getElem_cons hhigh]
  simp only [word?, List.getElem?_eq_getElem hlow, List.getElem?_eq_getElem hhigh]
  rfl

end Bytes

/-! ## Complete fields and broken ones -/

namespace ExtraField

open Reader (bytes_of_le bytes_of_lt bind_of_ok bind_of_error field_of_le field_of_lt)

variable {input : Bytes}

/-- The length that the field in front gives for its data. -/
def statedLength (input : Bytes) : Nat :=
  Bytes.value ((input.drop 2).take 2)

/-- A field whose bytes are all there is read. -/
lemma read_of_le (h4 : 4 ≤ input.length) (h : 4 + statedLength input ≤ input.length) :
    read input = .ok (⟨Bytes.value (input.take 2), (input.drop 4).take (statedLength input)⟩,
      input.drop (4 + statedLength input)) := by
  have hsize : 2 ≤ (input.drop 2).length := by
    rw [List.length_drop]
    omega
  have hdata : statedLength input ≤ ((input.drop 2).drop 2).length := by
    rw [List.length_drop, List.length_drop]
    omega
  unfold read
  rw [bind_of_ok (field_of_le (by omega)), bind_of_ok (field_of_le hsize)]
  refine (bind_of_ok (bytes_of_le hdata)).trans ?_
  rw [List.drop_drop, List.drop_drop]
  rfl

/-- A field without room for its tag and its length is not read. -/
lemma read_of_lt_four (h : input.length < 4) : read input = .error .shortField := by
  unfold read
  by_cases h2 : input.length < 2
  · exact bind_of_error (field_of_lt h2)
  · rw [bind_of_ok (field_of_le (Nat.le_of_not_lt h2))]
    refine bind_of_error (field_of_lt ?_)
    rw [List.length_drop]
    omega

/-- A field that is cut short in its data is not read. -/
lemma read_of_lt (h4 : 4 ≤ input.length) (h : input.length < 4 + statedLength input) :
    read input = .error .shortField := by
  have hsize : 2 ≤ (input.drop 2).length := by
    rw [List.length_drop]
    omega
  unfold read
  rw [bind_of_ok (field_of_le (by omega)), bind_of_ok (field_of_le hsize)]
  refine bind_of_error (bytes_of_lt ?_)
  show ((input.drop 2).drop 2).length < statedLength input
  rw [List.length_drop, List.length_drop]
  omega

/-- No complete field stands in front. -/
def Broken (input : Bytes) : Prop :=
  ∀ (f : ExtraField) (more : Bytes), f.Fits → input ≠ f.encode ++ more

/-- Where no complete field stands, none is read. -/
lemma Broken.read_eq (h : Broken input) : ∃ e, read input = .error e := by
  rcases hread : read input with e | ⟨f, more⟩
  · exact ⟨e, rfl⟩
  · obtain ⟨hfits, hinput⟩ := eq_of_read hread
    exact absurd hinput (h f more hfits)

/-- Where no field is read, no complete one stands. -/
lemma broken_of_read {e : IoError} (h : read input = .error e) : Broken input := by
  rintro f more hfits rfl
  rw [reads hfits more] at h
  cases h

/-- Among fields that do not satisfy a condition, with a broken one behind them, none is found. -/
lemma find?_upTo_of_broken {q : ExtraField → Bool} {before : List ExtraField} {rest : Bytes}
    (hb : ∀ g ∈ before, g.Fits ∧ q g = false) (hrest : Broken rest) (limit : Nat) :
    (upTo limit (before.flatMap encode ++ rest)).find? q = none := by
  induction before generalizing limit with
  | nil =>
    rw [List.flatMap_nil, List.nil_append]
    cases limit with
    | zero => rfl
    | succ limit =>
      obtain ⟨e, hread⟩ := hrest.read_eq
      rw [upTo, hread]
      rfl
  | cons g before ih =>
    cases limit with
    | zero => rfl
    | succ limit =>
      obtain ⟨hg, hqg⟩ := hb g List.mem_cons_self
      rw [List.flatMap_cons, List.append_assoc, upTo_encode hg,
        List.find?_cons_of_neg (by rw [hqg]; decide)]
      exact ih (fun g hg => hb g (List.mem_cons_of_mem _ hg)) limit

/-- Bytes are complete fields that do not satisfy a condition, and then a complete field that does,
or something that is no complete field. -/
lemma exists_fields (q : ExtraField → Prop) [DecidablePred q] (input : Bytes) :
    ∃ (before : List ExtraField) (rest : Bytes), (∀ g ∈ before, g.Fits ∧ ¬q g) ∧
      input = before.flatMap encode ++ rest ∧
      (Broken rest ∨ ∃ f after, f.Fits ∧ q f ∧ rest = f.encode ++ after) := by
  induction hlen : input.length using Nat.strong_induction_on generalizing input with
  | h n ih =>
    rcases hread : read input with e | ⟨f, more⟩
    · exact ⟨[], input, fun g hg => absurd hg List.not_mem_nil, rfl, .inl (broken_of_read hread)⟩
    · obtain ⟨hfits, hinput⟩ := eq_of_read hread
      by_cases hq : q f
      · exact ⟨[], input, fun g hg => absurd hg List.not_mem_nil, rfl,
          .inr ⟨f, more, hfits, hq, hinput⟩⟩
      · have hshorter : more.length < n := by
          rw [← hlen, hinput, List.length_append, length_encode]
          omega
        obtain ⟨before, rest, hbefore, hmore, hrest⟩ := ih _ hshorter more rfl
        refine ⟨f :: before, rest, fun g hg => ?_, ?_, hrest⟩
        · rcases List.mem_cons.mp hg with rfl | hg
          · exact ⟨hfits, hq⟩
          · exact hbefore g hg
        · rw [List.flatMap_cons, List.append_assoc, ← hmore, hinput]

end ExtraField

/-! ## The sizes in a field -/

/-- The number of bytes that a size takes up in a zip64 field. -/
def zip64Width (size : Nat) : Nat :=
  if size = sizeMarker then 8 else 0

/-- The size itself, or the number in the next eight bytes if it is marked. -/
def zip64Value (size : Nat) (data : Bytes) : Nat :=
  if size = sizeMarker then Bytes.value (data.take 8) else size

variable {u c : Nat} {data : Bytes}

/-- With enough bytes, a size is resolved. -/
lemma resolveSize_of_le (h : zip64Width u ≤ data.length) :
    resolveSize u data = .ok (zip64Value u data, data.drop (zip64Width u)) := by
  unfold zip64Width zip64Value resolveSize at *
  by_cases hu : u = sizeMarker
  · rw [if_pos hu] at h
    simp only [if_pos hu]
    exact Reader.field_of_le h
  · simp only [if_neg hu]
    rfl

/-- Without enough bytes, a size is not resolved. -/
lemma resolveSize_of_lt (h : data.length < zip64Width u) :
    resolveSize u data = .error .shortField := by
  unfold zip64Width resolveSize at *
  by_cases hu : u = sizeMarker
  · rw [if_pos hu] at h ⊢
    exact Reader.field_of_lt h
  · rw [if_neg hu] at h
    exact absurd h (Nat.not_lt_zero _)

/-- A field that is long enough gives the marked sizes one after the other. -/
lemma sizesIn_of_le (h : zip64Width u + zip64Width c ≤ data.length) :
    sizesIn u c data = .ok (zip64Value u data, zip64Value c (data.drop (zip64Width u))) := by
  have hc : zip64Width c ≤ (data.drop (zip64Width u)).length := by
    rw [List.length_drop]
    omega
  have hresolve : resolveSizes u c data =
      .ok ((zip64Value u data, zip64Value c (data.drop (zip64Width u))),
        (data.drop (zip64Width u)).drop (zip64Width c)) := by
    unfold resolveSizes
    rw [Reader.bind_of_ok (resolveSize_of_le (by omega)), Reader.bind_of_ok (resolveSize_of_le hc)]
    rfl
  rw [sizesIn, hresolve]

/-- A field that is too short gives no sizes. -/
lemma sizesIn_of_lt (h : data.length < zip64Width u + zip64Width c) :
    sizesIn u c data = .error (.io .shortField) := by
  have hresolve : resolveSizes u c data = .error .shortField := by
    unfold resolveSizes
    by_cases hu : data.length < zip64Width u
    · exact Reader.bind_of_error (resolveSize_of_lt hu)
    · rw [Reader.bind_of_ok (resolveSize_of_le (Nat.le_of_not_lt hu))]
      refine Reader.bind_of_error (resolveSize_of_lt ?_)
      rw [List.length_drop]
      omega
  rw [sizesIn, hresolve]

/-! ## The search by offsets -/

/-- One round of the search at an offset: the sizes, or the offset of the next field.  There is
nothing if a byte is asked for that is not there. -/
def seekAt? (u c : Nat) (extra : Bytes) (offset : Nat) :
    Option (Except Error (Nat × Nat) ⊕ Nat) :=
  if offset + 4 ≤ extra.length then do
    let tag ← extra.word? offset
    let size ← extra.word? (offset + 2)
    if offset + 4 + size ≤ extra.length then
      if tag = zip64Tag then do
        let data ← extra.slice? (offset + 4) (offset + 4 + size)
        return .inl (sizesIn u c data)
      else return .inr (offset + 4 + size)
    else return .inl (.error (.fault (.invalidArchive .zip64FieldMissing)))
  else return .inl (.error (.fault (.invalidArchive .zip64FieldMissing)))

/-- Looks for the sizes by offsets, and stops with nothing at a byte that is not there. -/
def seeking (u c : Nat) (extra : Bytes) (offset : Nat) :
    Option (Except Error (Nat × Nat)) ⊕ Nat :=
  match seekAt? u c extra offset with
  | none => .inl none
  | some (.inl sizes) => .inl (some sizes)
  | some (.inr next) => .inr next

/-- A round at an offset does what the search does with the bytes from there on. -/
lemma seekAt?_eq (u c : Nat) (extra : Bytes) (offset : Nat) :
    seekAt? u c extra offset = some ((resolving u c (extra.drop offset)).map id
      fun rest => extra.length - rest.length) := by
  have hlen : (extra.drop offset).length = extra.length - offset := List.length_drop
  unfold seekAt? resolving
  -- The cases are those of a round: room for tag and length, room for the data, and the tag.
  by_cases h4 : offset + 4 ≤ extra.length
  · have hsize : extra.word? (offset + 2) = some (ExtraField.statedLength (extra.drop offset)) := by
      rw [Bytes.word?_of_le (by omega), ExtraField.statedLength, List.drop_drop]
    rw [if_pos h4, Bytes.word?_of_le (by omega), hsize]
    simp only [bind, Option.bind]
    set size := ExtraField.statedLength (extra.drop offset) with hstated
    by_cases hroom : offset + 4 + size ≤ extra.length
    · have hread : ExtraField.read (extra.drop offset) =
          .ok (⟨Bytes.value ((extra.drop offset).take 2), (extra.drop (offset + 4)).take size⟩,
            extra.drop (offset + (4 + size))) := by
        rw [ExtraField.read_of_le (by omega) (by omega), List.drop_drop, List.drop_drop]
      rw [if_pos hroom, Bytes.slice?_of_le (by omega) hroom, hread]
      by_cases htag : Bytes.value ((extra.drop offset).take 2) = zip64Tag
      · have hwidth : offset + 4 + size - (offset + 4) = size := by omega
        simp only [if_pos htag, hwidth]
        rfl
      · have hnext : extra.length - (extra.drop (offset + (4 + size))).length =
            offset + 4 + size := by
          rw [List.length_drop]
          omega
        simp only [if_neg htag, Sum.map_inr, hnext]
        rfl
    · rw [if_neg hroom, ExtraField.read_of_lt (by omega) (by omega)]
      rfl
  · rw [if_neg h4, ExtraField.read_of_lt_four (by omega)]
    rfl

/-- What the search goes on with stands behind the field in front. -/
lemma suffix_of_resolving {extra rest : Bytes} (h : resolving u c extra = .inr rest) :
    rest <:+ extra := by
  unfold resolving at h
  split at h
  next => cases h
  next f rest' hread =>
    split at h
    next => cases h
    next =>
      cases h
      obtain ⟨-, rfl⟩ := ExtraField.eq_of_read hread
      exact List.suffix_append _ _

/-- Looking for the sizes by offsets goes round once for each field at most, and never asks for a
byte that is not there. -/
lemma loops_seeking (extra : Bytes) (u c : Nat) :
    ∃ rounds ≤ extra.length / 4,
      Loops (seeking u c extra) rounds 0 (some (zip64Sizes extra u c)) := by
  obtain ⟨rounds, hle, hloops⟩ := loops_resolving u c extra
  refine ⟨rounds, hle, Loops.of_view (fun offset => extra.drop offset) some ?_ ?_
    (a := 0) hloops⟩
  · intro offset sizes hstop
    simp only [seeking, seekAt?_eq, hstop, Sum.map_inl, id]
  · intro offset rest hagain
    have hsuffix : rest <:+ extra :=
      (suffix_of_resolving hagain).trans (List.drop_suffix offset extra)
    refine ⟨extra.length - rest.length, ?_, (List.suffix_iff_eq_drop.mp hsuffix).symm⟩
    simp only [seeking, seekAt?_eq, hagain, Sum.map_inr]

/-- Where the sizes of an entry are that its header marks.  The search for them stops, and takes no
byte that is not there.  Behind fields with other tags, a zip64 field gives each marked size as its
next eight bytes, the uncompressed one first, and leaves a size that is not marked; if it is too short
for the marked sizes, the bytes end unexpectedly.  If what stands behind the fields with other tags is
no complete field, the sizes are missing.  There is no other case. -/
theorem zip64Sizes_of_fields (extra : Bytes) (u c : Nat) :
    (∃ rounds ≤ extra.length / 4,
      Loops (seeking u c extra) rounds 0 (some (zip64Sizes extra u c))) ∧
    (∀ (before : List ExtraField) (f : ExtraField) (after : Bytes),
      (∀ g ∈ before, g.Fits ∧ g.tag ≠ zip64Tag) → f.Fits → f.tag = zip64Tag →
      extra = before.flatMap ExtraField.encode ++ (f.encode ++ after) →
      (zip64Width u + zip64Width c ≤ f.data.length → zip64Sizes extra u c =
        .ok (zip64Value u f.data, zip64Value c (f.data.drop (zip64Width u)))) ∧
      (f.data.length < zip64Width u + zip64Width c →
        ∃ e : IoError, zip64Sizes extra u c = .error (.io e) ∧ e.kind = .unexpectedEof)) ∧
    (∀ (before : List ExtraField) (rest : Bytes), (∀ g ∈ before, g.Fits ∧ g.tag ≠ zip64Tag) →
      ExtraField.Broken rest → extra = before.flatMap ExtraField.encode ++ rest →
      zip64Sizes extra u c = .error (.fault (.invalidArchive .zip64FieldMissing))) ∧
    ∃ (before : List ExtraField) (rest : Bytes), (∀ g ∈ before, g.Fits ∧ g.tag ≠ zip64Tag) ∧
      extra = before.flatMap ExtraField.encode ++ rest ∧
      (ExtraField.Broken rest ∨ ∃ (f : ExtraField) (after : Bytes),
        f.Fits ∧ f.tag = zip64Tag ∧ rest = f.encode ++ after) := by
  refine ⟨loops_seeking extra u c, ?_, ?_, ExtraField.exists_fields (·.tag = zip64Tag) extra⟩
  · rintro before f after hbefore hfits htag rfl
    have hfind : (ExtraField.all (before.flatMap ExtraField.encode ++
        (f.encode ++ after))).find? (·.tag = zip64Tag) = some f :=
      ExtraField.find?_all
        (fun g hg => ⟨(hbefore g hg).1, decide_eq_false (hbefore g hg).2⟩) hfits
        (decide_eq_true htag)
    rw [zip64Sizes_eq_sizesAmong, sizesAmong, hfind]
    exact ⟨sizesIn_of_le, fun hshort => ⟨.shortField, sizesIn_of_lt hshort, rfl⟩⟩
  · rintro before rest hbefore hrest rfl
    rw [zip64Sizes_eq_sizesAmong, sizesAmong, ExtraField.all,
      ExtraField.find?_upTo_of_broken
        (fun g hg => ⟨(hbefore g hg).1, decide_eq_false (hbefore g hg).2⟩) hrest]

/-- A field with another tag. -/
def ExtraField.stamp : ExtraField where
  tag := 0x5455
  data := [9]

/-- A zip64 field with one size. -/
def ExtraField.oneSize : ExtraField where
  tag := zip64Tag
  data := Bytes.le 8 5

/-- A zip64 field with two sizes and a byte more. -/
def ExtraField.twoSizes : ExtraField where
  tag := zip64Tag
  data := Bytes.le 8 5 ++ Bytes.le 8 7 ++ [255]

/-- Behind a field with another tag, two marked sizes are in a zip64 field, whatever its further bytes
and those behind it are.  One marked size is at its front, and two of them are not in a field of eight
bytes.  A field whose length is cut off is none. -/
theorem zip64Sizes_behind_stamp :
    zip64Sizes ([ExtraField.stamp].flatMap ExtraField.encode ++
        (ExtraField.twoSizes.encode ++ [1, 0, 8])) sizeMarker sizeMarker = .ok (5, 7) ∧
      zip64Sizes ([ExtraField.stamp].flatMap ExtraField.encode ++
        (ExtraField.oneSize.encode ++ [])) 3 sizeMarker = .ok (3, 5) ∧
      (∃ e : IoError, zip64Sizes ([ExtraField.stamp].flatMap ExtraField.encode ++
          (ExtraField.oneSize.encode ++ [])) sizeMarker sizeMarker = .error (.io e) ∧
        e.kind = .unexpectedEof) ∧
      zip64Sizes ([ExtraField.stamp].flatMap ExtraField.encode ++ [1, 0, 8]) sizeMarker sizeMarker =
        .error (.fault (.invalidArchive .zip64FieldMissing)) := by
  have hbefore : ∀ g ∈ [ExtraField.stamp], g.Fits ∧ g.tag ≠ zip64Tag :=
    List.forall_mem_singleton.mpr ⟨by constructor <;> decide, by decide⟩
  have htwo : ExtraField.twoSizes.Fits := by constructor <;> decide
  have hone : ExtraField.oneSize.Fits := by constructor <;> decide
  have hbroken : ExtraField.Broken [1, 0, 8] :=
    ExtraField.broken_of_read (ExtraField.read_of_lt_four (by decide))
  obtain ⟨-, hfound, -, -⟩ := zip64Sizes_of_fields ([ExtraField.stamp].flatMap ExtraField.encode ++
    (ExtraField.twoSizes.encode ++ [1, 0, 8])) sizeMarker sizeMarker
  obtain ⟨-, hplain, -, -⟩ := zip64Sizes_of_fields ([ExtraField.stamp].flatMap ExtraField.encode ++
    (ExtraField.oneSize.encode ++ [])) 3 sizeMarker
  obtain ⟨-, hshort, -, -⟩ := zip64Sizes_of_fields ([ExtraField.stamp].flatMap ExtraField.encode ++
    (ExtraField.oneSize.encode ++ [])) sizeMarker sizeMarker
  obtain ⟨-, -, hmissing, -⟩ := zip64Sizes_of_fields
    ([ExtraField.stamp].flatMap ExtraField.encode ++ [1, 0, 8]) sizeMarker sizeMarker
  exact ⟨(hfound _ _ _ hbefore htwo rfl rfl).1 (by decide),
    (hplain _ _ _ hbefore hone rfl rfl).1 (by decide),
    (hshort _ _ _ hbefore hone rfl rfl).2 (by decide), hmissing _ _ hbefore hbroken rfl⟩

end ZipMount
