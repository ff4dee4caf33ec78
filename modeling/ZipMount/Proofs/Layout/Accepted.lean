import ZipMount.Proofs.Layout.Part

/-!
# What is accepted was written

The readers of the walk accept nothing but what the format allows.  Each lemma here turns a
successful read around: the bytes it took are a written header, extra field or descriptor of which
the numbers fit their fields, and the name and the sizes that come out of a header are those that it
stands for.

Together with the lemmas that headers read back, this says exactly on which inputs a header is found
(`header_eq_some_iff`) and on which the entries end (`header_eq_none_iff`).
-/

namespace ZipMount

namespace Reader

variable {α β : Type}

/-- What is read in sequence has been read one after the other. -/
lemma exists_of_bind_eq_ok {r : Reader α} {f : α → Reader β} {input rest : Bytes} {b : β}
    (h : (r >>= f) input = .ok (b, rest)) :
    ∃ a mid, r input = .ok (a, mid) ∧ f a mid = .ok (b, rest) := by
  change Except.bind (r input) _ = _ at h
  cases hr : r input with
  | error e =>
    rw [hr] at h
    cases h
  | ok p =>
    obtain ⟨a, mid⟩ := p
    rw [hr] at h
    exact ⟨a, mid, rfl, h⟩

/-- A number that has been read fits its field and stands in front of what is left. -/
lemma eq_of_field {k n : Nat} {input rest : Bytes} (h : field k input = .ok (n, rest)) :
    n < 256 ^ k ∧ input = Bytes.le k n ++ rest := by
  obtain ⟨text, mid, htext, hvalue⟩ := exists_of_bind_eq_ok h
  obtain ⟨hinput, hlen⟩ := bytes_eq_ok_iff.mp htext
  cases hvalue
  subst hlen
  have hback : Bytes.le text.length (Bytes.value text) = text := Bytes.le_value text
  exact ⟨Bytes.value_lt text, by rw [hback, hinput]⟩

/-- Bytes that have been read are as many as asked for and stand in front of what is left. -/
lemma eq_of_bytes {n : Nat} {input text rest : Bytes} (h : bytes n input = .ok (text, rest)) :
    n = text.length ∧ input = text ++ rest := by
  obtain ⟨hinput, hlen⟩ := bytes_eq_ok_iff.mp h
  exact ⟨hlen.symm, hinput⟩

end Reader

open Reader (exists_of_bind_eq_ok eq_of_field eq_of_bytes)

/-! ## Descriptors -/

/-- A descriptor that has been read was written with its signature or without. -/
lemma Trailer.exists_of_read {w : SizeWidth} {d : Descriptor} {input rest : Bytes}
    (h : Descriptor.read w input = .ok (d, rest)) :
    ∃ signed, Trailer.Fits w ⟨d, signed⟩ ∧ input = Trailer.encode w ⟨d, signed⟩ ++ rest := by
  have hsizes : ∀ {crc32 : Nat} {input' : Bytes},
      (do let compressed ← Reader.field w.bytes
          let uncompressed ← Reader.field w.bytes
          return Descriptor.mk crc32 compressed uncompressed : Reader Descriptor) input' =
        .ok (d, rest) →
      d.crc32 = crc32 ∧ d.compressed < 256 ^ w.bytes ∧ d.uncompressed < 256 ^ w.bytes ∧
        input' = Bytes.le w.bytes d.compressed ++ (Bytes.le w.bytes d.uncompressed ++ rest) := by
    intro crc32 input' hread
    obtain ⟨compressed, mid, hcompressed, hread⟩ := exists_of_bind_eq_ok hread
    obtain ⟨uncompressed, mid', huncompressed, hread⟩ := exists_of_bind_eq_ok hread
    cases hread
    obtain ⟨hcompressed_lt, hinput⟩ := eq_of_field hcompressed
    obtain ⟨huncompressed_lt, hmid⟩ := eq_of_field huncompressed
    exact ⟨rfl, hcompressed_lt, huncompressed_lt, by rw [hinput, hmid]⟩
  unfold Descriptor.read at h
  obtain ⟨first, input₁, hfirst, h₁⟩ := exists_of_bind_eq_ok h
  obtain ⟨hfirst_lt, hinput⟩ := eq_of_field hfirst
  dsimp only at h₁
  -- Only the value of the first word tells whether it is a signature.
  by_cases hsigned : first = Descriptor.signature
  · rw [if_pos hsigned] at h₁
    obtain ⟨crc32, input₂, hcrc, h₂⟩ := exists_of_bind_eq_ok h₁
    obtain ⟨hcrc_lt, hinput₁⟩ := eq_of_field hcrc
    obtain ⟨rfl, hcompressed_lt, huncompressed_lt, hinput₂⟩ := hsizes h₂
    refine ⟨true, ⟨⟨hcrc_lt, hcompressed_lt, huncompressed_lt⟩, fun hfalse => ?_⟩, ?_⟩
    · cases hfalse
    · rw [hinput, hinput₁, hinput₂, hsigned]
      simp only [encode, if_true, Descriptor.encodeSigned, Descriptor.encodeUnsigned,
        List.append_assoc]
  · rw [if_neg hsigned] at h₁
    obtain ⟨rfl, hcompressed_lt, huncompressed_lt, hinput₁⟩ := hsizes h₁
    refine ⟨false, ⟨⟨hfirst_lt, hcompressed_lt, huncompressed_lt⟩, fun _ => hsigned⟩, ?_⟩
    rw [hinput, hinput₁]
    simp only [encode, Bool.false_eq_true, if_false, Descriptor.encodeUnsigned, List.append_assoc]

/-! ## Extra fields -/

namespace ExtraField

/-- An extra field that has been read was written. -/
lemma eq_of_read {f : ExtraField} {input rest : Bytes} (h : read input = .ok (f, rest)) :
    f.Fits ∧ input = f.encode ++ rest := by
  unfold read at h
  obtain ⟨tag, input₁, htag, h⟩ := exists_of_bind_eq_ok h
  obtain ⟨size, input₂, hsize, h⟩ := exists_of_bind_eq_ok h
  obtain ⟨data, input₃, hdata, h⟩ := exists_of_bind_eq_ok h
  cases h
  obtain ⟨htag_lt, rfl⟩ := eq_of_field htag
  obtain ⟨hsize_lt, rfl⟩ := eq_of_field hsize
  obtain ⟨rfl, rfl⟩ := eq_of_bytes hdata
  refine ⟨⟨htag_lt, hsize_lt⟩, ?_⟩
  simp only [encode, List.append_assoc]

/-- The first field that satisfies a condition stands behind written fields that do not. -/
lemma exists_of_find?_upTo {q : ExtraField → Bool} {limit : Nat} {input : Bytes} {f : ExtraField}
    (h : (upTo limit input).find? q = some f) :
    ∃ (before : List ExtraField) (after : Bytes), (∀ g ∈ before, g.Fits ∧ q g = false) ∧
      f.Fits ∧ input = before.flatMap encode ++ (f.encode ++ after) := by
  induction limit generalizing input with
  | zero => cases h
  | succ limit ih =>
    rw [upTo] at h
    cases hread : read input with
    | error e =>
      rw [hread] at h
      cases h
    | ok p =>
      obtain ⟨g, rest⟩ := p
      rw [hread] at h
      obtain ⟨hfits, rfl⟩ := eq_of_read hread
      by_cases hg : q g = true
      · rw [List.find?_cons_of_pos hg] at h
        cases h
        exact ⟨[], rest, fun g' hg' => absurd hg' List.not_mem_nil, hfits, rfl⟩
      · rw [List.find?_cons_of_neg hg] at h
        obtain ⟨before, after, hbefore, hf, rfl⟩ := ih h
        refine ⟨g :: before, after, fun g' hg' => ?_, hf, ?_⟩
        · rcases List.mem_cons.mp hg' with rfl | hmem
          · exact ⟨hfits, Bool.eq_false_iff.mpr hg⟩
          · exact hbefore g' hmem
        · rw [List.flatMap_cons, List.append_assoc]

end ExtraField

/-! ## Local headers -/

/-- Bytes that decode to a text are its encoding. -/
lemma Utf8.eq_encode_of_decode? {bytes : Bytes} {text : String}
    (h : Utf8.decode? bytes = some text) : bytes = Utf8.encode text := by
  unfold decode? String.fromUTF8? at h
  split at h
  next hvalid =>
    obtain rfl := Option.some.inj h
    rfl
  next => cases h

namespace LocalHeader

/-- A header that has been read was written. -/
lemma eq_of_read {h : LocalHeader} {input rest : Bytes} (hr : read input = .ok (h, rest)) :
    h.Fits ∧ input = h.fields ++ rest := by
  unfold read at hr
  obtain ⟨version, input₁, hversion, hr⟩ := exists_of_bind_eq_ok hr
  obtain ⟨flags, input₂, hflags, hr⟩ := exists_of_bind_eq_ok hr
  obtain ⟨method, input₃, hmethod, hr⟩ := exists_of_bind_eq_ok hr
  obtain ⟨modTime, input₄, hmodTime, hr⟩ := exists_of_bind_eq_ok hr
  obtain ⟨modDate, input₅, hmodDate, hr⟩ := exists_of_bind_eq_ok hr
  obtain ⟨crc32, input₆, hcrc, hr⟩ := exists_of_bind_eq_ok hr
  obtain ⟨compressed, input₇, hcompressed, hr⟩ := exists_of_bind_eq_ok hr
  obtain ⟨uncompressed, input₈, huncompressed, hr⟩ := exists_of_bind_eq_ok hr
  obtain ⟨nameLength, input₉, hnameLength, hr⟩ := exists_of_bind_eq_ok hr
  obtain ⟨extraLength, input₁₀, hextraLength, hr⟩ := exists_of_bind_eq_ok hr
  obtain ⟨name, input₁₁, hname, hr⟩ := exists_of_bind_eq_ok hr
  obtain ⟨extra, input₁₂, hextra, hr⟩ := exists_of_bind_eq_ok hr
  cases hr
  obtain ⟨hversion_lt, rfl⟩ := eq_of_field hversion
  obtain ⟨hflags_lt, rfl⟩ := eq_of_field hflags
  obtain ⟨hmethod_lt, rfl⟩ := eq_of_field hmethod
  obtain ⟨hmodTime_lt, rfl⟩ := eq_of_field hmodTime
  obtain ⟨hmodDate_lt, rfl⟩ := eq_of_field hmodDate
  obtain ⟨hcrc_lt, rfl⟩ := eq_of_field hcrc
  obtain ⟨hcompressed_lt, rfl⟩ := eq_of_field hcompressed
  obtain ⟨huncompressed_lt, rfl⟩ := eq_of_field huncompressed
  obtain ⟨hnameLength_lt, rfl⟩ := eq_of_field hnameLength
  obtain ⟨hextraLength_lt, rfl⟩ := eq_of_field hextraLength
  obtain ⟨rfl, rfl⟩ := eq_of_bytes hname
  obtain ⟨rfl, rfl⟩ := eq_of_bytes hextra
  refine ⟨⟨hversion_lt, hflags_lt, hmethod_lt, hmodTime_lt, hmodDate_lt, hcrc_lt, hcompressed_lt,
    huncompressed_lt, hnameLength_lt, hextraLength_lt⟩, ?_⟩
  simp only [fields, List.append_assoc]

/-- The name that comes out of a header is the one it stands for. -/
lemma names_of_entryName {h : LocalHeader} {name : String} (hn : h.entryName = .ok name) :
    h.Names name := by
  unfold Names
  unfold entryName at hn
  by_cases hutf8 : h.hasUtf8Name = true
  · rw [if_pos hutf8] at hn ⊢
    split at hn
    next text htext =>
      cases hn
      exact Utf8.eq_encode_of_decode? htext
    next => cases hn
  · rw [if_neg hutf8] at hn ⊢
    cases hn
    rfl

/-- A size that has been read from the zip64 field, or was at hand. -/
lemma eq_of_resolveSize {headerSize size : Nat} {input rest : Bytes} (hlt : headerSize < 256 ^ 4)
    (h : resolveSize headerSize input = .ok (size, rest)) :
    (headerSize ≠ sizeMarker → size = headerSize) ∧ size < 256 ^ 8 ∧
      input = (if headerSize = sizeMarker then Bytes.le 8 size else []) ++ rest := by
  unfold resolveSize at h
  by_cases hm : headerSize = sizeMarker
  · rw [if_pos hm] at h ⊢
    obtain ⟨hsize, hinput⟩ := eq_of_field h
    exact ⟨fun hne => absurd hm hne, hsize, hinput⟩
  · rw [if_neg hm] at h ⊢
    cases h
    exact ⟨fun _ => rfl, Nat.lt_of_lt_of_le hlt (by decide), rfl⟩

/-- The sizes that come out of a header are those it stands for. -/
lemma sizes_of_eq_ok {h : LocalHeader} {u c : Nat} (hf : h.Fits) (hs : h.sizes = .ok (u, c)) :
    h.Sizes u c := by
  unfold sizes at hs
  by_cases hz : h.isZip64 = true
  · rw [if_pos hz] at hs
    unfold zip64Sizes at hs
    split at hs
    next => cases hs
    next f hfind =>
      split at hs
      next found rest hresolve =>
        obtain rfl : found = (u, c) := by injection hs
        have hdecide := List.find?_some hfind
        have htag : f.tag = zip64Tag := of_decide_eq_true hdecide
        obtain ⟨before, after, hbefore, hfits, hextra⟩ := ExtraField.exists_of_find?_upTo hfind
        unfold resolveSizes at hresolve
        obtain ⟨u', mid, hu, hresolve⟩ := exists_of_bind_eq_ok hresolve
        obtain ⟨c', mid', hc, hresolve⟩ := exists_of_bind_eq_ok hresolve
        cases hresolve
        obtain ⟨hu_eq, hu_lt, hdata⟩ := eq_of_resolveSize hf.uncompressed hu
        obtain ⟨hc_eq, hc_lt, rfl⟩ := eq_of_resolveSize hf.compressed hc
        have hfield : f = ⟨zip64Tag, h.marked u c ++ rest⟩ := by
          rw [marked, List.append_assoc, ← hdata, ← htag]
        refine ⟨hu_eq, hc_eq, hu_lt, hc_lt, fun _ => ?_⟩
        refine ⟨before, after, rest, fun g hg => ?_, hfield ▸ hfits, hfield ▸ hextra⟩
        obtain ⟨hgfits, hgtag⟩ := hbefore g hg
        exact ⟨hgfits, of_decide_eq_false hgtag⟩
      next => cases hs
  · rw [if_neg hz] at hs
    cases hs
    exact sizes_of_unmarked hf (Bool.eq_false_iff.mpr hz)

/-- A header from which an entry comes says where the payload ends, or leaves that to a deflate
stream that can be decoded. -/
lemma says_of_entry {h : LocalHeader} {e : Entry} (hf : h.Fits) (he : h.entry = .ok e) :
    ∃ name u c, h.Names name ∧ h.Sizes u c ∧ e = h.describe name u c ∧
      (h.hasDescriptor = true → c = 0 → h.isEncrypted = false ∧ h.method = 8) := by
  unfold entry at he
  simp only [bind, Except.bind] at he
  split at he
  next => cases he
  next name hname =>
    split at he
    next => cases he
    next s hsizes =>
      obtain ⟨u, c⟩ := s
      refine ⟨name, u, c, names_of_entryName hname, sizes_of_eq_ok hf hsizes, ?_⟩
      unfold delimited at he
      dsimp only at he
      split at he
      next hsized =>
        cases he
        refine ⟨rfl, fun hd hc => ?_⟩
        simp [describe, hd, hc] at hsized
      next =>
        split at he
        next => cases he
        next hrefusal =>
          split at he
          next => cases he
          next hstored =>
            cases he
            refine ⟨rfl, fun _ _ => ?_⟩
            have hnone : h.refusal name = none := Option.not_isSome_iff_eq_none.mp hrefusal
            have hplain : h.isEncrypted = false := by
              cases henc : h.isEncrypted with
              | false => rfl
              | true => simp [refusal, henc] at hnone
            refine ⟨hplain, ?_⟩
            by_contra h8
            by_cases h0 : h.method = 0
            · exact hstored (by simp [describe, h0, Method.ofCode])
            · simp [refusal, hplain, Method.ofCode_of_ne h0 h8] at hnone

end LocalHeader

namespace Walk

/-- A header is found exactly where one is written that says where its payload ends. -/
lemma header_eq_some_iff {input rest : Bytes} {e : Entry} :
    header input = .ok (some (e, rest)) ↔
      ∃ (h : LocalHeader) (name : String) (u c : Nat), h.Fits ∧ h.Names name ∧ h.Sizes u c ∧
        (h.hasDescriptor = true → c = 0 → h.isEncrypted = false ∧ h.method = 8) ∧
        e = h.describe name u c ∧ input = h.encode ++ rest := by
  constructor
  · intro hheader
    unfold header at hheader
    split at hheader
    next => cases hheader
    next word input₁ hword =>
      obtain ⟨-, rfl⟩ := eq_of_field hword
      split at hheader
      next hsignature =>
        split at hheader
        next => cases hheader
        next h input₂ hread =>
          obtain ⟨hfits, rfl⟩ := LocalHeader.eq_of_read hread
          simp only [bind, Except.bind] at hheader
          split at hheader
          next => cases hheader
          next e' hentry =>
            cases hheader
            obtain ⟨name, u, c, hnames, hsizes, he, hend⟩ := LocalHeader.says_of_entry hfits hentry
            refine ⟨h, name, u, c, hfits, hnames, hsizes, hend, he, ?_⟩
            rw [LocalHeader.encode, hsignature, List.append_assoc]
      next =>
        split at hheader
        next => cases hheader
        next => cases hheader
  · rintro ⟨h, name, u, c, hfits, hnames, hsizes, hend, rfl, rfl⟩
    exact header_encode hfits (LocalHeader.entry_of_says hnames hsizes hend) rest

/-- The entries end exactly where a word stands that ends them. -/
lemma header_eq_none_iff {input : Bytes} :
    header input = .ok none ↔
      ∃ word ∈ LocalHeader.endSignatures, ∃ more, input = Bytes.le 4 word ++ more := by
  constructor
  · intro hheader
    unfold header at hheader
    split at hheader
    next => cases hheader
    next word rest hword =>
      obtain ⟨-, rfl⟩ := eq_of_field hword
      split at hheader
      next =>
        split at hheader
        next => cases hheader
        next =>
          simp only [bind, Except.bind] at hheader
          split at hheader
          next => cases hheader
          next => cases hheader
      next =>
        split at hheader
        next hend => exact ⟨word, hend, rest, rfl⟩
        next => cases hheader
  · rintro ⟨word, hend, more, rfl⟩
    exact header_end hend more

end Walk

end ZipMount
