import ZipMount.Proofs.Layout.Accepted

/-!
# The two encodings of a descriptor

A descriptor is written with a signature or without, and only the value of its first word tells the
one from the other.  With its signature it always reads back.  Without it, it reads back if and only
if its checksum is not the signature: if it is, then the checksum is passed over as a signature, and
whatever is read takes four bytes more than were written.

A descriptor that is cut short is never read as another one.  `Reader.Starves` is the statement for
one reader: every beginning of a text, but the text itself, has too few bytes for it.  Like
`Reader.Reads`, it is closed under sequencing.  The main statement is `read_encodings`.
-/

namespace ZipMount

namespace Reader

variable {α β : Type}

/-- The reader finds too few bytes in every beginning of the text that is not all of it. -/
def Starves (r : Reader α) (text : Bytes) : Prop :=
  ∀ front, front <+: text → front ≠ text → r front = .error .shortField

/-- There is nothing to be cut off from no text. -/
lemma starves_nil (r : Reader α) : Starves r [] := by
  intro front hfront hne
  exact absurd (List.prefix_nil.mp hfront) hne

/-- A field is starved by fewer bytes than it takes. -/
lemma starves_field (k n : Nat) : Starves (field k) (Bytes.le k n) := by
  intro front hfront hne
  have hlen : front.length ≠ (Bytes.le k n).length := fun h => hne (hfront.eq_of_length h)
  have hle := hfront.length_le
  rw [Bytes.length_le] at hlen hle
  exact field_of_lt (Nat.lt_of_le_of_ne hle hlen)

/-- What is read in sequence is starved where the text of the first reader is cut short, and where
that of the second one is. -/
lemma Starves.bind {r : Reader α} {f : α → Reader β} {s t : Bytes} {a : α} (hr : Reads r s a)
    (hs : Starves r s) (hf : Starves (f a) t) : Starves (r >>= f) (s ++ t) := by
  intro front ⟨missing, hmissing⟩ hne
  -- The cut is in the text of the first reader or behind it.
  rcases List.append_eq_append_iff.mp hmissing with ⟨left, hs_eq, -⟩ | ⟨more, rfl, ht_eq⟩
  · by_cases hwhole : front = s
    · subst hwhole
      have hnil : t ≠ [] := by
        rintro rfl
        exact hne (List.append_nil front).symm
      have hread : r front = .ok (a, []) := by
        simpa using hr []
      rw [bind_of_ok hread]
      exact hf [] List.nil_prefix hnil.symm
    · exact bind_of_error (hs front ⟨left, hs_eq.symm⟩ hwhole)
  · rw [bind_of_ok (hr more)]
    exact hf more ⟨missing, ht_eq.symm⟩ fun h => hne (by rw [h])

end Reader

namespace Descriptor

open Reader (Starves starves_nil starves_field reads_field)

variable {w : SizeWidth} {d : Descriptor}

/-- The number of bytes of a descriptor without its signature. -/
lemma length_encodeUnsigned (w : SizeWidth) (d : Descriptor) :
    (d.encodeUnsigned w).length = 4 + 2 * w.bytes := by
  simp only [encodeUnsigned, List.length_append, Bytes.length_le]
  omega

/-- A field in front of what is starved. -/
lemma starves_field_bind {β : Type} {f : Nat → Reader β} {k n : Nat} {t : Bytes}
    (hn : n < 256 ^ k) (hf : Starves (f n) t) :
    Starves (Reader.field k >>= f) (Bytes.le k n ++ t) :=
  Starves.bind (reads_field hn) (starves_field k n) hf

/-- The sizes are starved where they are cut short, whatever the checksum is. -/
lemma starves_sizes (h : d.Fits w) (crc32 : Nat) :
    Starves (do
      let compressed ← Reader.field w.bytes
      let uncompressed ← Reader.field w.bytes
      return (⟨crc32, compressed, uncompressed⟩ : Descriptor) : Reader Descriptor)
      (Bytes.le w.bytes d.compressed ++ Bytes.le w.bytes d.uncompressed) := by
  refine starves_field_bind h.compressed ?_
  rw [← List.append_nil (Bytes.le w.bytes d.uncompressed)]
  exact starves_field_bind h.uncompressed (starves_nil _)

/-- A descriptor with its signature is not read where it is cut short. -/
lemma starves_signed (h : d.Fits w) : Starves (read w) (d.encodeSigned w) := by
  unfold read encodeSigned encodeUnsigned
  rw [List.append_assoc]
  refine starves_field_bind (by decide) ?_
  rw [if_pos rfl]
  exact starves_field_bind h.crc32 (starves_sizes h d.crc32)

/-- A descriptor without its signature is not read where it is cut short, if its checksum is not the
signature. -/
lemma starves_unsigned (h : d.Fits w) (hcrc : d.crc32 ≠ signature) :
    Starves (read w) (d.encodeUnsigned w) := by
  unfold read encodeUnsigned
  rw [List.append_assoc]
  refine starves_field_bind h.crc32 ?_
  rw [if_neg hcrc]
  exact starves_sizes h d.crc32

/-- Whatever is read from exactly the bytes of a descriptor without its signature has another word
for its checksum than the signature. -/
lemma crc32_ne_of_read {d' : Descriptor} {rest : Bytes}
    (h : read w (d.encodeUnsigned w ++ rest) = .ok (d', rest)) : d'.crc32 ≠ signature := by
  obtain ⟨signed, hfits, hinput⟩ := Trailer.exists_of_read h
  have htext : d.encodeUnsigned w = Trailer.encode w ⟨d', signed⟩ :=
    List.append_cancel_right hinput
  have hlen := congrArg List.length htext
  -- The two encodings differ in length, so the one that was read is the one that was written.
  cases signed with
  | true =>
    simp only [Trailer.encode, if_true, encodeSigned, List.length_append, Bytes.length_le,
      length_encodeUnsigned] at hlen
    omega
  | false => exact hfits.crc32_ne rfl

/-- What the two encodings of a descriptor read back as, whatever follows them.  The signed one gives
the descriptor and leaves what follows it.  The unsigned one gives checksum and uncompressed size and
leaves what follows if and only if the checksum is not the signature.  Nothing is read from an
encoding that is cut short, if it is not an unsigned one that begins with the signature. -/
theorem read_encodings (h : d.Fits w) :
    (∀ rest, read w (d.encodeSigned w ++ rest) = .ok (d, rest)) ∧
      (∀ rest, (∃ compressed, read w (d.encodeUnsigned w ++ rest) =
          .ok (⟨d.crc32, compressed, d.uncompressed⟩, rest)) ↔ d.crc32 ≠ signature) ∧
      (∀ front, front <+: d.encodeSigned w → front ≠ d.encodeSigned w →
        ∃ e : IoError, read w front = .error e ∧ e.kind = .unexpectedEof) ∧
      (d.crc32 ≠ signature → ∀ front, front <+: d.encodeUnsigned w → front ≠ d.encodeUnsigned w →
        ∃ e : IoError, read w front = .error e ∧ e.kind = .unexpectedEof) := by
  refine ⟨reads_signed h, fun rest => ⟨?_, ?_⟩, ?_, ?_⟩
  · rintro ⟨compressed, hread⟩
    have hne := crc32_ne_of_read hread
    exact hne
  · intro hcrc
    exact ⟨d.compressed, reads_unsigned h hcrc rest⟩
  · intro front hfront hne
    exact ⟨.shortField, starves_signed h front hfront hne, rfl⟩
  · intro hcrc front hfront hne
    exact ⟨.shortField, starves_unsigned h hcrc front hfront hne, rfl⟩

/-- Sizes with the value of the signature are not taken for it, only a checksum is. -/
theorem read_encodings_beside_signature :
    read .eight (encodeSigned .eight ⟨7, signature, signature⟩ ++ [80, 75]) =
        .ok (⟨7, signature, signature⟩, [80, 75]) ∧
      (∃ compressed, read .eight (encodeUnsigned .eight ⟨7, signature, signature⟩ ++ [80, 75]) =
        .ok (⟨7, compressed, signature⟩, [80, 75])) ∧
      (¬∃ compressed, read .four (encodeUnsigned .four ⟨signature, 5, 3⟩ ++ [80, 75]) =
        .ok (⟨signature, compressed, 3⟩, [80, 75])) ∧
      (∃ e : IoError, read .eight ((encodeSigned .eight ⟨7, signature, signature⟩).take 19) =
        .error e ∧ e.kind = .unexpectedEof) ∧
      ∃ e : IoError, read .eight ((encodeUnsigned .eight ⟨7, signature, signature⟩).take 19) =
        .error e ∧ e.kind = .unexpectedEof := by
  have hplain : Fits .eight ⟨7, signature, signature⟩ := by constructor <;> decide
  have hclash : Fits .four ⟨signature, 5, 3⟩ := by constructor <;> decide
  obtain ⟨hsigned, hunsigned, hcut, hcut'⟩ := read_encodings hplain
  obtain ⟨-, htaken, -, -⟩ := read_encodings hclash
  refine ⟨hsigned [80, 75], (hunsigned [80, 75]).mpr (by decide), ?_, ?_, ?_⟩
  · intro hread
    exact (htaken [80, 75]).mp hread rfl
  · exact hcut _ (List.take_prefix 19 _) (by decide)
  · exact hcut' (by decide) _ (List.take_prefix 19 _) (by decide)

end Descriptor

end ZipMount
