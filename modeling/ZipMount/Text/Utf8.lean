import ZipMount.Bytes

/-!
# Text from bytes

Names are stored as UTF-8.  `Utf8.decode?` accepts well-formed text only; `Utf8.decodeLossy` accepts
everything and puts U+FFFD in place of each maximal ill-formed part, so the two agree on well-formed
text.  `Utf8.encode` is the way back.
-/

namespace ZipMount

namespace Utf8

/-- The bytes of a text. -/
def encode (text : String) : Bytes :=
  text.toByteArray.data.toList

/-- The text that well-formed bytes stand for. -/
def decode? (bytes : Bytes) : Option String :=
  String.fromUTF8? ⟨bytes.toArray⟩

/-- Well-formed bytes are decoded to the text they encode. -/
theorem decode?_encode (text : String) : decode? (encode text) = some text := by
  have h : (⟨(encode text).toArray⟩ : ByteArray) = text.toByteArray := by
    simp [encode]
  unfold decode? String.fromUTF8?
  rw [h]
  simp only [text.isValidUTF8, dite_true]
  rfl

/-- A character that has begun: how many bytes it still needs, the range of its next byte, and the
bits gathered so far. -/
structure Begun where
  missing : Nat
  low : UInt8
  high : UInt8
  bits : Nat

/-- What a byte means where a character may begin. -/
inductive Lead
  | single (c : Char)
  | begins (b : Begun)
  | illFormed

/-- The role of a byte at the start of a character; the range of the second byte shuts out overlong
forms, surrogates and values above U+10FFFF. -/
def lead (b : UInt8) : Lead :=
  if b < 0x80 then .single (Char.ofNat b.toNat)
  else if b < 0xC2 then .illFormed
  else if b < 0xE0 then .begins ⟨1, 0x80, 0xBF, b.toNat - 0xC0⟩
  else if b = 0xE0 then .begins ⟨2, 0xA0, 0xBF, 0⟩
  else if b = 0xED then .begins ⟨2, 0x80, 0x9F, 0x0D⟩
  else if b < 0xF0 then .begins ⟨2, 0x80, 0xBF, b.toNat - 0xE0⟩
  else if b = 0xF0 then .begins ⟨3, 0x90, 0xBF, 0⟩
  else if b < 0xF4 then .begins ⟨3, 0x80, 0xBF, b.toNat - 0xF0⟩
  else if b = 0xF4 then .begins ⟨3, 0x80, 0x8F, 4⟩
  else .illFormed

/-- The character that stands for an ill-formed part. -/
def replacement : Char := '\uFFFD'

/-- The characters of arbitrary bytes, given the character that has begun before them. -/
def replaceFrom : Option Begun → Bytes → List Char
  | none, [] => []
  | some _, [] => [replacement]
  | none, b :: rest =>
    match lead b with
    | .single c => c :: replaceFrom none rest
    | .begins s => replaceFrom (some s) rest
    | .illFormed => replacement :: replaceFrom none rest
  | some s, b :: rest =>
    if s.low ≤ b ∧ b ≤ s.high then
      let bits := s.bits * 64 + (b.toNat - 0x80)
      if s.missing ≤ 1 then Char.ofNat bits :: replaceFrom none rest
      else replaceFrom (some ⟨s.missing - 1, 0x80, 0xBF, bits⟩) rest
    else
      match lead b with
      | .single c => replacement :: c :: replaceFrom none rest
      | .begins s' => replacement :: replaceFrom (some s') rest
      | .illFormed => replacement :: replacement :: replaceFrom none rest

/-- The text of arbitrary bytes, with U+FFFD for each maximal ill-formed part. -/
def decodeLossy (bytes : Bytes) : String :=
  (decode? bytes).getD (String.ofList (replaceFrom none bytes))

/-- Nothing is replaced in well-formed text. -/
theorem decodeLossy_encode (text : String) : decodeLossy (encode text) = text := by
  simp [decodeLossy, decode?_encode]

end Utf8

end ZipMount
