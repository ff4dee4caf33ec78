import ZipMount.Proofs.Layout.Part

/-!
# Honest containers

An `HonestContainer` is what a careful writer produces: honest parts one after the other, and then
nothing, or the directory.  It carries the proof that its parts are honest, so whatever is said of
honest parts holds of every part that is met on the way through it.

`threeParts` is such a container with one part of each kind: stored with its size in the header,
deflated with its size in a descriptor, and not to be read.
-/

namespace ZipMount

/-- Honest parts one after the other, and then nothing, or bytes that begin with a word that ends
the run of entries. -/
structure HonestContainer [Inflater] where
  parts : List Part
  tail : Bytes
  honest : ∀ p ∈ parts, p.Honest
  tail_ends : tail = [] ∨ ∃ word ∈ LocalHeader.endSignatures, ∃ more,
    tail = Bytes.le 4 word ++ more

namespace HonestContainer

variable [Inflater]

/-- The bytes from the part with the given index on. -/
def bytesFrom (c : HonestContainer) (index : Nat) : Bytes :=
  (c.parts.drop index).flatMap Part.encode ++ c.tail

/-- The bytes of a container. -/
def encode (c : HonestContainer) : Bytes := c.bytesFrom 0

variable {c : HonestContainer} {p : Part} {index : Nat}

/-- A part stands in front of the parts after it. -/
lemma bytesFrom_of_getElem? (hp : c.parts[index]? = some p) :
    c.bytesFrom index = p.encode ++ c.bytesFrom (index + 1) := by
  obtain ⟨hlt, rfl⟩ := List.getElem?_eq_some_iff.mp hp
  rw [bytesFrom, List.drop_eq_getElem_cons hlt, List.flatMap_cons, List.append_assoc, bytesFrom]

/-- Behind all parts is the tail. -/
lemma bytesFrom_of_none (hp : c.parts[index]? = none) : c.bytesFrom index = c.tail := by
  rw [bytesFrom, List.drop_eq_nil_of_le (List.getElem?_eq_none_iff.mp hp), List.flatMap_nil,
    List.nil_append]

/-- The parts of an honest container are honest. -/
lemma honest_of_getElem? (hp : c.parts[index]? = some p) : p.Honest :=
  c.honest p (List.mem_of_getElem? hp)

end HonestContainer

namespace Part

/-- A stored byte, its size and checksum in the header. -/
def stored : Part where
  header := ⟨20, 2048, 0, 0, 0, 0xA505DF1B, 1, 1, [97], []⟩
  payload := [1]
  trailer := none
  name := "a"
  uncompressed := 1
  compressed := 1
  data := [1]

/-- An empty deflate stream, its sizes and checksum in a descriptor without a signature. -/
def streamed : Part where
  header := ⟨20, 2056, 8, 0, 0, 0, 0, 0, [98], []⟩
  payload := [1, 0, 0, 0xFF, 0xFF]
  trailer := some ⟨⟨0, 5, 0⟩, false⟩
  name := "b"
  uncompressed := 0
  compressed := 0
  data := []

/-- Two encrypted bytes. -/
def encrypted : Part where
  header := ⟨20, 2049, 0, 0, 0, 0, 2, 2, [99], []⟩
  payload := [9, 9]
  trailer := none
  name := "c"
  uncompressed := 2
  compressed := 2
  data := []

/-- The stored byte is as its header says. -/
lemma honest_stored : stored.Honest := by
  have hf : stored.header.Fits := by constructor <;> decide
  exact {
    fits := hf
    names := by unfold LocalHeader.Names; decide
    sizes := LocalHeader.sizes_of_unmarked hf (by decide)
    trailer_iff := by decide
    trailer_fits := fun t ht => by cases ht
    payload_length := fun _ => rfl
    deflated := fun h _ => absurd rfl h
    decodes := fun _ => rfl
    data_length := fun _ => rfl
    data_crc32 := fun _ => by decide +kernel }

/-- The deflate stream is as its descriptor says. -/
lemma honest_streamed : streamed.Honest := by
  have hf : streamed.header.Fits := by constructor <;> decide
  have ht : Trailer.Fits .four ⟨⟨0, 5, 0⟩, false⟩ := ⟨by constructor <;> decide, by decide⟩
  exact {
    fits := hf
    names := by unfold LocalHeader.Names; decide
    sizes := LocalHeader.sizes_of_unmarked hf (by decide)
    trailer_iff := by decide
    trailer_fits := fun t heq => by cases heq; exact ht
    payload_length := fun h => by
      rcases h with h | h
      · cases h
      · exact absurd rfl h
    deflated := fun _ _ => by decide
    decodes := fun _ => by rfl
    data_length := fun _ => rfl
    data_crc32 := fun _ => by decide +kernel }

/-- The encrypted bytes are as many as their header says. -/
lemma honest_encrypted : encrypted.Honest := by
  have hf : encrypted.header.Fits := by constructor <;> decide
  exact {
    fits := hf
    names := by unfold LocalHeader.Names; decide
    sizes := LocalHeader.sizes_of_unmarked hf (by decide)
    trailer_iff := by decide
    trailer_fits := fun t ht => by cases ht
    payload_length := fun _ => rfl
    deflated := fun h _ => absurd rfl h
    decodes := fun h => absurd h (by decide)
    data_length := fun h => absurd h (by decide)
    data_crc32 := fun h => absurd h (by decide) }

end Part

/-- Three parts and the first word of an end record. -/
def HonestContainer.threeParts : HonestContainer where
  parts := [Part.stored, Part.streamed, Part.encrypted]
  tail := Bytes.le 4 0x06054b50
  honest := by
    intro p hp
    simp only [List.mem_cons, List.not_mem_nil, or_false] at hp
    rcases hp with rfl | rfl | rfl
    · exact Part.honest_stored
    · exact Part.honest_streamed
    · exact Part.honest_encrypted
  tail_ends := .inr ⟨0x06054b50, by decide, [], rfl⟩

end ZipMount
