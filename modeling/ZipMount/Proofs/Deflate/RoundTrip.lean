import ZipMount.Deflate.Encode
import ZipMount.Proofs.Inflater
import ZipMount.Proofs.Layout.Field

/-!
# What is encoded is decoded

`IsEncoder` is all that may be assumed of an encoder: the inflater at hand gives the data back and
stops right behind the stream, whatever follows.  Many encoders satisfy it, and which bytes they
choose is theirs.  `isEncoder_encode` says that the encoder by stored blocks is one for the standard
inflater.
-/

namespace ZipMount

namespace Deflate

/-- The inflater undoes the encoder and stops right behind its output. -/
def IsEncoder [Inflater] (deflate : Bytes → Bytes) : Prop :=
  ∀ data rest : Bytes, Inflater.inflow [deflate data ++ rest] = ⟨data, .ok rest⟩

/-- What an encoder gives is one complete stream. -/
lemma IsEncoder.inflates [Inflater] {deflate : Bytes → Bytes} (h : IsEncoder deflate)
    (data : Bytes) : Inflates (deflate data) data := by
  have hend := h data []
  rwa [List.append_nil] at hend

/-! ## Stored blocks -/

/-- The header of a stored block. -/
lemma blockHeader_encodeBlock (last : Bool) (rest : Bytes) :
    blockHeader ⟨[], UInt8.ofNat last.toNat :: rest⟩ =
      .ok ((last, 0), ⟨[false, false, false, false, false], rest⟩) := by
  cases last <;> rfl

/-- A number that fits its field is read from whole bytes. -/
lemma wholeField_le {k n : Nat} (h : n < 256 ^ k) (loose : List Bool) (rest : Bytes) :
    wholeField k ⟨loose, Bytes.le k n ++ rest⟩ = .ok (n, ⟨[], rest⟩) := by
  have hlen : (Bytes.le k n).length = k := Bytes.length_le k n
  have htake : (Bytes.le k n ++ rest).take k = Bytes.le k n := List.take_left' hlen
  have hdrop : (Bytes.le k n ++ rest).drop k = rest := List.drop_left' hlen
  unfold wholeField
  dsimp only
  rw [htake, hdrop, if_pos hlen, Bytes.value_le_of_lt h]

/-- The length of a stored block. -/
lemma storedLength_le {n : Nat} (hn : n ≤ maxStored) (loose : List Bool) (rest : Bytes) :
    storedLength ⟨loose, Bytes.le 2 n ++ (Bytes.le 2 (0xFFFF - n) ++ rest)⟩ =
      .ok (n, ⟨[], rest⟩) := by
  have hmax : n ≤ 0xFFFF := hn
  have hlength := wholeField_le (k := 2) (n := n) (by omega) []
    (Bytes.le 2 (0xFFFF - n) ++ rest)
  have hinverse := wholeField_le (k := 2) (n := 0xFFFF - n) (by omega) [] rest
  have hsum : n + (0xFFFF - n) = 0xFFFF := by omega
  unfold storedLength
  simp only [bind, StateT.bind, align, Except.bind, hlength, hinverse, hsum, if_true]
  rfl

/-- A stored block adds its data to the output. -/
lemma storedBlock_encode {data : Bytes} (hd : data.length ≤ maxStored) (loose : List Bool)
    (rest : Bytes) (out : Array UInt8) :
    storedBlock ⟨loose, Bytes.le 2 data.length ++
      (Bytes.le 2 (0xFFFF - data.length) ++ (data ++ rest))⟩ out =
      .ok (⟨[], rest⟩, out ++ data.toArray) := by
  unfold storedBlock
  rw [storedLength_le hd loose (data ++ rest)]
  dsimp only
  rw [List.take_left, if_pos rfl, List.drop_left]

/-- Encoded blocks are decoded to their data. -/
lemma blocks_encodeBlocks (limit : Nat) {fuel more : Nat} {data : Bytes} (hfuel : more < fuel)
    (hd : data.length ≤ (more + 1) * maxStored) (rest : Bytes) (out : Array UInt8) :
    blocks limit fuel ⟨[], encodeBlocks more data ++ rest⟩ out =
      .complete (out.toList ++ data) rest := by
  induction more generalizing fuel data out with
  | zero =>
    obtain ⟨fuel, rfl⟩ : ∃ k, fuel = k + 1 := ⟨fuel - 1, by omega⟩
    have hone : data.length ≤ maxStored := by omega
    have hbytes : encodeBlocks 0 data ++ rest = UInt8.ofNat true.toNat ::
        (Bytes.le 2 data.length ++ (Bytes.le 2 (0xFFFF - data.length) ++ (data ++ rest))) := by
      simp only [encodeBlocks, encodeBlock, List.cons_append, List.append_assoc]
    rw [hbytes, blocks, blockHeader_encodeBlock]
    simp only [blockBody, storedBlock_encode hone, if_true]
    simp only [Array.toList_append]
  | succ more ih =>
    obtain ⟨fuel, rfl⟩ : ∃ k, fuel = k + 1 := ⟨fuel - 1, by omega⟩
    have hone : (data.take maxStored).length ≤ maxStored := List.length_take_le _ _
    have hrest : (data.drop maxStored).length ≤ (more + 1) * maxStored := by
      rw [List.length_drop, Nat.sub_le_iff_le_add]
      calc data.length ≤ (more + 1 + 1) * maxStored := hd
        _ = (more + 1) * maxStored + maxStored := Nat.succ_mul _ _
    have hbytes : encodeBlocks (more + 1) data ++ rest = UInt8.ofNat false.toNat ::
        (Bytes.le 2 (data.take maxStored).length ++
          (Bytes.le 2 (0xFFFF - (data.take maxStored).length) ++
            (data.take maxStored ++ (encodeBlocks more (data.drop maxStored) ++ rest)))) := by
      simp only [encodeBlocks, encodeBlock, List.cons_append, List.append_assoc]
    rw [hbytes, blocks, blockHeader_encodeBlock]
    simp only [blockBody, storedBlock_encode hone, Bool.false_eq_true, if_false]
    rw [ih (by omega) hrest]
    simp only [Array.toList_append, List.append_assoc, List.take_append_drop]

/-- There are more bytes than blocks. -/
lemma lt_length_encodeBlocks (more : Nat) (data : Bytes) :
    more < (encodeBlocks more data).length := by
  induction more generalizing data with
  | zero => simp only [encodeBlocks, encodeBlock, List.length_cons, Nat.zero_lt_succ]
  | succ more ih =>
    have hrest := ih (data.drop maxStored)
    simp only [encodeBlocks, encodeBlock, List.cons_append, List.length_cons, List.length_append]
    omega

/-- Data that is written as stored blocks is decoded again. -/
theorem isEncoder_encode : IsEncoder encode := by
  intro data rest
  have hcount : data.length ≤ ((data.length - 1) / maxStored + 1) * maxStored := by
    have hmod := Nat.mod_lt (data.length - 1) (by decide : 0 < maxStored)
    have hdiv := Nat.div_add_mod (data.length - 1) maxStored
    rw [Nat.succ_mul, Nat.mul_comm]
    omega
  have hfuel : (data.length - 1) / maxStored <
      (BitCursor.start (encode data ++ rest)).unread + 1 := by
    have hlen := lt_length_encodeBlocks ((data.length - 1) / maxStored) data
    simp only [BitCursor.unread, BitCursor.start, encode, List.length_append, List.length_nil]
    omega
  have hblocks := blocks_encodeBlocks ((BitCursor.start (encode data ++ rest)).unread + 1)
    hfuel hcount rest #[]
  rw [List.nil_append] at hblocks
  refine Inflow.ofSlices_eq_iff.mpr ?_
  rw [List.flatten_singleton]
  exact hblocks

end Deflate

end ZipMount
