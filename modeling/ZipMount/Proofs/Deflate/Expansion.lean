import ZipMount.Proofs.Deflate.Truncation

/-!
# How far a deflate stream expands

An item of a coded block takes at least one bit and stands for no more than 258 bytes, and a stored
block takes more than it gives.  So the output, together with 258 bytes for each unread bit, never
grows, and a decoder gives at most 2064 bytes for each byte of its input, whatever the input is
(`length_output_decode_le`).
-/

namespace ZipMount

namespace Deflate

/-! ## Items -/

/-- The results of a sequence satisfy a condition if its last reader sees to that where its first
one has given what it gives. -/
lemma Gives.bind_of {α β : Type} {p : α → Prop} {q : β → Prop} {r : BitReader α}
    {f : α → BitReader β} (hr : Gives p r) (hf : ∀ a, p a → Gives q (f a)) : Gives q (r >>= f) := by
  intro c c'' b h
  change Except.bind (r c) _ = _ at h
  cases hc : r c with
  | error halt =>
    rw [hc] at h
    cases h
  | ok p =>
    obtain ⟨a, c'⟩ := p
    rw [hc] at h
    exact hf a (hr c c' a hc) c' c'' b h

/-- A reader that reads nothing gives what it is given. -/
lemma gives_pure {α : Type} {q : α → Prop} {a : α} (h : q a) : Gives q (pure a : BitReader α) := by
  intro c c' b hb
  cases hb
  exact h

/-- A number of `n` bits. -/
lemma gives_bits (n : Nat) : Gives (· < 2 ^ n) (bits n) := by
  induction n with
  | zero => exact gives_pure Nat.one_pos
  | succ n ih =>
    refine .bind fun low => .bind_of ih fun high hhigh => gives_pure ?_
    have hlow : low.toNat ≤ 1 := Bool.toNat_le low
    rw [Nat.pow_succ]
    omega

/-- No length is greater than 258. -/
lemma gives_ranged_length (symbol : Nat) : Gives (· ≤ 258) (ranged lengthRanges symbol) := by
  have hranges : ∀ range ∈ lengthRanges.toList, range.1 + 2 ^ range.2 ≤ 259 := by decide
  unfold ranged
  split
  next => exact gives_corrupt
  next least extra hrange =>
    have hle : least + 2 ^ extra ≤ 259 :=
      hranges (least, extra) (Array.mem_toList_iff.mpr (Array.mem_of_getElem? hrange))
    exact .bind_of (gives_bits extra) fun n hn => gives_pure (by omega)

/-- The number of bytes that an item stands for. -/
def Item.width : Item → Nat
  | .literal _ => 1
  | .copy length _ => length
  | .endOfBlock => 0

/-- No item stands for more than 258 bytes. -/
lemma gives_item (codes : Codes) : Gives (fun i => i.width ≤ 258) (item codes) := by
  refine .bind fun symbol => ?_
  split
  · have hwidth : (Item.literal (UInt8.ofNat symbol)).width ≤ 258 :=
      Nat.succ_le_succ (Nat.zero_le _)
    exact gives_pure hwidth
  · split
    · exact gives_pure (Nat.zero_le _)
    · refine .bind_of (gives_ranged_length _) fun length hlength => ?_
      exact .bind fun symbol' => .bind fun distance => gives_pure hlength

/-- A copy adds as many bytes as it is long. -/
lemma size_copyBack (distance length : Nat) (out : Array UInt8) :
    (copyBack distance length out).size = out.size + length := by
  induction length generalizing out with
  | zero => rfl
  | succ length ih =>
    rw [copyBack, ih, Array.size_push]
    omega

/-! ## Blocks -/

/-- What comes of a block is worth no more than `n`, counting 258 bytes for each unread bit. -/
def Within (n : Nat) : Except Stop (BitCursor × Array UInt8) → Prop
  | .ok (c, out) => out.size + 258 * c.unread ≤ n
  | .error (_, out) => out.size ≤ n

/-- Whatever is within a bound is within a greater one. -/
lemma Within.mono {n n' : Nat} {r : Except Stop (BitCursor × Array UInt8)} (h : Within n r)
    (hle : n ≤ n') : Within n' r := by
  rcases r with ⟨halt, out⟩ | ⟨c, out⟩
  · exact Nat.le_trans h hle
  · exact Nat.le_trans h hle

/-- Items do not add more than the bits are worth that they take. -/
lemma within_items {codes : Codes} (hb : codes.Branching) (fuel : Nat) (c : BitCursor)
    (out : Array UInt8) : Within (out.size + 258 * c.unread) (items codes fuel c out) := by
  induction fuel generalizing c out with
  | zero => exact Nat.le_add_right _ _
  | succ fuel ih =>
    rw [items]
    rcases hitem : item codes c with halt | ⟨i, c'⟩
    · exact Nat.le_add_right _ _
    · have hspent : c'.unread < c.unread := spends_item hb c c' i hitem
      have hwidth : i.width ≤ 258 := gives_item codes c c' i hitem
      cases i with
      | literal b =>
        refine (ih c' (out.push b)).mono ?_
        rw [Array.size_push]
        omega
      | copy length distance =>
        have hlength : length ≤ 258 := hwidth
        refine (ih c' (copyBack distance length out)).mono ?_
        rw [size_copyBack]
        omega
      | endOfBlock =>
        show out.size + 258 * c'.unread ≤ out.size + 258 * c.unread
        omega

/-- A stored block does not add more than the bits are worth that it takes. -/
lemma within_storedBlock (c : BitCursor) (out : Array UInt8) :
    Within (out.size + 258 * c.unread) (storedBlock c out) := by
  unfold storedBlock
  rcases hlength : storedLength c with halt | ⟨length, c'⟩
  · exact Nat.le_add_right _ _
  · have hread : c'.unread ≤ c.unread := unread_trail.closed.storedLength c c' length hlength
    have hunread : 8 * c'.rest.length ≤ c'.unread := Nat.le_add_left _ _
    have hsize : (c'.rest.take length).toArray.size = min length c'.rest.length := by
      rw [List.size_toArray, List.length_take]
    dsimp only
    split
    · show (out ++ (c'.rest.take length).toArray).size +
        258 * (0 + 8 * (c'.rest.drop length).length) ≤ out.size + 258 * c.unread
      rw [Array.size_append, hsize, List.length_drop]
      omega
    · show (out ++ (c'.rest.take length).toArray).size ≤ out.size + 258 * c.unread
      rw [Array.size_append, hsize]
      omega

/-- A block does not add more than the bits are worth that it takes. -/
lemma within_blockBody (fuel kind : Nat) (c : BitCursor) (out : Array UInt8) :
    Within (out.size + 258 * c.unread) (blockBody fuel kind c out) := by
  unfold blockBody
  split
  · exact within_storedBlock c out
  · exact within_items branching_fixedCodes fuel c out
  · rcases hcodes : describedCodes c with halt | ⟨codes, c'⟩
    · exact Nat.le_add_right _ _
    · have hread : c'.unread ≤ c.unread := unread_trail.closed.describedCodes c c' codes hcodes
      refine (within_items (gives_describedCodes c c' codes hcodes) fuel c' out).mono ?_
      omega
  · exact Nat.le_add_right _ _

/-- Blocks do not add more than the bits are worth. -/
lemma length_output_blocks_le (limit fuel : Nat) (c : BitCursor) (out : Array UInt8) :
    (blocks limit fuel c out).output.length ≤ out.size + 258 * c.unread := by
  have hstop : ∀ halt (out' : Array UInt8),
      (Outcome.ofStop (halt, out')).output.length ≤ out'.size := by
    intro halt out'
    cases halt with
    | starved => exact Nat.le_of_eq Array.length_toList
    | corrupt => exact Nat.zero_le _
  induction fuel generalizing c out with
  | zero => exact (hstop .starved out).trans (Nat.le_add_right _ _)
  | succ fuel ih =>
    rw [blocks]
    rcases hhead : blockHeader c with halt | ⟨⟨last, kind⟩, c₁⟩
    · exact (hstop halt out).trans (Nat.le_add_right _ _)
    · have hread : c₁.unread < c.unread := spends_blockHeader c c₁ (last, kind) hhead
      have hbody := within_blockBody limit kind c₁ out
      dsimp only
      rcases hblock : blockBody limit kind c₁ out with ⟨halt, out'⟩ | ⟨c₂, out'⟩
      · rw [hblock] at hbody
        have hle : out'.size ≤ out.size + 258 * c₁.unread := hbody
        have hshort := hstop halt out'
        dsimp only
        omega
      · rw [hblock] at hbody
        have hle : out'.size + 258 * c₂.unread ≤ out.size + 258 * c₁.unread := hbody
        cases last with
        | true =>
          show out'.toList.length ≤ _
          rw [Array.length_toList]
          omega
        | false =>
          have hmore := ih c₂ out'
          show (blocks limit fuel c₂ out').output.length ≤ _
          omega

/-- A deflate stream expands to no more than 2064 bytes for each of its bytes. -/
theorem length_output_decode_le (input : Bytes) :
    (decode input).output.length ≤ 2064 * input.length := by
  have hle := length_output_blocks_le ((BitCursor.start input).unread + 1)
    ((BitCursor.start input).unread + 1) (BitCursor.start input) #[]
  have hunread : (BitCursor.start input).unread = 0 + 8 * input.length := rfl
  rw [hunread] at hle
  have hworth : 0 + 258 * (0 + 8 * input.length) = 2064 * input.length := by omega
  exact hle.trans (Nat.le_of_eq hworth)

end Deflate

end ZipMount
