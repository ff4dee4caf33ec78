import ZipMount.Proofs.Deflate.Extension

/-!
# Deflate streams that are cut off

A decoder that runs out of input has decoded the beginning of what it would have decoded of the whole
stream, and nothing else (`decode_cutOff_prefix`).  Output is only ever added to, and what is read
before the input runs out is read alike from the whole stream.  The decoder counts down fuel, too, and
it has more of it for a longer input; running out of fuel is treated as running out of input.
-/

namespace ZipMount

namespace Deflate

/-- The output up to where a block ended, early or not. -/
def outputOf : Except Stop (BitCursor × Array UInt8) → Bytes
  | .ok (_, out) => out.toList
  | .error (_, out) => out.toList

/-! ## Output is only added to -/

/-- Another byte is added to the output. -/
lemma prefix_push (out : Array UInt8) (b : UInt8) : out.toList <+: (out.push b).toList := by
  rw [Array.toList_push]
  exact List.prefix_append _ _

/-- A copy is added to the output. -/
lemma prefix_copyBack (distance length : Nat) (out : Array UInt8) :
    out.toList <+: (copyBack distance length out).toList := by
  induction length generalizing out with
  | zero => exact List.prefix_rfl
  | succ length ih => exact (prefix_push out _).trans (ih _)

/-- Items are added to the output. -/
lemma prefix_items (codes : Codes) (fuel : Nat) (c : BitCursor) (out : Array UInt8) :
    out.toList <+: outputOf (items codes fuel c out) := by
  induction fuel generalizing c out with
  | zero => exact List.prefix_rfl
  | succ fuel ih =>
    rw [items]
    rcases item codes c with halt | ⟨b | ⟨length, distance⟩ | _, c'⟩
    · exact List.prefix_rfl
    · exact (prefix_push out b).trans (ih c' _)
    · exact (prefix_copyBack distance length out).trans (ih c' _)
    · exact List.prefix_rfl

/-- A stored block is added to the output. -/
lemma prefix_storedBlock (c : BitCursor) (out : Array UInt8) :
    out.toList <+: outputOf (storedBlock c out) := by
  unfold storedBlock
  rcases storedLength c with halt | ⟨length, c'⟩
  · exact List.prefix_rfl
  · dsimp only
    split
    · exact ⟨c'.rest.take length, by simp [outputOf]⟩
    · exact ⟨c'.rest.take length, by simp [outputOf]⟩

/-- A block is added to the output. -/
lemma prefix_blockBody (fuel kind : Nat) (c : BitCursor) (out : Array UInt8) :
    out.toList <+: outputOf (blockBody fuel kind c out) := by
  unfold blockBody
  split
  · exact prefix_storedBlock c out
  · exact prefix_items fixedCodes fuel c out
  · rcases describedCodes c with halt | ⟨codes, c'⟩
    · exact List.prefix_rfl
    · exact prefix_items codes fuel c' out
  · exact List.prefix_rfl

/-- Blocks are added to the output, unless there is damage. -/
lemma prefix_blocks {limit fuel : Nat} {c : BitCursor} {out : Array UInt8}
    (h : blocks limit fuel c out ≠ .corrupt) : out.toList <+: (blocks limit fuel c out).output := by
  induction fuel generalizing c out with
  | zero => exact List.prefix_rfl
  | succ fuel ih =>
    rw [blocks] at h ⊢
    rcases hhead : blockHeader c with halt | ⟨⟨last, kind⟩, c₁⟩
    · rw [hhead] at h
      cases halt with
      | starved => exact List.prefix_rfl
      | corrupt => exact absurd rfl h
    · rw [hhead] at h
      have hbody := prefix_blockBody limit kind c₁ out
      dsimp only at h ⊢
      rcases hblock : blockBody limit kind c₁ out with ⟨halt, out'⟩ | ⟨c₂, out'⟩
      · rw [hblock] at h hbody
        cases halt with
        | starved => exact hbody
        | corrupt => exact absurd rfl h
      · rw [hblock] at h hbody
        cases last with
        | true => exact hbody
        | false => exact hbody.trans (ih h)

/-! ## What is decoded before the input runs out -/

/-- Items that are read before the input runs out are read of a longer input, too. -/
lemma items_starved {codes : Codes} {fuel fuel' : Nat} {c : BitCursor} {out out' : Array UInt8}
    (more : Bytes) (hfuel : fuel ≤ fuel') (h : items codes fuel c out = .error (.starved, out')) :
    out'.toList <+: outputOf (items codes fuel' (c.extend more) out) := by
  induction fuel generalizing fuel' c out with
  | zero =>
    cases h
    exact prefix_items codes fuel' _ _
  | succ fuel ih =>
    obtain ⟨fuel', rfl⟩ : ∃ k, fuel' = k + 1 := ⟨fuel' - 1, by omega⟩
    have hle : fuel ≤ fuel' := Nat.le_of_succ_le_succ hfuel
    rw [items] at h
    rcases hitem : item codes c with halt | ⟨i, c'⟩
    · rw [hitem] at h
      cases h
      exact prefix_items codes (fuel' + 1) _ _
    · rw [hitem] at h
      rw [items, (steady_closed.item codes).of_ok more hitem]
      rcases i with b | ⟨length, distance⟩ | _
      · exact ih hle h
      · exact ih hle h
      · cases h

/-- The bytes of a stored block that are there are among those of a longer input. -/
lemma storedBlock_starved {c : BitCursor} {out out' : Array UInt8} (more : Bytes)
    (h : storedBlock c out = .error (.starved, out')) :
    out'.toList <+: outputOf (storedBlock (c.extend more) out) := by
  rcases hlen : storedLength c with halt | ⟨length, c'⟩
  · have hout : out' = out := by
      simp only [storedBlock, hlen] at h
      cases h
      rfl
    rw [hout]
    exact prefix_storedBlock _ out
  · have hread := steady_closed.storedLength.of_ok more hlen
    have hfront : c'.rest.take length <+: (c'.rest ++ more).take length :=
      (List.prefix_append c'.rest more).take length
    have hout : out' = out ++ (c'.rest.take length).toArray := by
      simp only [storedBlock, hlen] at h
      split at h
      · cases h
      · cases h
        rfl
    have hwhole : outputOf (storedBlock (c.extend more) out) =
        out.toList ++ (c'.rest ++ more).take length := by
      rw [storedBlock, hread]
      dsimp only [BitCursor.extend]
      split <;> simp [outputOf]
    rw [hout, hwhole, Array.toList_append]
    exact (List.prefix_append_right_inj out.toList).mpr hfront

/-- What a block gives before the input runs out, it gives of a longer input, too. -/
lemma blockBody_starved {fuel fuel' kind : Nat} {c : BitCursor} {out out' : Array UInt8}
    (more : Bytes) (hfuel : fuel ≤ fuel')
    (h : blockBody fuel kind c out = .error (.starved, out')) :
    out'.toList <+: outputOf (blockBody fuel' kind (c.extend more) out) := by
  unfold blockBody at h
  split at h
  · exact storedBlock_starved more h
  · exact items_starved more hfuel h
  · rcases hcodes : describedCodes c with halt | ⟨codes, c'⟩
    · rw [hcodes] at h
      cases h
      exact prefix_blockBody fuel' 2 _ _
    · rw [hcodes] at h
      simp only [blockBody, steady_closed.describedCodes.of_ok more hcodes]
      exact items_starved more hfuel h
  · cases h

/-- What blocks give before the input runs out is the beginning of what they give of a longer input,
if that shows no damage. -/
lemma blocks_cutOff {limit limit' fuel fuel' : Nat} {c : BitCursor} {out : Array UInt8}
    {output : Bytes} (more : Bytes) (hlimit : limit ≤ limit') (hfuel : fuel ≤ fuel')
    (h : blocks limit fuel c out = .cutOff output)
    (hwhole : blocks limit' fuel' (c.extend more) out ≠ .corrupt) :
    output <+: (blocks limit' fuel' (c.extend more) out).output := by
  induction fuel generalizing fuel' c out with
  | zero =>
    cases h
    exact prefix_blocks hwhole
  | succ fuel ih =>
    obtain ⟨fuel', rfl⟩ : ∃ k, fuel' = k + 1 := ⟨fuel' - 1, by omega⟩
    rw [blocks] at h
    rcases hhead : blockHeader c with halt | ⟨⟨last, kind⟩, c₁⟩
    · rw [hhead] at h
      rcases halt with _ | _
      · cases h
        exact prefix_blocks hwhole
      · cases h
    · rw [hhead] at h
      rw [blocks, steady_closed.blockHeader.of_ok more hhead] at hwhole ⊢
      dsimp only at h hwhole ⊢
      rcases hbody : blockBody limit kind c₁ out with ⟨halt, out₁⟩ | ⟨c₂, out₁⟩
      · rw [hbody] at h
        rcases halt with _ | _
        · cases h
          -- The block goes on in the longer input, and is followed by more blocks or by the end.
          have hprefix := blockBody_starved more hlimit hbody
          rcases hbody' : blockBody limit' kind (c₁.extend more) out with
            ⟨halt', out₂⟩ | ⟨c₂, out₂⟩
          · rw [hbody'] at hwhole hprefix
            cases halt' with
            | starved => exact hprefix
            | corrupt => exact absurd rfl hwhole
          · rw [hbody'] at hwhole hprefix
            cases last with
            | true => exact hprefix
            | false => exact hprefix.trans (prefix_blocks hwhole)
        · cases h
      · have hsettled : Settled (blockBody limit kind c₁ out) := by
          intro out' heq
          rw [hbody] at heq
          cases heq
        rw [hbody] at h
        rw [blockBody_extend more hlimit hsettled, hbody] at hwhole ⊢
        cases last with
        | true => cases h
        | false => exact ih (Nat.le_of_succ_le_succ hfuel) h hwhole

/-- What can be decoded of a stream that is cut off is the beginning of what can be decoded of a longer
part of it, up to a damaged spot. -/
theorem decode_cutOff_prefix {input more output : Bytes} (h : decode input = .cutOff output)
    (hwhole : decode (input ++ more) ≠ .corrupt) : output <+: (decode (input ++ more)).output := by
  have hunread : (BitCursor.start input).unread + 1 ≤
      (BitCursor.start (input ++ more)).unread + 1 := by
    simp only [BitCursor.unread, BitCursor.start, List.length_append]
    omega
  exact blocks_cutOff more hunread hunread h hwhole

/-- A stream that is complete with more bytes is not damaged without them. -/
lemma decode_ne_corrupt {input more output rest : Bytes}
    (hwhole : decode (input ++ more) = .complete output rest) : decode input ≠ .corrupt := by
  intro h
  have hextend : decode (input ++ more) = (decode input).extend more := by
    apply decode_extend
    intro output' heq
    rw [h] at heq
    cases heq
  rw [h, hwhole] at hextend
  cases hextend

end Deflate

end ZipMount
