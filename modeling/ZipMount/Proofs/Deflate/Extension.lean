import Mathlib
import ZipMount.Deflate.Decode

/-!
# Deflate streams delimit themselves

A deflate stream says where it ends.  A decoder that has reached the end, or has found the stream
damaged, therefore does not depend on the bytes that follow: `decode_extend` says that decoding a
longer input has the same outcome and leaves the added bytes, unless the input has run out.  What a
decoder leaves is a suffix of what it was given (`decode_suffix`).

Both are properties of a `BitReader` that hold of `bit`, `align` and `wholeField` and that
sequencing keeps, so they hold of all readers of the decoder; `Closed` says so once for every such
property.  Blocks also carry output and fuel.  There the statements are that more fuel and more
input change nothing once a result is settled, and that blocks leave a suffix.
-/

namespace ZipMount

namespace Deflate

/-! ## Properties that sequencing keeps -/

/-- A property of bit readers that holds of the elementary ones and that sequencing keeps. -/
structure Closed (P : {α : Type} → BitReader α → Prop) : Prop where
  pure : ∀ {α : Type} (a : α), P (Pure.pure a : BitReader α)
  corrupt : ∀ {α : Type}, P (Deflate.corrupt : BitReader α)
  bind : ∀ {α β : Type} {r : BitReader α} {f : α → BitReader β}, P r → (∀ a, P (f a)) → P (r >>= f)
  bit : P Deflate.bit
  align : P Deflate.align
  wholeField : ∀ k, P (Deflate.wholeField k)

namespace Closed

variable {P : {α : Type} → BitReader α → Prop}

/-- Choosing between readers keeps the property. -/
lemma ite {α : Type} {p : Prop} [Decidable p] {r r' : BitReader α} (hr : P r) (hr' : P r') :
    P (if p then r else r') := by
  split
  · exact hr
  · exact hr'

/-- Reading a number bit by bit has the property. -/
lemma bits (hP : Closed P) (n : Nat) : P (Deflate.bits n) := by
  induction n with
  | zero => exact hP.pure 0
  | succ n ih => exact hP.bind hP.bit fun _ => hP.bind ih fun _ => hP.pure _

/-- Decoding a symbol has the property. -/
lemma decode (hP : Closed P) (t : CodeTree) : P t.decode := by
  induction t with
  | empty => exact hP.corrupt
  | leaf symbol => exact hP.pure symbol
  | node zero one ihzero ihone => exact hP.bind hP.bit fun b => ite ihone ihzero

/-- Reading a number of a range has the property. -/
lemma ranged (hP : Closed P) (ranges : Array (Nat × Nat)) (symbol : Nat) :
    P (Deflate.ranged ranges symbol) := by
  unfold Deflate.ranged
  split
  · exact hP.corrupt
  · exact hP.bind (hP.bits _) fun _ => hP.pure _

/-- Reading an item has the property. -/
lemma item (hP : Closed P) (codes : Codes) : P (Deflate.item codes) := by
  refine hP.bind (hP.decode codes.literals) fun symbol => ?_
  refine ite (hP.pure _) (ite (hP.pure _) ?_)
  refine hP.bind (hP.ranged lengthRanges _) fun length => ?_
  refine hP.bind (hP.decode codes.distances) fun symbol' => ?_
  exact hP.bind (hP.ranged distanceRanges symbol') fun _ => hP.pure _

/-- Reading numbers of three bits has the property. -/
lemma triples (hP : Closed P) (n : Nat) : P (Deflate.triples n) := by
  induction n with
  | zero => exact hP.pure []
  | succ n ih => exact hP.bind (hP.bits 3) fun _ => hP.bind ih fun _ => hP.pure _

/-- Reading code lengths has the property. -/
lemma codeLengths (hP : Closed P) (tree : CodeTree) (count fuel : Nat) (lengths : Array Nat) :
    P (Deflate.codeLengths tree count fuel lengths) := by
  induction fuel generalizing lengths with
  | zero => exact ite (hP.pure _) hP.corrupt
  | succ fuel ih =>
    refine ite (ite (hP.pure _) hP.corrupt) ?_
    refine hP.bind (hP.decode tree) fun symbol => ?_
    refine ite (ih _) (ite ?_ (ite ?_ ?_))
    · split
      · exact hP.corrupt
      · exact hP.bind (hP.bits 2) fun _ => ih _
    · exact hP.bind (hP.bits 3) fun _ => ih _
    · exact hP.bind (hP.bits 7) fun _ => ih _

/-- Reading the codes of a block has the property. -/
lemma describedCodes (hP : Closed P) : P Deflate.describedCodes := by
  refine hP.bind (hP.bits 5) fun literals => hP.bind (hP.bits 5) fun distances => ?_
  refine hP.bind (hP.bits 4) fun lengths => ite hP.corrupt ?_
  refine hP.bind (hP.triples _) fun written => ?_
  dsimp only
  split
  · exact hP.corrupt
  · refine hP.bind (hP.codeLengths _ _ _ _) fun lengths => ?_
    split
    · exact hP.pure _
    · exact hP.corrupt

/-- Reading the length of a stored block has the property. -/
lemma storedLength (hP : Closed P) : P Deflate.storedLength := by
  refine hP.bind hP.align fun _ => hP.bind (hP.wholeField 2) fun _ => ?_
  exact hP.bind (hP.wholeField 2) fun _ => ite (hP.pure _) hP.corrupt

/-- Reading the header of a block has the property. -/
lemma blockHeader (hP : Closed P) : P Deflate.blockHeader :=
  hP.bind hP.bit fun _ => hP.bind (hP.bits 2) fun _ => hP.pure _

end Closed

/-! ## Readers do not depend on what follows -/

/-- The place with further bytes after the bit stream. -/
def BitCursor.extend (c : BitCursor) (more : Bytes) : BitCursor :=
  ⟨c.loose, c.rest ++ more⟩

/-- A reader whose result, unless it runs out of bits, is the same whatever bytes come after. -/
def Steady {α : Type} (r : BitReader α) : Prop :=
  ∀ (c : BitCursor) (more : Bytes), r c ≠ .error .starved →
    r (c.extend more) = (r c).map (Prod.map id fun c' => c'.extend more)

/-- A steady reader that succeeds leaves the added bytes. -/
lemma Steady.of_ok {α : Type} {r : BitReader α} (hr : Steady r) {c c' : BitCursor} {a : α}
    (more : Bytes) (h : r c = .ok (a, c')) : r (c.extend more) = .ok (a, c'.extend more) := by
  rw [hr c more (by rw [h]; exact fun heq => by cases heq), h]
  rfl

/-- A steady reader that fails without running out of bits fails alike with more of them. -/
lemma Steady.of_error {α : Type} {r : BitReader α} (hr : Steady r) {c : BitCursor} {halt : Halt}
    (more : Bytes) (hne : halt ≠ .starved) (h : r c = .error halt) :
    r (c.extend more) = .error halt := by
  rw [hr c more (by rw [h]; exact fun heq => hne (by cases heq; rfl)), h]
  rfl

/-- Steady readers one after the other are steady. -/
lemma Steady.bind {α β : Type} {r : BitReader α} {f : α → BitReader β} (hr : Steady r)
    (hf : ∀ a, Steady (f a)) : Steady (r >>= f) := by
  intro c more hne
  change Except.bind (r c) _ ≠ _ at hne
  change Except.bind (r (c.extend more)) _ = Except.map _ (Except.bind (r c) _)
  cases hc : r c with
  | error halt =>
    rw [hc] at hne
    have hhalt : halt ≠ .starved := by
      rintro rfl
      exact hne rfl
    rw [hr.of_error more hhalt hc]
    rfl
  | ok p =>
    obtain ⟨a, c'⟩ := p
    rw [hc] at hne
    rw [hr.of_ok more hc]
    exact hf a c' more hne

/-- Reading a bit is steady. -/
lemma steady_bit : Steady bit := by
  rintro ⟨loose, rest⟩ more hne
  cases loose with
  | cons b loose => rfl
  | nil =>
    cases rest with
    | cons byte rest => rfl
    | nil => exact absurd rfl hne

/-- Reading whole bytes is steady. -/
lemma steady_wholeField (k : Nat) : Steady (wholeField k) := by
  rintro ⟨loose, rest⟩ more hne
  have hk : k ≤ rest.length := by
    by_contra hlt
    apply hne
    have hshort : min k rest.length ≠ k := by omega
    simp [wholeField, hshort]
  have hlen : (rest.take k).length = k := by
    rw [List.length_take]
    omega
  have htake : (rest ++ more).take k = rest.take k := List.take_append_of_le_length hk
  have hdrop : (rest ++ more).drop k = rest.drop k ++ more := List.drop_append_of_le_length hk
  simp [wholeField, BitCursor.extend, htake, hdrop, hlen, Except.map]

/-- All readers of the decoder are steady. -/
lemma steady_closed : Closed Steady where
  pure _ := fun _ _ _ => rfl
  corrupt := fun _ _ _ => rfl
  bind := Steady.bind
  bit := steady_bit
  align := fun _ _ _ => rfl
  wholeField := steady_wholeField

/-! ## Readers move forward -/

/-- A relation between places of a bit stream that holds along every elementary step. -/
structure Trail (R : BitCursor → BitCursor → Prop) : Prop where
  refl : ∀ c, R c c
  trans : ∀ {c c' c'' : BitCursor}, R c c' → R c' c'' → R c c''
  bit : ∀ {c c' : BitCursor} {b : Bool}, Deflate.bit c = .ok (b, c') → R c c'
  /-- Passing over the unread bits of the current byte and over whole bytes. -/
  drop : ∀ (c : BitCursor) (k : Nat), R c ⟨[], c.rest.drop k⟩

/-- A reader that leads from every place to one that is related to it. -/
def Along (R : BitCursor → BitCursor → Prop) {α : Type} (r : BitReader α) : Prop :=
  ∀ (c c' : BitCursor) (a : α), r c = .ok (a, c') → R c c'

/-- A relation that holds along the elementary steps holds along all readers of the decoder. -/
lemma Trail.closed {R : BitCursor → BitCursor → Prop} (hR : Trail R) : Closed (Along R) where
  pure _ := by
    intro c c' a h
    cases h
    exact hR.refl c
  corrupt := by
    intro α c c' a h
    cases h
  bind := by
    intro α β r f hr hf c c'' b h
    change Except.bind (r c) _ = _ at h
    cases hc : r c with
    | error halt =>
      rw [hc] at h
      cases h
    | ok p =>
      obtain ⟨a, c'⟩ := p
      rw [hc] at h
      exact hR.trans (hr c c' a hc) (hf a c' c'' b h)
  bit := fun _ _ _ h => hR.bit h
  align := by
    intro c c' a h
    cases h
    exact hR.drop c 0
  wholeField := by
    intro k c c' n h
    simp only [Deflate.wholeField] at h
    split at h
    · cases h
      exact hR.drop c k
    · cases h

/-- A reader that leaves a suffix of the bytes it is given. -/
def Forward {α : Type} (r : BitReader α) : Prop :=
  ∀ (c c' : BitCursor) (a : α), r c = .ok (a, c') → c'.rest <:+ c.rest

/-- Along every step, a suffix of the bytes is left. -/
lemma suffix_trail : Trail fun c c' => c'.rest <:+ c.rest where
  refl c := List.suffix_rfl
  trans h h' := h'.trans h
  bit := by
    rintro ⟨loose, rest⟩ c' b h
    cases loose with
    | cons b' loose =>
      cases h
      exact List.suffix_rfl
    | nil =>
      cases rest with
      | cons byte rest =>
        cases h
        exact List.suffix_cons byte rest
      | nil => cases h
  drop c k := List.drop_suffix k c.rest

/-- All readers of the decoder move forward. -/
lemma forward_closed : Closed Forward := suffix_trail.closed

/-! ## Blocks do not depend on what follows -/

/-- A result that does not come from the input running out. -/
def Settled (r : Except Stop (BitCursor × Array UInt8)) : Prop :=
  ∀ out, r ≠ .error (.starved, out)

/-- The result with further bytes after what has been read. -/
def extendResult (more : Bytes) (r : Except Stop (BitCursor × Array UInt8)) :
    Except Stop (BitCursor × Array UInt8) :=
  r.map (Prod.map (fun c => c.extend more) id)

/-- A settled run of items stays as it is with more fuel and more input. -/
lemma items_extend {codes : Codes} {fuel fuel' : Nat} {c : BitCursor} {out : Array UInt8}
    (more : Bytes) (hfuel : fuel ≤ fuel') (h : Settled (items codes fuel c out)) :
    items codes fuel' (c.extend more) out = extendResult more (items codes fuel c out) := by
  induction fuel generalizing fuel' c out with
  | zero => exact absurd rfl (h out)
  | succ fuel ih =>
    obtain ⟨fuel', rfl⟩ : ∃ k, fuel' = k + 1 := ⟨fuel' - 1, by omega⟩
    have hle : fuel ≤ fuel' := Nat.le_of_succ_le_succ hfuel
    rw [items] at h ⊢
    cases hitem : item codes c with
    | error halt =>
      rw [hitem] at h
      have hne : halt ≠ .starved := by
        rintro rfl
        exact h out rfl
      rw [(steady_closed.item codes).of_error more hne hitem, items, hitem]
      rfl
    | ok p =>
      obtain ⟨i, c'⟩ := p
      rw [hitem] at h
      rw [(steady_closed.item codes).of_ok more hitem, items, hitem]
      cases i with
      | literal b => exact ih hle h
      | copy length distance => exact ih hle h
      | endOfBlock => rfl

/-- A settled stored block stays as it is with more input. -/
lemma storedBlock_extend {c : BitCursor} {out : Array UInt8} (more : Bytes)
    (h : Settled (storedBlock c out)) :
    storedBlock (c.extend more) out = extendResult more (storedBlock c out) := by
  unfold storedBlock at h ⊢
  cases hlen : storedLength c with
  | error halt =>
    rw [hlen] at h
    have hne : halt ≠ .starved := by
      rintro rfl
      exact h out rfl
    rw [steady_closed.storedLength.of_error more hne hlen]
    rfl
  | ok p =>
    obtain ⟨length, c'⟩ := p
    rw [hlen] at h
    rw [steady_closed.storedLength.of_ok more hlen]
    have hle : length ≤ c'.rest.length := by
      by_contra hlt
      have hshort : (c'.rest.take length).length ≠ length := by
        rw [List.length_take]
        omega
      dsimp only at h
      rw [if_neg hshort] at h
      exact h _ rfl
    have hfull : (c'.rest.take length).length = length := by
      rw [List.length_take]
      omega
    have htake : (c'.rest ++ more).take length = c'.rest.take length :=
      List.take_append_of_le_length hle
    have hdrop : (c'.rest ++ more).drop length = c'.rest.drop length ++ more :=
      List.drop_append_of_le_length hle
    simp only [BitCursor.extend, htake, hdrop]
    rw [if_pos hfull, if_pos hfull]
    rfl

/-- A settled block stays as it is with more fuel and more input. -/
lemma blockBody_extend {fuel fuel' kind : Nat} {c : BitCursor} {out : Array UInt8} (more : Bytes)
    (hfuel : fuel ≤ fuel') (h : Settled (blockBody fuel kind c out)) :
    blockBody fuel' kind (c.extend more) out = extendResult more (blockBody fuel kind c out) := by
  unfold blockBody at h ⊢
  split at h
  · exact storedBlock_extend more h
  · exact items_extend more hfuel h
  · cases hcodes : describedCodes c with
    | error halt =>
      rw [hcodes] at h
      have hne : halt ≠ .starved := by
        rintro rfl
        exact h out rfl
      rw [steady_closed.describedCodes.of_error more hne hcodes]
      rfl
    | ok p =>
      obtain ⟨codes, c'⟩ := p
      rw [hcodes] at h
      rw [steady_closed.describedCodes.of_ok more hcodes]
      exact items_extend more hfuel h
  · rfl

/-- The output of a decoder. -/
def Outcome.output : Outcome → Bytes
  | .complete output _ => output
  | .cutOff output => output
  | .corrupt => []

/-- The outcome with further bytes after the stream. -/
def Outcome.extend (more : Bytes) : Outcome → Outcome
  | .complete output rest => .complete output (rest ++ more)
  | o => o

/-- Blocks that do not run out of input stay as they are with more fuel and more input. -/
lemma blocks_extend {limit limit' fuel fuel' : Nat} {c : BitCursor} {out : Array UInt8}
    (more : Bytes) (hlimit : limit ≤ limit') (hfuel : fuel ≤ fuel')
    (h : ∀ output, blocks limit fuel c out ≠ .cutOff output) :
    blocks limit' fuel' (c.extend more) out = (blocks limit fuel c out).extend more := by
  induction fuel generalizing fuel' c out with
  | zero => exact absurd rfl (h out.toList)
  | succ fuel ih =>
    obtain ⟨fuel', rfl⟩ : ∃ k, fuel' = k + 1 := ⟨fuel' - 1, by omega⟩
    have hle : fuel ≤ fuel' := Nat.le_of_succ_le_succ hfuel
    rw [blocks] at h ⊢
    cases hhead : blockHeader c with
    | error halt =>
      rw [hhead] at h
      have hne : halt ≠ .starved := by
        rintro rfl
        exact h _ rfl
      rw [steady_closed.blockHeader.of_error more hne hhead, blocks, hhead]
      cases halt with
      | starved => exact absurd rfl hne
      | corrupt => rfl
    | ok p =>
      obtain ⟨⟨last, kind⟩, c'⟩ := p
      rw [hhead] at h
      rw [steady_closed.blockHeader.of_ok more hhead, blocks, hhead]
      dsimp only at h ⊢
      have hsettled : Settled (blockBody limit kind c' out) := by
        intro out' heq
        rw [heq] at h
        exact h _ rfl
      rw [blockBody_extend more hlimit hsettled]
      cases hbody : blockBody limit kind c' out with
      | error stop =>
        obtain ⟨halt, out'⟩ := stop
        cases halt with
        | starved => exact absurd hbody (hsettled out')
        | corrupt => rfl
      | ok q =>
        obtain ⟨c'', out'⟩ := q
        rw [hbody] at h
        cases last with
        | true => rfl
        | false => exact ih hle h

/-- Decoding that does not run out of input has the same outcome on a longer input, and leaves the
added bytes. -/
theorem decode_extend {input : Bytes} (more : Bytes) (h : ∀ output, decode input ≠ .cutOff output) :
    decode (input ++ more) = (decode input).extend more := by
  have hunread : (BitCursor.start input).unread + 1 ≤
      (BitCursor.start (input ++ more)).unread + 1 := by
    simp only [BitCursor.unread, BitCursor.start, List.length_append]
    omega
  exact blocks_extend more hunread hunread h

/-- A complete stream is decoded the same whatever bytes follow it. -/
theorem decode_append {input output rest : Bytes} (h : decode input = .complete output rest)
    (more : Bytes) : decode (input ++ more) = .complete output (rest ++ more) := by
  have hext : decode (input ++ more) = (decode input).extend more :=
    decode_extend more fun output' heq => by
      rw [h] at heq
      cases heq
  rw [h] at hext
  exact hext

/-! ## Blocks move forward -/

/-- A relation that holds along every step holds along a run of items. -/
lemma Trail.items {R : BitCursor → BitCursor → Prop} (hR : Trail R) {codes : Codes} {fuel : Nat}
    {c c' : BitCursor} {out out' : Array UInt8} (h : items codes fuel c out = .ok (c', out')) :
    R c c' := by
  induction fuel generalizing c out with
  | zero => cases h
  | succ fuel ih =>
    rw [Deflate.items] at h
    cases hitem : item codes c with
    | error halt =>
      rw [hitem] at h
      cases h
    | ok p =>
      obtain ⟨i, c₁⟩ := p
      rw [hitem] at h
      have hstep : R c c₁ := hR.closed.item codes c c₁ i hitem
      cases i with
      | literal b => exact hR.trans hstep (ih h)
      | copy length distance => exact hR.trans hstep (ih h)
      | endOfBlock =>
        cases h
        exact hstep

/-- A relation that holds along every step holds along a block. -/
lemma Trail.blockBody {R : BitCursor → BitCursor → Prop} (hR : Trail R) {fuel kind : Nat}
    {c c' : BitCursor} {out out' : Array UInt8} (h : blockBody fuel kind c out = .ok (c', out')) :
    R c c' := by
  unfold Deflate.blockBody at h
  split at h
  · unfold storedBlock at h
    split at h
    next => cases h
    next length c₁ hlen =>
      have hstep : R c c₁ := hR.closed.storedLength c c₁ length hlen
      dsimp only at h
      split at h
      · cases h
        exact hR.trans hstep (hR.drop c₁ length)
      · cases h
  · exact hR.items h
  · split at h
    next => cases h
    next codes c₁ hcodes =>
      exact hR.trans (hR.closed.describedCodes c c₁ codes hcodes) (hR.items h)
  · cases h

/-- Blocks leave a suffix of the bytes they are read from. -/
lemma blocks_suffix {limit fuel : Nat} {c : BitCursor} {out : Array UInt8} {output rest : Bytes}
    (h : blocks limit fuel c out = .complete output rest) : rest <:+ c.rest := by
  induction fuel generalizing c out with
  | zero => cases h
  | succ fuel ih =>
    rw [blocks] at h
    split at h
    next halt _ =>
      cases halt <;> cases h
    next last kind c₁ hhead =>
      have hstep : c₁.rest <:+ c.rest := forward_closed.blockHeader c c₁ (last, kind) hhead
      split at h
      next stop _ =>
        obtain ⟨halt, out'⟩ := stop
        cases halt <;> cases h
      next c₂ out₂ hbody =>
        have hbody' : c₂.rest <:+ c.rest := (suffix_trail.blockBody hbody).trans hstep
        cases last with
        | true =>
          cases h
          exact hbody'
        | false => exact (ih h).trans hbody'

/-- What is left after a complete stream is a suffix of the input. -/
theorem decode_suffix {input output rest : Bytes} (h : decode input = .complete output rest) :
    rest <:+ input :=
  blocks_suffix h

end Deflate

end ZipMount
