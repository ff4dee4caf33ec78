import ZipMount.Proofs.Deflate.Extension

/-!
# Deflate streams stand on their own

Bytes may be added behind a complete deflate stream.  Here is the converse: the bytes that a decoder
leaves may be taken away.  What the decoder has used is then a complete stream by itself
(`decode_front`), so a payload that is delimited only by its decoder is a piece of the container
that can be described without the rest of it.

That a reader does not look past what it leaves is one more property that sequencing keeps.  The
decoder also counts down fuel, and it is given less of it for a shorter input.  The fuel is never
used up: every block and every item takes at least one bit (`blocks_fuel`).
-/

namespace ZipMount

namespace Deflate

/-! ## Readers do not look past what they leave -/

/-- A reader that moves forward and that, when it leaves all of the bytes that were added, reads the
same without them. -/
structure Detached {α : Type} (r : BitReader α) : Prop where
  forward : Forward r
  retract : ∀ (c : BitCursor) (more : Bytes) (a : α) (c' : BitCursor),
    r (c.extend more) = .ok (a, c') → more <:+ c'.rest →
      ∃ c₁ : BitCursor, c' = c₁.extend more ∧ r c = .ok (a, c₁)

/-- Detached readers one after the other are detached. -/
lemma Detached.bind {α β : Type} {r : BitReader α} {f : α → BitReader β} (hr : Detached r)
    (hf : ∀ a, Detached (f a)) : Detached (r >>= f) where
  forward := forward_closed.bind hr.forward fun a => (hf a).forward
  retract := by
    intro c more b c'' h hmore
    change Except.bind (r (c.extend more)) _ = _ at h
    cases hc : r (c.extend more) with
    | error halt =>
      rw [hc] at h
      cases h
    | ok p =>
      obtain ⟨a, c'⟩ := p
      rw [hc] at h
      have hstep : f a c' = .ok (b, c'') := h
      have hmore' : more <:+ c'.rest := hmore.trans ((hf a).forward c' c'' b hstep)
      obtain ⟨c₁, rfl, hc₁⟩ := hr.retract c more a c' hc hmore'
      obtain ⟨c₂, rfl, hc₂⟩ := (hf a).retract c₁ more b c'' hstep hmore
      refine ⟨c₂, rfl, ?_⟩
      change Except.bind (r c) _ = _
      rw [hc₁]
      exact hc₂

/-- Reading a bit does not look past the byte it is in. -/
lemma detached_bit : Detached bit where
  forward := forward_closed.bit
  retract := by
    rintro ⟨loose, rest⟩ more b c' h hmore
    cases loose with
    | cons b' loose =>
      cases h
      exact ⟨⟨loose, rest⟩, rfl, rfl⟩
    | nil =>
      cases rest with
      | cons byte rest =>
        cases h
        exact ⟨⟨(bitsOf byte).tail, rest⟩, rfl, rfl⟩
      | nil =>
        -- The bit would have to come from the added bytes, of which one would then be used up.
        cases more with
        | nil => cases h
        | cons byte more =>
          cases h
          have hlen : (byte :: more).length ≤ more.length := hmore.length_le
          rw [List.length_cons] at hlen
          omega

/-- Passing over whole bytes that do not reach into the added ones. -/
lemma drop_extend {c : BitCursor} {more : Bytes} {k : Nat}
    (h : more <:+ (c.rest ++ more).drop k) :
    (c.rest ++ more).take k = c.rest.take k ∧ (c.rest ++ more).drop k = c.rest.drop k ++ more := by
  have hlen : more.length ≤ ((c.rest ++ more).drop k).length := h.length_le
  rw [List.length_drop, List.length_append] at hlen
  by_cases hk : k ≤ c.rest.length
  · exact ⟨List.take_append_of_le_length hk, List.drop_append_of_le_length hk⟩
  · have hnil : more = [] := List.eq_nil_of_length_eq_zero (by omega)
    subst hnil
    simp only [List.append_nil, and_self]

/-- Reading whole bytes does not look past them. -/
lemma detached_wholeField (k : Nat) : Detached (wholeField k) where
  forward := forward_closed.wholeField k
  retract := by
    intro c more n c' h hmore
    have hrest : (c.extend more).rest = c.rest ++ more := rfl
    unfold wholeField at h ⊢
    dsimp only at h ⊢
    rw [hrest] at h
    by_cases hlen : ((c.rest ++ more).take k).length = k
    · rw [if_pos hlen] at h
      cases h
      obtain ⟨htake, hdrop⟩ := drop_extend hmore
      rw [htake] at hlen ⊢
      refine ⟨⟨[], c.rest.drop k⟩, ?_, ?_⟩
      · rw [BitCursor.extend, hdrop]
      · rw [if_pos hlen]
    · rw [if_neg hlen] at h
      cases h

/-- No reader of the decoder looks past what it leaves. -/
lemma detached_closed : Closed Detached where
  pure a :=
    { forward := forward_closed.pure a
      retract := by
        intro c more b c' h _
        cases h
        exact ⟨c, rfl, rfl⟩ }
  corrupt :=
    { forward := forward_closed.corrupt
      retract := by
        intro c more b c' h _
        cases h }
  bind := Detached.bind
  bit := detached_bit
  align :=
    { forward := forward_closed.align
      retract := by
        intro c more b c' h _
        cases h
        exact ⟨⟨[], c.rest⟩, rfl, rfl⟩ }
  wholeField := detached_wholeField

/-- A run of items that leaves the added bytes is the same without them. -/
lemma items_retract {codes : Codes} {fuel : Nat} {c c' : BitCursor} {out out' : Array UInt8}
    {more : Bytes} (h : items codes fuel (c.extend more) out = .ok (c', out'))
    (hmore : more <:+ c'.rest) :
    ∃ c₁ : BitCursor, c' = c₁.extend more ∧ items codes fuel c out = .ok (c₁, out') := by
  induction fuel generalizing c out with
  | zero => cases h
  | succ fuel ih =>
    rw [items] at h
    cases hitem : item codes (c.extend more) with
    | error halt =>
      rw [hitem] at h
      cases h
    | ok p =>
      obtain ⟨i, c₂⟩ := p
      rw [hitem] at h
      have hmore' : more <:+ c₂.rest := by
        cases i with
        | literal b => exact hmore.trans (suffix_trail.items h)
        | copy length distance => exact hmore.trans (suffix_trail.items h)
        | endOfBlock =>
          cases h
          exact hmore
      obtain ⟨c₃, rfl, hc₃⟩ := (detached_closed.item codes).retract c more i c₂ hitem hmore'
      rw [items, hc₃]
      cases i with
      | literal b => exact ih h
      | copy length distance => exact ih h
      | endOfBlock =>
        cases h
        exact ⟨c₃, rfl, rfl⟩

/-- A block that leaves the added bytes is the same without them. -/
lemma blockBody_retract {fuel kind : Nat} {c c' : BitCursor} {out out' : Array UInt8}
    {more : Bytes} (h : blockBody fuel kind (c.extend more) out = .ok (c', out'))
    (hmore : more <:+ c'.rest) :
    ∃ c₁ : BitCursor, c' = c₁.extend more ∧ blockBody fuel kind c out = .ok (c₁, out') := by
  unfold blockBody at h ⊢
  split at h
  · unfold storedBlock at h ⊢
    split at h
    next => cases h
    next length c₂ hlen =>
      dsimp only at h
      split at h
      next hfull =>
        cases h
        have hmore' : more <:+ c₂.rest := hmore.trans (List.drop_suffix length c₂.rest)
        obtain ⟨c₃, rfl, hc₃⟩ :=
          detached_closed.storedLength.retract c more length c₂ hlen hmore'
        have hrest : (c₃.extend more).rest = c₃.rest ++ more := rfl
        rw [hrest] at hfull hmore ⊢
        obtain ⟨htake, hdrop⟩ := drop_extend hmore
        rw [htake] at hfull ⊢
        refine ⟨⟨[], c₃.rest.drop length⟩, ?_, ?_⟩
        · rw [BitCursor.extend, hdrop]
        · simp only [hc₃, hfull, if_true]
      next => cases h
  · exact items_retract h hmore
  · split at h
    next => cases h
    next codes c₂ hcodes =>
      have hmore' : more <:+ c₂.rest := hmore.trans (suffix_trail.items h)
      obtain ⟨c₃, rfl, hc₃⟩ :=
        detached_closed.describedCodes.retract c more codes c₂ hcodes hmore'
      simp only [hc₃]
      exact items_retract h hmore
  · cases h

/-- Blocks that leave the added bytes are the same without them. -/
lemma blocks_retract {limit fuel : Nat} {c : BitCursor} {out : Array UInt8} {output more : Bytes}
    (h : blocks limit fuel (c.extend more) out = .complete output more) :
    blocks limit fuel c out = .complete output [] := by
  induction fuel generalizing c out with
  | zero => cases h
  | succ fuel ih =>
    rw [blocks] at h
    split at h
    next halt _ => cases halt <;> cases h
    next last kind c₁ hhead =>
      split at h
      next stop _ =>
        obtain ⟨halt, out'⟩ := stop
        cases halt <;> cases h
      next c₂ out₂ hbody =>
        have hmore₂ : more <:+ c₂.rest := by
          cases last with
          | true =>
            cases h
            exact List.suffix_rfl
          | false => exact blocks_suffix h
        have hmore₁ : more <:+ c₁.rest := hmore₂.trans (suffix_trail.blockBody hbody)
        obtain ⟨c₃, rfl, hc₃⟩ :=
          detached_closed.blockHeader.retract c more (last, kind) c₁ hhead hmore₁
        obtain ⟨c₄, rfl, hc₄⟩ := blockBody_retract hbody hmore₂
        rw [blocks, hc₃]
        dsimp only
        rw [hc₄]
        cases last with
        | true =>
          have hnil : c₄.rest = [] := by
            injection h with hout hrest
            exact List.append_left_eq_self.mp hrest
          injection h with hout hrest
          dsimp only
          rw [if_pos rfl, hout, hnil]
        | false => exact ih h

/-! ## The fuel is never used up -/

/-- Along every step, the number of unread bits does not grow. -/
lemma unread_trail : Trail fun c c' => c'.unread ≤ c.unread where
  refl c := Nat.le_refl _
  trans h h' := h'.trans h
  bit h := by
    have hbit := unread_bit h
    omega
  drop c k := by
    simp only [BitCursor.unread, List.length_nil, List.length_drop]
    omega

/-- A reader that takes at least one bit. -/
def Spends {α : Type} (r : BitReader α) : Prop :=
  Along (fun c c' => c'.unread < c.unread) r

/-- Whatever is read after a bit, a bit has been taken. -/
lemma Spends.bind {α β : Type} {r : BitReader α} {f : α → BitReader β} (hr : Spends r)
    (hf : ∀ a, Along (fun c c' => c'.unread ≤ c.unread) (f a)) : Spends (r >>= f) := by
  intro c c'' b h
  change Except.bind (r c) _ = _ at h
  cases hc : r c with
  | error halt =>
    rw [hc] at h
    cases h
  | ok p =>
    obtain ⟨a, c'⟩ := p
    rw [hc] at h
    have hfirst : c'.unread < c.unread := hr c c' a hc
    have hthen : c''.unread ≤ c'.unread := hf a c' c'' b h
    exact Nat.lt_of_le_of_lt hthen hfirst

/-- Reading a bit takes one. -/
lemma spends_bit : Spends bit := by
  intro c c' b h
  have hbit := unread_bit h
  show c'.unread < c.unread
  omega

/-- Reading the header of a block takes a bit. -/
lemma spends_blockHeader : Spends blockHeader := by
  have hclosed := unread_trail.closed
  exact spends_bit.bind fun _ => hclosed.bind (hclosed.bits 2) fun _ => hclosed.pure _

/-- A code in which no symbol has an empty code word. -/
def Codes.Branching (codes : Codes) : Prop :=
  ∃ zero one : CodeTree, codes.literals = .node zero one

/-- Codes given by lengths have no empty code words. -/
lemma CodeTree.ofLengths_eq_node (lengths : List Nat) :
    ∃ zero one : CodeTree, ofLengths lengths = .node zero one := by
  have hpos : ∀ s ∈ ordered lengths, s.1 ≠ 0 := by
    intro s hs
    simp only [ordered, List.mem_flatMap, List.mem_filter, decide_eq_true_eq] at hs
    obtain ⟨i, -, -, hlen⟩ := hs
    omega
  unfold ofLengths
  cases hsymbols : ordered lengths with
  | nil => exact ⟨_, _, rfl⟩
  | cons s symbols =>
    have hne : s.1 ≠ 0 := hpos s (by rw [hsymbols]; exact List.mem_cons_self)
    rw [grow, if_neg hne]
    exact ⟨_, _, rfl⟩

/-- The codes that are not described are branching. -/
lemma branching_fixedCodes : fixedCodes.Branching := by
  unfold Codes.Branching fixedCodes
  dsimp only
  exact CodeTree.ofLengths_eq_node _

/-- A reader all of whose results satisfy a condition. -/
def Gives {α : Type} (q : α → Prop) (r : BitReader α) : Prop :=
  ∀ (c c' : BitCursor) (a : α), r c = .ok (a, c') → q a

/-- The results of a sequence are those of its last reader. -/
lemma Gives.bind {α β : Type} {q : β → Prop} {r : BitReader α} {f : α → BitReader β}
    (hf : ∀ a, Gives q (f a)) : Gives q (r >>= f) := by
  intro c c'' b h
  change Except.bind (r c) _ = _ at h
  cases hc : r c with
  | error halt =>
    rw [hc] at h
    cases h
  | ok p =>
    obtain ⟨a, c'⟩ := p
    rw [hc] at h
    exact hf a c' c'' b h

/-- A reader that gives up has no results. -/
lemma gives_corrupt {α : Type} {q : α → Prop} : Gives q (corrupt : BitReader α) := by
  intro c c' a h
  cases h

/-- The codes that a block describes are branching. -/
lemma gives_describedCodes : Gives Codes.Branching describedCodes := by
  refine .bind fun literals => .bind fun distances => .bind fun lengths => ?_
  split
  · exact gives_corrupt
  · refine .bind fun written => ?_
    dsimp only
    split
    · exact gives_corrupt
    · refine .bind fun codeLengths => ?_
      split
      next literals distances hliterals hdistances =>
        intro c c' codes h
        cases h
        simp only [CodeTree.ofLengths?] at hliterals
        split at hliterals
        · cases hliterals
          exact CodeTree.ofLengths_eq_node _
        · cases hliterals
      next => exact gives_corrupt

/-- Reading an item of a branching code takes a bit. -/
lemma spends_item {codes : Codes} (hb : codes.Branching) : Spends (item codes) := by
  have hclosed := unread_trail.closed
  obtain ⟨zero, one, hnode⟩ := hb
  have hsymbol : Spends codes.literals.decode := by
    rw [hnode]
    exact spends_bit.bind fun b => Closed.ite (hclosed.decode one) (hclosed.decode zero)
  refine hsymbol.bind fun symbol => Closed.ite (hclosed.pure _) (Closed.ite (hclosed.pure _) ?_)
  refine hclosed.bind (hclosed.ranged lengthRanges _) fun length => ?_
  refine hclosed.bind (hclosed.decode codes.distances) fun symbol' => ?_
  exact hclosed.bind (hclosed.ranged distanceRanges symbol') fun _ => hclosed.pure _

/-- More fuel than there are bits changes nothing about a run of items. -/
lemma items_fuel {codes : Codes} (hb : codes.Branching) {fuel fuel' : Nat} {c : BitCursor}
    {out : Array UInt8} (hc : c.unread < fuel) (hle : fuel ≤ fuel') :
    items codes fuel' c out = items codes fuel c out := by
  induction fuel generalizing fuel' c out with
  | zero => omega
  | succ fuel ih =>
    obtain ⟨fuel', rfl⟩ : ∃ k, fuel' = k + 1 := ⟨fuel' - 1, by omega⟩
    rw [items, items]
    cases hitem : item codes c with
    | error halt => rfl
    | ok p =>
      obtain ⟨i, c'⟩ := p
      have hspent : c'.unread < c.unread := spends_item hb c c' i hitem
      have hc' : c'.unread < fuel := by omega
      have hle' : fuel ≤ fuel' := Nat.le_of_succ_le_succ hle
      cases i with
      | literal b => exact ih hc' hle'
      | copy length distance => exact ih hc' hle'
      | endOfBlock => rfl

/-- More fuel than there are bits changes nothing about a block. -/
lemma blockBody_fuel {fuel fuel' kind : Nat} {c : BitCursor} {out : Array UInt8}
    (hc : c.unread < fuel) (hle : fuel ≤ fuel') :
    blockBody fuel' kind c out = blockBody fuel kind c out := by
  unfold blockBody
  split
  · rfl
  · exact items_fuel branching_fixedCodes hc hle
  · cases hcodes : describedCodes c with
    | error halt => rfl
    | ok p =>
      obtain ⟨codes, c'⟩ := p
      have hread : c'.unread ≤ c.unread := unread_trail.closed.describedCodes c c' codes hcodes
      exact items_fuel (gives_describedCodes c c' codes hcodes) (by omega) hle
  · rfl

/-- More fuel than there are bits changes nothing about blocks. -/
lemma blocks_fuel {limit limit' fuel fuel' : Nat} {c : BitCursor}
    (out : Array UInt8) (hlimit : c.unread < limit) (hlimit' : limit ≤ limit') (hc : c.unread < fuel)
    (hle : fuel ≤ fuel') : blocks limit' fuel' c out = blocks limit fuel c out := by
  induction fuel generalizing fuel' c out with
  | zero => omega
  | succ fuel ih =>
    obtain ⟨fuel', rfl⟩ : ∃ k, fuel' = k + 1 := ⟨fuel' - 1, by omega⟩
    rw [blocks, blocks]
    cases hhead : blockHeader c with
    | error halt => rfl
    | ok p =>
      obtain ⟨⟨last, kind⟩, c₁⟩ := p
      have hspent : c₁.unread < c.unread := spends_blockHeader c c₁ (last, kind) hhead
      dsimp only
      rw [blockBody_fuel (by omega) hlimit']
      cases hbody : blockBody limit kind c₁ out with
      | error stop => rfl
      | ok q =>
        obtain ⟨c₂, out₂⟩ := q
        have hread : c₂.unread ≤ c₁.unread := unread_trail.blockBody hbody
        cases last with
        | true => rfl
        | false => exact ih out₂ (by omega) (by omega) (Nat.le_of_succ_le_succ hle)

/-- The bytes that the decoder of a complete stream has used are a complete stream by themselves. -/
theorem decode_front {front rest output : Bytes}
    (h : decode (front ++ rest) = .complete output rest) : decode front = .complete output [] := by
  have hextend : BitCursor.start (front ++ rest) = (BitCursor.start front).extend rest := rfl
  have hunread : (BitCursor.start front).unread + 1 ≤
      (BitCursor.start (front ++ rest)).unread + 1 := by
    simp only [BitCursor.unread, BitCursor.start, List.length_append]
    omega
  have hlong : blocks ((BitCursor.start (front ++ rest)).unread + 1)
      ((BitCursor.start (front ++ rest)).unread + 1) (BitCursor.start front) #[] =
      .complete output [] := by
    have hwhole : blocks ((BitCursor.start (front ++ rest)).unread + 1)
        ((BitCursor.start (front ++ rest)).unread + 1) ((BitCursor.start front).extend rest) #[] =
        .complete output rest := by
      rw [← hextend]
      exact h
    exact blocks_retract hwhole
  have hfuel := blocks_fuel #[] (Nat.lt_succ_self _) hunread (Nat.lt_succ_self _) hunread
  rw [decode, ← hfuel, hlong]

/-- A complete stream at the front of the input is a stream by itself, and the input goes on behind
it. -/
theorem exists_front_of_decode {input output rest : Bytes}
    (h : decode input = .complete output rest) :
    ∃ front, input = front ++ rest ∧ decode front = .complete output [] := by
  obtain ⟨front, rfl⟩ := decode_suffix h
  exact ⟨front, rfl, decode_front h⟩

end Deflate

end ZipMount
