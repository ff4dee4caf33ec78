import ZipMount.Proofs.Layout.Accepted
import ZipMount.Proofs.Walk.Tour

/-!
# Walks only move forward

Whatever is asked of a walk, what is ahead of it afterwards is a suffix of what was ahead of it
before. Nothing that a header claims matters for this: raw bytes are passed over only if they are
there, stored bytes are counted off those that are there, and a decoder leaves a suffix of what it
is given.  A walk that has lost its place has nothing ahead of it.

Moving on to an entry uses up a header, of which the fixed part alone has 30 bytes.  So the bytes
ahead bound the entries that can still be found, `countP_isFound_le`, however requests are mixed.
-/

namespace ZipMount

/-- The bytes of a header besides the name and the extra fields. -/
lemma LocalHeader.le_length_encode (h : LocalHeader) : 30 ≤ h.encode.length := by
  simp only [encode, fields, List.length_append, Bytes.length_le]
  omega

/-- The bytes ahead of a place, behind the payload if that is inside a deflated one. -/
def Place.ahead [Inflater] (p : Place) : Bytes :=
  p.rest?.getD []

/-- The bytes ahead of a walk. -/
def Walk.ahead [Inflater] (w : Walk) : Bytes :=
  w.place.ahead

/-- The answer brings an entry. -/
def Walk.Answer.isFound : Answer → Bool
  | .entry (.ok (some _)) => true
  | _ => false

/-- Reading the descriptor behind a payload moves forward. -/
lemma Walk.settle_suffix {e e' : Entry} {input rest : Bytes} (h : settle e input = .ok (e', rest)) :
    rest <:+ input := by
  rcases hd : e.descriptor with _ | width
  · rw [settle, hd] at h
    cases h
    exact List.suffix_rfl
  · rw [settle, hd] at h
    obtain ⟨d, mid, hread, hrest⟩ := Reader.exists_of_bind_eq_ok h
    cases hrest
    obtain ⟨signed, -, hinput⟩ := Trailer.exists_of_read hread
    exact ⟨_, hinput.symm⟩

section Forward

variable [LawfulInflater]

namespace Place

/-- Beginning a payload moves forward. -/
lemma ahead_enter {s : Slicing} {e : Entry} {p q : Place} (h : p.enter s e = .ok q) :
    q.ahead <:+ p.ahead := by
  unfold enter at h
  split at h
  next rest =>
    split at h
    next =>
      cases h
      exact List.suffix_rfl
    next =>
      cases h
      show (Inflater.inflow (s.slices rest)).ending.toOption.getD [] <:+ rest
      rcases hending : (Inflater.inflow (s.slices rest)).ending with e | left
      · exact List.nil_suffix
      · obtain ⟨payload, hrest, -⟩ := exists_inflates_of_ending hending
        exact ⟨payload, hrest.symm⟩
    next => cases h
  next =>
    cases h
    exact List.suffix_rfl

/-- Delivering bytes moves forward. -/
lemma ahead_deliver {n : Nat} {p q : Place} {got : Bytes} (h : p.deliver n = .ok (got, q)) :
    q.ahead <:+ p.ahead := by
  unfold deliver at h
  split at h
  next rest remaining =>
    split at h
    next =>
      cases h
      exact List.suffix_rfl
    next =>
      split at h
      next => cases h
      next =>
        cases h
        exact List.drop_suffix _ rest
  next flow =>
    split at h
    next => cases h
    next =>
      cases h
      exact List.suffix_rfl
  next =>
    cases h
    exact List.suffix_rfl

end Place

namespace Walk

variable {w : Walk}

/-- Leaving an entry at the end of its payload moves forward. -/
lemma ahead_finish (w : Walk) : w.finish.2.ahead <:+ w.ahead := by
  rcases hrest : w.place.rest? with _ | rest
  · have hstay : w.finish = (.ok [], w) := by simp only [finish, hrest]
    rw [hstay]
  · have hahead : w.ahead = rest := by rw [ahead, Place.ahead, hrest, Option.getD_some]
    rw [hahead]
    rcases hc : w.current with _ | c
    · have hleft : w.finish = (.ok [], { w with place := .atHeader rest }) := by
        simp only [finish, hrest, hc]
      rw [hleft]
      exact List.suffix_rfl
    · rw [finish_eq hc hrest]
      rcases hend : conclusion w.verify c rest with e | more
      · exact List.nil_suffix
      · obtain ⟨e', hsettle⟩ := settle_of_conclusion hend
        exact settle_suffix hsettle

/-- Reading moves forward. -/
lemma ahead_read (n : Nat) (w : Walk) : (w.read n).2.ahead <:+ w.ahead := by
  have hdraws : w.Draws n (w.read n).1 (w.read n).2 := draws_of_read rfl
  generalize (w.read n).1 = r at hdraws
  generalize (w.read n).2 = u at hdraws
  cases hdraws with
  | nothing => exact List.suffix_rfl
  | refused => exact List.suffix_rfl
  | unbegun => exact List.suffix_rfl
  | failed hc hr hp => exact Place.ahead_enter hp
  | @ended c p q _ _ hc hr hp hd hfinish =>
    have hahead := ahead_finish { w with place := q }
    rw [hfinish] at hahead
    exact hahead.trans ((Place.ahead_deliver hd).trans (Place.ahead_enter hp))
  | delivered hc hr hp hd => exact (Place.ahead_deliver hd).trans (Place.ahead_enter hp)

/-- Reading more than once moves forward. -/
lemma ahead_readUpTo (n : Nat) (w : Walk) : (w.readUpTo n).2.ahead <:+ w.ahead := by
  have hstep : ∀ {n : Nat} {w w' : Walk} {r : Except IoError Bytes}, w.read n = (r, w') →
      w'.ahead <:+ w.ahead := by
    intro n w w' r hread
    have hforward := ahead_read n w
    rwa [hread] at hforward
  fun_induction readUpTo n w with
  | case1 w => exact List.suffix_rfl
  | case2 n w hn e w' hread => exact hstep hread
  | case3 n w hn w' hread => exact hstep hread
  | case4 n w hn b got w' hread more failure w'' hrest ih =>
    rw [hrest] at ih
    exact ih.trans (hstep hread)

/-- Passing over bytes moves forward. -/
lemma ahead_skip (n : Nat) (w : Walk) : (w.skip n).2.ahead <:+ w.ahead := by
  have hforward := ahead_readUpTo n w
  unfold skip
  split
  next got w' hread => rwa [hread] at hforward
  next got e w' hread => rwa [hread] at hforward

/-- Beginning a payload moves forward. -/
lemma ahead_enter (w : Walk) : w.enter.ahead <:+ w.ahead := by
  unfold enter
  split
  next => exact List.suffix_rfl
  next =>
    split
    next => exact List.suffix_rfl
    next =>
      split
      next => exact List.suffix_rfl
      next p henter => exact Place.ahead_enter henter

/-- Leaving an entry moves forward. -/
lemma ahead_close (w : Walk) : w.close.2.ahead <:+ w.ahead := by
  have hall : w.readAll.2.ahead <:+ w.ahead :=
    (ahead_readUpTo (w.enter.place.available + 1) w.enter).trans (ahead_enter w)
  unfold close
  split
  next => exact List.suffix_rfl
  next c hc =>
    split
    next size rest hsize hzero hplace =>
      have hahead : w.ahead = rest := by rw [ahead, hplace]; rfl
      split
      next => exact List.nil_suffix
      next e more hraw =>
        obtain ⟨u, mid, hpass, hsettle⟩ := Reader.exists_of_bind_eq_ok hraw
        unfold passPayload at hpass
        split at hpass
        next =>
          cases hpass
          rw [hahead]
          exact (settle_suffix hsettle).trans (List.drop_suffix size rest)
        next => cases hpass
    next =>
      split
      next => exact List.suffix_rfl
      next =>
        split
        next got w' hread => rwa [hread] at hall
        next got e w' hread => rwa [hread] at hall

/-- Moving on moves forward, and by a header at least if it finds an entry. -/
lemma ahead_next (w : Walk) : w.next.2.ahead <:+ w.ahead ∧
    ∀ r, w.next.1 = .ok (some r) → w.next.2.ahead.length + 30 ≤ w.ahead.length := by
  have hleft := ahead_close w
  rcases hnext : w.next with ⟨r, w'⟩
  cases moves_of_next hnext with
  | stuck hclose =>
    rw [hclose] at hleft
    exact ⟨hleft, fun r hr => by cases hr⟩
  | lost hclose hplace hheader => exact ⟨List.nil_suffix, fun r hr => by cases hr⟩
  | finished hclose hnone => exact ⟨List.nil_suffix, fun r hr => by cases hr⟩
  | @found v input rest e hclose hplace hheader =>
    rw [hclose] at hleft
    have hahead : v.ahead = input := by rw [ahead, hplace]; rfl
    obtain ⟨h, -, -, -, -, -, -, -, -, hinput⟩ := header_eq_some_iff.mp hheader
    have hheader_le := h.le_length_encode
    have hleft_le := hleft.length_le
    rw [hahead, hinput] at hleft
    rw [hahead, hinput, List.length_append] at hleft_le
    refine ⟨(List.suffix_append h.encode rest).trans hleft, fun r hr => ?_⟩
    show rest.length + 30 ≤ w.ahead.length
    omega

/-- Moving on to an entry uses up a header. -/
lemma length_ahead_of_next {w' : Walk} {r : Record} (h : w.next = (.ok (some r), w')) :
    w'.ahead.length + 30 ≤ w.ahead.length := by
  have hfound := (ahead_next w).2 r
  rw [h] at hfound
  exact hfound rfl

/-! ## Requests -/

/-- A request moves forward, and by a header at least if it finds an entry. -/
lemma ahead_answer (q : Request) (w : Walk) : (w.answer q).2.ahead <:+ w.ahead ∧
    ((w.answer q).1.isFound = true → (w.answer q).2.ahead.length + 30 ≤ w.ahead.length) := by
  cases q with
  | next =>
    obtain ⟨hforward, hfound⟩ := ahead_next w
    refine ⟨hforward, fun hq => ?_⟩
    have hanswer : (w.answer .next).1 = .entry w.next.1 := rfl
    rw [hanswer] at hq
    rcases hr : w.next.1 with e | _ | r
    · rw [hr] at hq
      cases hq
    · rw [hr] at hq
      cases hq
    · exact hfound r hr
  | close => exact ⟨ahead_close w, fun hq => by cases hq⟩
  | read n => exact ⟨ahead_read n w, fun hq => by cases hq⟩
  | skip n => exact ⟨ahead_skip n w, fun hq => by cases hq⟩

/-- However requests are mixed, each entry that is found takes a header of the bytes ahead. -/
lemma countP_isFound_le (qs : List Request) (w : Walk) :
    30 * (w.transcript qs).countP Answer.isFound ≤ w.ahead.length := by
  induction qs generalizing w with
  | nil => exact Nat.zero_le _
  | cons q qs ih =>
    obtain ⟨hforward, hfound⟩ := ahead_answer q w
    have hrest := ih (w.answer q).2
    have hle := hforward.length_le
    rw [transcript, List.countP_cons]
    split
    next hq =>
      have huses := hfound hq
      omega
    next => omega

end Walk

end Forward

end ZipMount
