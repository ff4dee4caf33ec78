import ZipMount.Proofs.Walk.Twins

/-!
# Damage that stays in payloads

What can happen to a container without any header, descriptor or payload of unknown size being
touched is that bytes change inside payloads whose sizes are in their headers.  `Walk.SizedPayload`
tells which bytes these are, by what an untouched walk comes to, and two containers are `Confined`
if they have the same length and differ nowhere else.  Changing one payload makes such containers
(`confined_refill`), and so does changing them behind a part (`Confined.behind`).

The main statement is `Confined.matched`: such containers match.  It goes from header to header, and
splits the damaged container where the sound one is split; at every header, the bytes that may
differ are those of one payload (`Part.Headed.sizedPayload_own`) or stand behind the part
(`Part.Framed.sizedPayload_cases`).
-/

namespace ZipMount

/-- Two byte strings of one length that differ only at the given indices. -/
structure DifferOnlyAt (S : Nat → Prop) (l l' : Bytes) : Prop where
  length_eq : l'.length = l.length
  of_ne : ∀ i, l'[i]? ≠ l[i]? → S i

namespace DifferOnlyAt

variable {S T : Nat → Prop} {a b l l' : Bytes}

/-- Behind their end, strings of one length do not differ. -/
lemma lt_length_of_ne (hlen : l'.length = l.length) {i : Nat} (hne : l'[i]? ≠ l[i]?) :
    i < l.length := by
  by_contra hge
  have hle : l.length ≤ i := Nat.le_of_not_lt hge
  rw [List.getElem?_eq_none hle, List.getElem?_eq_none (hlen ▸ hle)] at hne
  exact hne rfl

/-- Where no index is given, nothing differs. -/
lemma eq_of_never (h : DifferOnlyAt S l l') (hn : ∀ i, i < l.length → ¬ S i) : l' = l := by
  refine List.ext_getElem? fun i => ?_
  by_contra hne
  exact hn i (lt_length_of_ne h.length_eq hne) (h.of_ne i hne)

/-- More indices allow for more differences. -/
lemma mono (h : DifferOnlyAt S l l') (hST : ∀ i, S i → T i) : DifferOnlyAt T l l' :=
  ⟨h.length_eq, fun i hi => hST i (h.of_ne i hi)⟩

/-- No string differs from itself. -/
lemma refl (S : Nat → Prop) (l : Bytes) : DifferOnlyAt S l l :=
  ⟨rfl, fun _ hi => absurd rfl hi⟩

/-- Where all indices are given, anything may differ. -/
lemma of_forall (hlen : l'.length = l.length) (hS : ∀ i, i < l.length → S i) :
    DifferOnlyAt S l l' :=
  ⟨hlen, fun i hi => hS i (lt_length_of_ne hlen hi)⟩

/-- Pieces that differ make strings that differ. -/
lemma append {a' b' : Bytes} (ha : DifferOnlyAt S a a')
    (hb : DifferOnlyAt (fun i => S (a.length + i)) b b') : DifferOnlyAt S (a ++ b) (a' ++ b') where
  length_eq := by rw [List.length_append, List.length_append, ha.length_eq, hb.length_eq]
  of_ne := by
    intro i hi
    by_cases hlt : i < a.length
    · rw [List.getElem?_append_left hlt, List.getElem?_append_left (ha.length_eq ▸ hlt)] at hi
      exact ha.of_ne i hi
    · have hle : a.length ≤ i := Nat.le_of_not_lt hlt
      rw [List.getElem?_append_right hle, List.getElem?_append_right (ha.length_eq ▸ hle),
        ha.length_eq] at hi
      have hs := hb.of_ne (i - a.length) hi
      rwa [Nat.add_sub_cancel' hle] at hs

/-- A string that differs from two pieces is made of two that differ from each. -/
lemma exists_append (h : DifferOnlyAt S (a ++ b) l') : ∃ a' b', l' = a' ++ b' ∧
    DifferOnlyAt S a a' ∧ DifferOnlyAt (fun i => S (a.length + i)) b b' := by
  have hlen := h.length_eq
  rw [List.length_append] at hlen
  have htake : (l'.take a.length).length = a.length := List.length_take_of_le (by omega)
  refine ⟨l'.take a.length, l'.drop a.length, (List.take_append_drop _ _).symm,
    ⟨htake, ?_⟩, ⟨by rw [List.length_drop]; omega, ?_⟩⟩
  · intro i hi
    have hlt : i < a.length := lt_length_of_ne htake hi
    rw [List.getElem?_take_of_lt hlt] at hi
    refine h.of_ne i ?_
    rwa [List.getElem?_append_left hlt]
  · intro i hi
    rw [List.getElem?_drop] at hi
    refine h.of_ne (a.length + i) ?_
    rwa [List.getElem?_append_right (Nat.le_add_right _ _), Nat.add_sub_cancel_left]

end DifferOnlyAt

namespace Walk

/-- Moving on again and again, the walk comes to an entry with the given record. -/
inductive ComesTo [Inflater] : Walk → Record → Walk → Prop
  | next {w v : Walk} {r : Record} (h : w.next = (.ok (some r), v)) : ComesTo w r v
  | later {w u v : Walk} {q r : Record} (h : w.next = (.ok (some q), u)) (rest : ComesTo u r v) :
      ComesTo w r v

/-- At the index is a byte of a payload that an untouched walk comes to and whose sizes are in its
header. -/
def SizedPayload [Inflater] (regime : Regime) (container : Bytes) (i : Nat) : Prop :=
  ∃ (r : Record) (v : Walk) (rest : Bytes) (size : Nat), (start container regime).ComesTo r v ∧
    r.declaredSize ≠ none ∧ r.compressedSize = some size ∧ v.place = .atPayload rest ∧
    container.length - rest.length ≤ i ∧ i < container.length - rest.length + size

/-- The second container is the first one with changes that stay in payloads whose sizes are in
their headers. -/
def Confined [Inflater] (regime : Regime) (container container' : Bytes) : Prop :=
  DifferOnlyAt (SizedPayload regime container) container container'

end Walk

section Lawful

variable [LawfulInflater]

namespace Walk

variable {w u v : Walk} {r : Record} {regime : Regime} {container container' rest : Bytes}

/-- Walks that move on alike come to the same entries. -/
lemma ComesTo.congr (h : w.ComesTo r v) (hw : w.next = u.next) : u.ComesTo r v := by
  cases h with
  | next h => exact .next (hw ▸ h)
  | later h rest => exact .later (hw ▸ h) rest

/-- A walk that moves to an error or to the end comes to nothing. -/
lemma ComesTo.exists_next (h : w.ComesTo r v) : ∃ q u, w.next = (.ok (some q), u) := by
  cases h with
  | next h => exact ⟨_, _, h⟩
  | later h _ => exact ⟨_, _, h⟩

/-- What is ahead of a walk is in its container. -/
lemma ComesTo.length_le (h : w.ComesTo r v) (hw : w.next = (start container regime).next)
    (hplace : v.place = .atPayload rest) : rest.length ≤ container.length := by
  induction h generalizing container with
  | next h =>
    obtain ⟨p, left, -, rfl, -, rfl⟩ := next_start_eq_some (hw.symm.trans h)
    obtain rfl : left = rest := Place.atPayload.inj hplace
    rw [List.length_append]
    omega
  | later h rest ih =>
    obtain ⟨p, left, hp, rfl, -, rfl⟩ := next_start_eq_some (hw.symm.trans h)
    rcases hp.next_behindHeader left regime with
      ⟨payload, trailer, data, more, -, rfl, hnext⟩ | ⟨e, x, herror⟩
    · have hle := ih hnext hplace
      simp only [List.length_append]
      omega
    · obtain ⟨q, u, hsome⟩ := rest.exists_next
      rw [herror] at hsome
      cases hsome

end Walk

namespace Part

open Walk (SizedPayload start)

variable {p : Part} {regime : Regime} {rest more : Bytes} {i : Nat}

/-- From a header, a walk comes to the entry of the header, or to what it comes to behind it. -/
lemma Headed.comesTo_cases (hp : p.Headed) {r : Record} {v : Walk}
    (h : (start (p.header.encode ++ rest) regime).ComesTo r v) :
    (r = p.entry.record ∧ v = p.behindHeader rest regime) ∨
      (p.behindHeader rest regime).ComesTo r v := by
  cases h with
  | next h =>
    rw [hp.next_start] at h
    cases h
    exact .inl ⟨rfl, rfl⟩
  | later h rest =>
    rw [hp.next_start] at h
    cases h
    exact .inr rest

/-- The first payload of recorded size behind a header that the walk cannot leave is the only one. -/
lemma Headed.sizedPayload_own (hp : p.Headed) {e : Error} {w : Walk}
    (hstuck : (p.behindHeader rest regime).next = (.error e, w))
    (h : SizedPayload regime (p.header.encode ++ rest) i) :
    p.header.hasDescriptor = false ∧ p.header.encode.length ≤ i ∧
      i < p.header.encode.length + p.compressed := by
  obtain ⟨r, v, ahead, size, hcomes, hdeclared, hsize, hplace, hle, hlt⟩ := h
  rcases hp.comesTo_cases hcomes with ⟨rfl, rfl⟩ | hlater
  · obtain rfl : rest = ahead := Place.atPayload.inj hplace
    have hd := declaredSize_ne_none_iff.mp hdeclared
    obtain rfl : p.compressed = size :=
      Option.some.inj ((compressedSize_of_no_descriptor hd).symm.trans hsize)
    rw [List.length_append, Nat.add_sub_cancel_right] at hle hlt
    exact ⟨hd, hle, hlt⟩
  · obtain ⟨q, u, hnext⟩ := hlater.exists_next
    rw [hstuck] at hnext
    cases hnext

/-- A byte of a payload of recorded size is in the first part, or behind it. -/
lemma Framed.sizedPayload_cases (hp : p.Framed regime.verify)
    (h : SizedPayload regime (p.encode ++ more) i) :
    (p.header.hasDescriptor = false ∧ p.header.encode.length ≤ i ∧
        i < p.header.encode.length + p.payload.length) ∨
      (p.encode.length ≤ i ∧ SizedPayload regime more (i - p.encode.length)) := by
  obtain ⟨r, v, ahead, size, hcomes, hdeclared, hsize, hplace, hle, hlt⟩ := h
  have hlen : p.encode.length =
      p.header.encode.length + (p.payload.length + p.ending.length) := by
    simp only [encode, List.length_append]
  rw [encode_append] at hcomes
  rcases hp.headed.comesTo_cases hcomes with ⟨rfl, rfl⟩ | hlater
  · left
    obtain rfl : p.payload ++ (p.ending ++ more) = ahead := Place.atPayload.inj hplace
    have hd := declaredSize_ne_none_iff.mp hdeclared
    have hpayload : p.payload.length = size := hp.length_of_some hsize
    simp only [List.length_append] at hle hlt
    exact ⟨hd, by omega, by omega⟩
  · right
    have hlater : (start more regime).ComesTo r v := hlater.congr (hp.next_begun more)
    have hahead := hlater.length_le rfl hplace
    rw [List.length_append] at hle hlt
    exact ⟨by omega, r, v, ahead, size, hlater, hdeclared, hsize, hplace, by omega, by omega⟩

/-- The payload of a part without a descriptor is one of recorded size. -/
lemma Framed.sizedPayload (hp : p.Framed regime.verify) (hd : p.header.hasDescriptor = false)
    (hle : p.header.encode.length ≤ i) (hlt : i < p.header.encode.length + p.payload.length) :
    SizedPayload regime (p.encode ++ more) i := by
  have hsize := compressedSize_of_no_descriptor hd
  have hlen := hp.length_of_some hsize
  refine ⟨p.record, p.begun more regime, _, p.compressed, .next (hp.next_start more), ?_, ?_, rfl,
    ?_, ?_⟩
  · rw [← hp.record_entry]
    exact declaredSize_ne_none_iff.mpr hd
  · rw [← hp.record_entry]
    exact hsize
  · rw [encode_append]
    simp only [List.length_append]
    omega
  · rw [encode_append]
    simp only [List.length_append]
    omega

/-- A payload of recorded size is one behind any part, too. -/
lemma Framed.sizedPayload_behind (hp : p.Framed regime.verify) (h : SizedPayload regime more i) :
    SizedPayload regime (p.encode ++ more) (p.encode.length + i) := by
  obtain ⟨r, v, ahead, size, hcomes, hdeclared, hsize, hplace, hle, hlt⟩ := h
  have hahead := hcomes.length_le rfl hplace
  refine ⟨r, v, ahead, size, .later (hp.next_start more) (hcomes.congr (hp.next_begun more).symm),
    hdeclared, hsize, hplace, ?_, ?_⟩
  · rw [List.length_append]
    omega
  · rw [List.length_append]
    omega

end Part

namespace Walk

variable {regime : Regime} {container container' : Bytes}

/-- Another payload of the same length is damage to the payload, if no descriptor is announced. -/
lemma confined_refill {p : Part} (hp : p.Framed regime.verify) (hd : p.header.hasDescriptor = false)
    (payload : Bytes) (hlen : payload.length = p.payload.length) (more : Bytes) :
    Confined regime (p.encode ++ more) ((p.refill payload).encode ++ more) := by
  have hown : ∀ i, i < p.payload.length →
      SizedPayload regime (p.encode ++ more) (p.header.encode.length + i) :=
    fun i hi => hp.sizedPayload hd (Nat.le_add_right _ _) (Nat.add_lt_add_left hi _)
  unfold Confined
  generalize SizedPayload regime (p.encode ++ more) = S at hown ⊢
  rw [Part.encode_append, Part.encode_append]
  exact (DifferOnlyAt.refl S _).append ((DifferOnlyAt.of_forall hlen hown).append (.refl _ _))

/-- Damage behind a part is damage. -/
lemma Confined.behind {p : Part} (hp : p.Framed regime.verify)
    (h : Confined regime container container') :
    Confined regime (p.encode ++ container) (p.encode ++ container') :=
  (DifferOnlyAt.refl _ _).append (h.mono fun _ hs => hp.sizedPayload_behind hs)

/-- A container in which a walk finds nothing has no payloads. -/
lemma not_sizedPayload (hnone : ∀ r v, (start container regime).next ≠ (.ok (some r), v)) (i : Nat) :
    ¬ SizedPayload regime container i := by
  rintro ⟨r, v, -, -, hcomes, -⟩
  obtain ⟨q, u, hnext⟩ := hcomes.exists_next
  exact hnone q u hnext

/-- Behind a header that the walk cannot leave, there is nothing that may differ but a payload that is
cut off. -/
lemma Confined.matched_of_stuck {p : Part} {rest : Bytes} {e : Error} {w : Walk} (hp : p.Headed)
    (hstuck : (p.behindHeader rest regime).close = (.error e, w))
    (h : Confined regime (p.header.encode ++ rest) container') :
    Matched (p.header.encode ++ rest) container' := by
  have hnext : (p.behindHeader rest regime).next = (.error e, w) := by rw [Walk.next, hstuck]
  by_cases hd : p.header.hasDescriptor = false
  · have hsize := Part.compressedSize_of_no_descriptor hd
    have hshort : rest.length < p.compressed := by
      by_contra hle
      have hsettle : settle p.entry (rest.drop p.compressed) =
          .ok (p.entry, rest.drop p.compressed) := by
        have hnone : p.entry.descriptor = none := by
          rw [Part.descriptor_entry, hd]
          rfl
        rw [settle, hnone]
        rfl
      rw [close_of_passed (w := p.behindHeader rest regime) rfl rfl hsize (Nat.le_of_not_lt hle)
        hsettle] at hstuck
      cases hstuck
    obtain ⟨front, rest', rfl, hfront, hrest⟩ := h.exists_append
    obtain rfl : front = p.header.encode := hfront.eq_of_never fun i hi hs => by
      obtain ⟨-, hge, -⟩ := hp.sizedPayload_own hnext hs
      omega
    exact .cut hp hd hrest.length_eq hshort
  · obtain rfl := h.eq_of_never fun i _ hs => hd (hp.sizedPayload_own hnext hs).1
    exact .same _

/-- A container that is changed in payloads of recorded size is split where the sound one is. -/
lemma Confined.exists_part {p : Part} {more : Bytes} (hp : p.Framed regime.verify)
    (h : Confined regime (p.encode ++ more) container') : ∃ payload more',
      container' = (p.refill payload).encode ++ more' ∧ payload.length = p.payload.length ∧
        (p.header.hasDescriptor = true → payload = p.payload) ∧ Confined regime more more' := by
  have hcases : ∀ i, SizedPayload regime (p.encode ++ more) i → _ :=
    fun i => hp.sizedPayload_cases
  have hlen : p.encode.length =
      p.header.encode.length + (p.payload.length + p.ending.length) := by
    simp only [Part.encode, List.length_append]
  unfold Confined at h
  generalize SizedPayload regime (p.encode ++ more) = S at h hcases
  rw [Part.encode_append] at h
  obtain ⟨front, behind, rfl, hfront, hbehind⟩ := h.exists_append
  obtain ⟨payload, after, rfl, hpayload, hafter⟩ := hbehind.exists_append
  obtain ⟨ending, more', rfl, hending, hmore⟩ := hafter.exists_append
  obtain rfl : front = p.header.encode := hfront.eq_of_never fun i hi hs => by
    rcases hcases _ hs with ⟨-, hge, -⟩ | ⟨hge, -⟩ <;> omega
  obtain rfl : ending = p.ending := hending.eq_of_never fun i hi hs => by
    rcases hcases _ hs with ⟨-, -, hlt⟩ | ⟨hge, -⟩ <;> omega
  refine ⟨payload, more', (Part.encode_append (p.refill payload) more').symm, hpayload.length_eq,
    ?_, ?_⟩
  · intro hd
    refine hpayload.eq_of_never fun i hi hs => ?_
    rcases hcases _ hs with ⟨hnone, -⟩ | ⟨hge, -⟩
    · rw [hd] at hnone
      cases hnone
    · omega
  · refine hmore.mono fun i hs => ?_
    rcases hcases _ hs with ⟨-, -, hlt⟩ | ⟨-, hs⟩
    · omega
    · have hi : p.header.encode.length + (p.payload.length + (p.ending.length + i)) -
          p.encode.length = i := by omega
      rwa [hi] at hs

/-- Containers that differ only in payloads whose sizes are in their headers match. -/
theorem Confined.matched (h : Confined regime container container') :
    Matched container container' := by
  induction hn : container.length using Nat.strong_induction_on generalizing container container' with
  | h n ih =>
    subst hn
    by_cases hnone : ∀ r v, (start container regime).next ≠ (.ok (some r), v)
    · rw [h.eq_of_never fun i _ => not_sizedPayload hnone i]
      exact .same container
    · push Not at hnone
      obtain ⟨r, v, hnext⟩ := hnone
      obtain ⟨p, rest, hp, rfl, rfl, rfl⟩ := next_start_eq_some hnext
      rcases hclose : (p.behindHeader rest regime).close with ⟨e | _, w⟩
      · exact h.matched_of_stuck hp hclose
      · obtain ⟨payload, trailer, data, more, hq, rfl⟩ := hp.exists_framed hclose
        have hencode := Part.encode_append (p.fill payload trailer data) more
        change _ = p.header.encode ++ (payload ++ _) at hencode
        rw [← hencode] at h ih ⊢
        obtain ⟨payload', more', rfl, hlen, hsame, hmore⟩ := h.exists_part hq
        have hshort : more.length < ((p.fill payload trailer data).encode ++ more).length := by
          simp only [Part.encode, LocalHeader.encode, List.length_append, Bytes.length_le]
          omega
        exact .part hq.lenient (hq.lenient.refill hlen hsame) hsame (ih _ hshort hmore rfl)

end Walk

end Lawful

end ZipMount
