import ZipMount.Inflater
import ZipMount.Proofs.Deflate.CutOff
import ZipMount.Proofs.Deflate.Expansion

/-!
# What is relied on of an inflater

The decoder behind a walk is not ours.  What the walk relies on is gathered in `LawfulInflater`: a
complete stream is delivered whole and the delivery stops behind its last byte; a stream that is cut
off gives the beginning of its output; the slices show only in what comes before damage; and a
payload expands to so many bytes at most.  That a failure persists and that a decoder never goes
back are in the shape of an `Inflow` already, whose ending is a failure or the bytes behind.

Whatever is proved about walks is proved of every lawful inflater.  The standard one is an instance,
by what is known of `Deflate.decode`.
-/

namespace ZipMount

/-- An inflater that keeps to the format. -/
class LawfulInflater extends Inflater where
  /-- A complete stream is delivered alike whatever follows it and however it is cut. -/
  inflow_of_complete {slices slices' : List Bytes} {output rest more : Bytes}
    (h : inflow slices = ⟨output, .ok rest⟩) (hs : slices'.flatten = slices.flatten ++ more) :
    inflow slices' = ⟨output, .ok (rest ++ more)⟩
  /-- The delivery of a complete stream stops behind the bytes that are the stream. -/
  exists_front {slices : List Bytes} {output rest : Bytes} (h : inflow slices = ⟨output, .ok rest⟩) :
    ∃ front, slices.flatten = front ++ rest ∧ inflow [front] = ⟨output, .ok []⟩
  /-- The beginning of what holds a complete stream either holds it, too, or gives the beginning of
  its output and then fails because the stream is cut short. -/
  inflow_of_cut {slices slices' : List Bytes} {output rest more : Bytes}
    (h : inflow slices = ⟨output, .ok rest⟩) (hs : slices'.flatten ++ more = slices.flatten) :
    (∃ rest', inflow slices' = ⟨output, .ok rest'⟩) ∨
      ∃ output', output' <+: output ∧ inflow slices' = ⟨output', .error .incompleteDeflate⟩
  /-- Other cuts change nothing, unless the stream is damaged; then they change how many of its first
  bytes are delivered. -/
  inflow_of_resliced {slices slices' : List Bytes} (hs : slices'.flatten = slices.flatten) :
    inflow slices' = inflow slices ∨
      (inflow slices').ending = .error .corruptDeflate ∧
        (inflow slices).ending = .error .corruptDeflate ∧
        ((inflow slices').pending <+: (inflow slices).pending ∨
          (inflow slices).pending <+: (inflow slices').pending)
  /-- A byte expands to no more than 2064 bytes. -/
  length_pending_le (slices : List Bytes) :
    (inflow slices).pending.length ≤ 2064 * slices.flatten.length

/-! ## What follows from the laws -/

/-- The payload is one complete deflate stream, whose output is the data. -/
def Inflates [Inflater] (payload data : Bytes) : Prop :=
  Inflater.inflow [payload] = ⟨data, .ok []⟩

/-- The input begins with a complete deflate stream. -/
def Inflatable [Inflater] (input : Bytes) : Prop :=
  ∃ payload data left, input = payload ++ left ∧ Inflates payload data

section Lawful

variable [LawfulInflater] {s : Slicing} {payload data rest left : Bytes}

/-- A complete stream is delivered whole, in front of the bytes behind it. -/
lemma Inflates.inflow_eq (h : Inflates payload data) (s : Slicing) (more : Bytes) :
    Inflater.inflow (s.slices (payload ++ more)) = ⟨data, .ok more⟩ := by
  have hcut : (s.slices (payload ++ more)).flatten = [payload].flatten ++ more := by
    rw [s.flatten_slices, List.flatten_singleton]
  simpa using LawfulInflater.inflow_of_complete h hcut

/-- A delivery that does not fail is that of a complete stream. -/
lemma exists_inflates_of_ending (h : (Inflater.inflow (s.slices rest)).ending = .ok left) :
    ∃ payload, rest = payload ++ left ∧
      Inflates payload (Inflater.inflow (s.slices rest)).pending := by
  have hflow : Inflater.inflow (s.slices rest) =
      ⟨(Inflater.inflow (s.slices rest)).pending, .ok left⟩ := by
    rw [← h]
  obtain ⟨payload, hrest, hpayload⟩ := LawfulInflater.exists_front hflow
  exact ⟨payload, by rw [← hrest, s.flatten_slices], hpayload⟩

/-- The payload determines the output. -/
lemma Inflates.unique {data' : Bytes} (h : Inflates payload data) (h' : Inflates payload data') :
    data' = data := by
  rw [Inflates, h] at h'
  cases h'
  rfl

end Lawful

/-! ## The standard inflater -/

namespace Inflow

open Deflate (decode decode_append exists_front_of_decode decode_cutOff_prefix decode_ne_corrupt
  length_output_decode_le)

/-- What a damaged stream hands over can be decoded from some of its first bytes. -/
lemma exists_prefix_of_handedOver {seen handed : Bytes} (h : decode seen = .cutOff handed)
    (slices : List Bytes) :
    ∃ front, front <+: seen ++ slices.flatten ∧
      decode front = .cutOff (handedOver seen handed slices) := by
  induction slices generalizing seen handed with
  | nil => exact ⟨seen, List.prefix_append _ _, h⟩
  | cons slice slices ih =>
    rw [handedOver]
    split
    next output hslice =>
      obtain ⟨front, hfront, hdecode⟩ := ih hslice
      refine ⟨front, ?_, hdecode⟩
      rwa [List.flatten_cons, ← List.append_assoc]
    next => exact ⟨seen, List.prefix_append _ _, h⟩

/-- What a damaged stream hands over can be decoded from some of the first bytes of the slices. -/
lemma exists_prefix_of_slices (slices : List Bytes) :
    ∃ front, front <+: slices.flatten ∧ decode front = .cutOff (handedOver [] [] slices) := by
  have hnone : decode [] = .cutOff [] := by decide +kernel
  exact exists_prefix_of_handedOver hnone slices

/-- Of two beginnings of an input, one gives the beginning of what the other one gives. -/
lemma prefix_or_prefix_of_cutOff {input front front' output output' : Bytes}
    (hfront : front <+: input) (hfront' : front' <+: input) (h : decode front = .cutOff output)
    (h' : decode front' = .cutOff output') : output <+: output' ∨ output' <+: output := by
  rcases List.prefix_or_prefix_of_prefix hfront hfront' with ⟨more, rfl⟩ | ⟨more, rfl⟩
  · have hsound : decode (front ++ more) ≠ .corrupt := by
      rw [h']
      exact fun hno => by cases hno
    have hprefix := decode_cutOff_prefix h hsound
    rw [h'] at hprefix
    exact .inl hprefix
  · have hsound : decode (front' ++ more) ≠ .corrupt := by
      rw [h]
      exact fun hno => by cases hno
    have hprefix := decode_cutOff_prefix h' hsound
    rw [h] at hprefix
    exact .inr hprefix

/-- A delivery comes to an end just when the stream is complete. -/
lemma ofSlices_eq_iff {slices : List Bytes} {output rest : Bytes} :
    ofSlices slices = ⟨output, .ok rest⟩ ↔ decode slices.flatten = .complete output rest := by
  unfold ofSlices
  cases decode slices.flatten <;> simp

/-- A stream that is cut short gives what can be decoded of it. -/
lemma ofSlices_of_cutOff {slices : List Bytes} {output : Bytes}
    (h : decode slices.flatten = .cutOff output) :
    ofSlices slices = ⟨output, .error .incompleteDeflate⟩ := by
  rw [ofSlices, h]

/-- A damaged stream gives what it hands over. -/
lemma ofSlices_of_corrupt {slices : List Bytes} (h : decode slices.flatten = .corrupt) :
    ofSlices slices = ⟨handedOver [] [] slices, .error .corruptDeflate⟩ := by
  rw [ofSlices, h]

/-- The beginning of what holds a complete stream holds it or is cut short. -/
lemma ofSlices_of_cut {slices slices' : List Bytes} {output rest more : Bytes}
    (h : ofSlices slices = ⟨output, .ok rest⟩) (hs : slices'.flatten ++ more = slices.flatten) :
    (∃ rest', ofSlices slices' = ⟨output, .ok rest'⟩) ∨
      ∃ output', output' <+: output ∧ ofSlices slices' = ⟨output', .error .incompleteDeflate⟩ := by
  have hwhole : decode (slices'.flatten ++ more) = .complete output rest := by
    rw [hs]
    exact ofSlices_eq_iff.mp h
  cases hcut : decode slices'.flatten with
  | complete output' rest' =>
    have hsame := decode_append hcut more
    rw [hwhole] at hsame
    cases hsame
    exact .inl ⟨rest', ofSlices_eq_iff.mpr hcut⟩
  | cutOff output' =>
    have hsound : decode (slices'.flatten ++ more) ≠ .corrupt := by
      rw [hwhole]
      exact fun hno => by cases hno
    have hprefix := decode_cutOff_prefix hcut hsound
    rw [hwhole] at hprefix
    exact .inr ⟨output', hprefix, ofSlices_of_cutOff hcut⟩
  | corrupt => exact absurd hcut (decode_ne_corrupt hwhole)

/-- The slices show only where the stream is damaged. -/
lemma ofSlices_of_resliced {slices slices' : List Bytes} (hs : slices'.flatten = slices.flatten) :
    ofSlices slices' = ofSlices slices ∨
      (ofSlices slices').ending = .error .corruptDeflate ∧
        (ofSlices slices).ending = .error .corruptDeflate ∧
        ((ofSlices slices').pending <+: (ofSlices slices).pending ∨
          (ofSlices slices).pending <+: (ofSlices slices').pending) := by
  cases hdecode : decode slices.flatten with
  | complete output rest =>
    left
    rw [ofSlices_eq_iff.mpr hdecode]
    exact ofSlices_eq_iff.mpr (by rw [hs, hdecode])
  | cutOff output =>
    left
    rw [ofSlices_of_cutOff hdecode]
    exact ofSlices_of_cutOff (by rw [hs, hdecode])
  | corrupt =>
    right
    have hdecode' : decode slices'.flatten = .corrupt := by rw [hs, hdecode]
    rw [ofSlices_of_corrupt hdecode, ofSlices_of_corrupt hdecode']
    obtain ⟨front, hfront, hgives⟩ := exists_prefix_of_slices slices
    obtain ⟨front', hfront', hgives'⟩ := exists_prefix_of_slices slices'
    rw [hs] at hfront'
    exact ⟨rfl, rfl, prefix_or_prefix_of_cutOff hfront' hfront hgives' hgives⟩

/-- A delivery expands the bytes of the slices to no more than 2064 bytes each. -/
lemma length_pending_ofSlices_le (slices : List Bytes) :
    (ofSlices slices).pending.length ≤ 2064 * slices.flatten.length := by
  have hworth := length_output_decode_le slices.flatten
  cases hdecode : decode slices.flatten with
  | complete output rest =>
    rw [hdecode] at hworth
    rw [ofSlices_eq_iff.mpr hdecode]
    exact hworth
  | cutOff output =>
    rw [hdecode] at hworth
    rw [ofSlices_of_cutOff hdecode]
    exact hworth
  | corrupt =>
    obtain ⟨front, hfront, hgives⟩ := exists_prefix_of_slices slices
    have hless := length_output_decode_le front
    rw [hgives] at hless
    rw [ofSlices_of_corrupt hdecode]
    exact hless.trans (Nat.mul_le_mul_left _ hfront.length_le)

end Inflow

/-- The standard inflater is lawful. -/
instance LawfulInflater.standard : LawfulInflater where
  toInflater := Inflater.standard
  inflow_of_complete h hs := by
    refine Inflow.ofSlices_eq_iff.mpr ?_
    rw [hs]
    exact Deflate.decode_append (Inflow.ofSlices_eq_iff.mp h) _
  exists_front h := by
    obtain ⟨front, hfront, hdecode⟩ :=
      Deflate.exists_front_of_decode (Inflow.ofSlices_eq_iff.mp h)
    refine ⟨front, hfront, Inflow.ofSlices_eq_iff.mpr ?_⟩
    rwa [List.flatten_singleton]
  inflow_of_cut := Inflow.ofSlices_of_cut
  inflow_of_resliced := Inflow.ofSlices_of_resliced
  length_pending_le := Inflow.length_pending_ofSlices_le

end ZipMount
