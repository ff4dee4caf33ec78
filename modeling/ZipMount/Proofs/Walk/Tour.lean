import ZipMount.Proofs.Layout.Container

/-!
# A walk through an honest container is a tour of its entries

Seen from outside, a walk through an honest container is at some place of some entry: after the
bytes of it that have been delivered, or in front of it.  `Tour` is this pair of numbers and nothing
else.  It moves by counting, over entries that are known beforehand, and has no notion of headers,
compression, recorded sizes or descriptors.

The main statement is `transcript_eq_tour`: whatever is asked of a walk through an honest
container, in whatever order, its answers are those of the tour.  `Tracks` ties the walk to the
tour.  Whichever way an entry is left, the walk is then at the first byte behind it, and so at the
same place.
-/

namespace ZipMount

namespace Walk

/-- What is asked of a walk. -/
inductive Request
  | next
  | close
  | read (n : Nat)
  | skip (n : Nat)
  deriving DecidableEq, Repr

/-- What a walk answers. -/
inductive Answer
  | entry (r : Except Error (Option Record))
  | closed (r : Except Error Unit)
  | got (r : Except IoError Bytes)
  | passed (r : Except IoError Nat)

/-- The answer to a request, and the walk after it. -/
def answer [Inflater] (q : Request) (w : Walk) : Answer × Walk :=
  match q with
  | .next => (.entry w.next.1, w.next.2)
  | .close => (.closed w.close.1, w.close.2)
  | .read n => (.got (w.read n).1, (w.read n).2)
  | .skip n => (.passed (w.skip n).1, (w.skip n).2)

/-- The answers to requests made one after the other. -/
def transcript [Inflater] : List Request → Walk → List Answer
  | [], _ => []
  | q :: qs, w => (w.answer q).1 :: transcript qs (w.answer q).2

end Walk

/-! ## Tours -/

/-- What there is to see of an entry. -/
structure Sight where
  record : Record
  /-- Why the data is not shown, if it is not. -/
  refusal : Option Feature
  data : Bytes
  deriving DecidableEq

/-- Where a tour is. -/
inductive Tour
  /-- In front of the entry with the given index. -/
  | before (index : Nat)
  /-- In the entry with the given index, after the given number of bytes. -/
  | inside (index offset : Nat)
  deriving DecidableEq, Repr

namespace Tour

/-- The index of the next entry. -/
def ahead : Tour → Nat
  | before index => index
  | inside index _ => index + 1

/-- Goes to the first byte of the next entry, if there is one. -/
def next (sights : List Sight) (t : Tour) : Option Record × Tour :=
  match sights[t.ahead]? with
  | some s => (some s.record, inside t.ahead 0)
  | none => (none, before t.ahead)

/-- Goes over at most `n` bytes of the entry, as far as it is shown. -/
def visit (sights : List Sight) (n : Nat) : Tour → Except IoError Bytes × Tour
  | before index => (.ok [], before index)
  | inside index offset =>
    match sights[index]? with
    | none => (.ok [], inside index offset)
    | some s =>
      if n = 0 then (.ok [], inside index offset)
      else
        match s.refusal with
        | some feature => (.error (.fault (.unsupportedArchive feature)), inside index offset)
        | none =>
          let got := (s.data.drop offset).take n
          (.ok got, inside index (offset + got.length))

/-- A tour over nothing stays where it is. -/
lemma visit_zero (sights : List Sight) (t : Tour) : t.visit sights 0 = (.ok [], t) := by
  cases t with
  | before index => rfl
  | inside index offset =>
    unfold visit
    dsimp only
    cases sights[index]? <;> rfl

/-- The answer to a request, and the tour after it. -/
def answer (sights : List Sight) (q : Walk.Request) (t : Tour) : Walk.Answer × Tour :=
  match q with
  | .next => (.entry (.ok (t.next sights).1), (t.next sights).2)
  | .close => (.closed (.ok ()), before t.ahead)
  | .read n => (.got (t.visit sights n).1, (t.visit sights n).2)
  | .skip n => (.passed ((t.visit sights n).1.map List.length), (t.visit sights n).2)

/-- The answers to requests made one after the other. -/
def transcript (sights : List Sight) : List Walk.Request → Tour → List Walk.Answer
  | [], _ => []
  | q :: qs, t => (t.answer sights q).1 :: transcript sights qs (t.answer sights q).2

end Tour

/-! ## The walk tracks the tour -/

/-- What there is to see of a part. -/
def Part.sight (p : Part) : Sight := ⟨p.record, p.refusal, p.data⟩

/-- What there is to see in a container. -/
def HonestContainer.sights [Inflater] (c : HonestContainer) : List Sight := c.parts.map Part.sight

/-- Behind each index is what there is to see of the part with that index. -/
lemma HonestContainer.sights_getElem? [Inflater] (c : HonestContainer) (index : Nat) :
    c.sights[index]? = c.parts[index]?.map Part.sight :=
  List.getElem?_map

namespace Walk

/-- The walk is where the tour is.  A payload of which nothing has been delivered is a case of its
own, since only there the recorded size decides how it is left. -/
inductive Tracks [Inflater] (c : HonestContainer) (regime : Regime) : Walk → Tour → Prop
  /-- At the header of the next part, or at the tail. -/
  | before (index : Nat) :
      Tracks c regime ⟨.atHeader (c.bytesFrom index), none, regime⟩ (.before index)
  /-- Beyond the last part. -/
  | ended {w : Walk} {index : Nat} (hplace : w.place = .ended) (hcurrent : w.current = none)
      (hp : c.parts[index]? = none) : Tracks c regime w (.before index)
  /-- At a payload of which nothing has been delivered. -/
  | begun {index : Nat} {p : Part} (hp : c.parts[index]? = some p) :
      Tracks c regime (p.begun (c.bytesFrom (index + 1)) regime) (.inside index 0)
  /-- Inside a payload. -/
  | inside {index offset : Nat} {p : Part} (hp : c.parts[index]? = some p) (hr : p.Readable)
      (hpos : 0 < offset) (hle : offset ≤ p.data.length) :
      Tracks c regime ((p.begun (c.bytesFrom (index + 1)) regime).pass offset)
        (.inside index offset)
  /-- Behind a payload that has been delivered. -/
  | finished {index : Nat} {p : Part} (hp : c.parts[index]? = some p) (hr : p.Readable) :
      Tracks c regime ⟨.atHeader (c.bytesFrom (index + 1)), none, regime⟩
        (.inside index p.data.length)

/-- The walk is in a payload, of which the given number of bytes have been delivered and nothing
keeps the others from being delivered. -/
structure Midway [Inflater] (p : Part) (more : Bytes) (regime : Regime) (offset : Nat) (w : Walk) :
    Prop where
  le : offset ≤ p.data.length
  pending_eq : w.pending = p.data.drop offset
  ending_eq : w.ending = (.ok [], ⟨.atHeader more, none, regime⟩)
  pass_eq : ∀ j, 0 < j → w.pass j = (p.begun more regime).pass (offset + j)

/-- Reading and passing over `n` bytes both lead the walk where a tour goes. -/
structure GoesAlong [Inflater] (c : HonestContainer) (regime : Regime) (n : Nat) (w : Walk)
    (r : Except IoError Bytes × Tour) : Prop where
  read_eq : (w.read n).1 = r.1
  read_tracks : Tracks c regime (w.read n).2 r.2
  skip_eq : (w.skip n).1 = r.1.map List.length
  skip_tracks : Tracks c regime (w.skip n).2 r.2

section Tracks

variable [LawfulInflater] {c : HonestContainer} {regime : Regime} {w : Walk} {t : Tour}

/-- Leaving leads to the place in front of the next entry. -/
lemma Tracks.close (ht : Tracks c regime w t) :
    ∃ w', w.close = (.ok (), w') ∧ w'.current = none ∧ Tracks c regime w' (.before t.ahead) := by
  cases ht with
  | before index => exact ⟨_, close_of_current_none rfl, rfl, .before index⟩
  | ended hplace hcurrent hp =>
    exact ⟨w, close_of_current_none hcurrent, hcurrent, .ended hplace hcurrent hp⟩
  | begun hp =>
    have hhonest := HonestContainer.honest_of_getElem? hp
    exact ⟨_, (hhonest.framed regime.verify).close_begun _, rfl, .before _⟩
  | inside hp hr hpos hle =>
    have hhonest := HonestContainer.honest_of_getElem? hp
    exact ⟨_, (hhonest.delivers hr regime.verify).close_pass_begun hpos hle _, rfl, .before _⟩
  | finished hp hr => exact ⟨_, close_of_current_none rfl, rfl, .before _⟩

/-- At the header of a part, the walk moves to the payload. -/
lemma next_of_getElem? {index : Nat} {p : Part} (hp : c.parts[index]? = some p) :
    next ⟨.atHeader (c.bytesFrom index), none, regime⟩ =
      (.ok (some p.record), p.begun (c.bytesFrom (index + 1)) regime) := by
  have hframed := (HonestContainer.honest_of_getElem? hp).framed regime.verify
  rw [HonestContainer.bytesFrom_of_getElem? hp]
  exact hframed.next_start (c.bytesFrom (index + 1))

/-- At the tail, the entries end. -/
lemma next_of_none {index : Nat} (hp : c.parts[index]? = none) :
    next ⟨.atHeader (c.bytesFrom index), none, regime⟩ =
      (.ok none, ⟨.ended, none, regime⟩) := by
  have hstart : (⟨.atHeader c.tail, none, regime⟩ : Walk) = start c.tail regime := rfl
  rw [HonestContainer.bytesFrom_of_none hp, hstart, next_start]
  by_cases hnil : c.tail = []
  · rw [if_pos hnil]
  · obtain ⟨word, hword, more, htail⟩ := c.tail_ends.resolve_left hnil
    rw [if_neg hnil, htail, header_end hword more]

/-- Moving on leads walk and tour to the same entry. -/
lemma Tracks.next (ht : Tracks c regime w t) :
    w.next.1 = .ok (t.next c.sights).1 ∧ Tracks c regime w.next.2 (t.next c.sights).2 := by
  obtain ⟨w', hclose, hcurrent, ht'⟩ := ht.close
  rw [next_of_close hclose hcurrent, Tour.next, HonestContainer.sights_getElem?]
  generalize t.ahead = index at ht'
  cases ht' with
  | before =>
    cases hp : c.parts[index]? with
    | none =>
      rw [next_of_none hp]
      exact ⟨rfl, .ended rfl rfl hp⟩
    | some p =>
      rw [next_of_getElem? hp]
      exact ⟨rfl, .begun hp⟩
  | ended hplace hcurrent hp =>
    have hnext : w'.next = (.ok none, { w' with place := .ended }) := by
      rw [Walk.next, close_of_current_none hcurrent]
      dsimp only
      rw [hplace]
    rw [hnext, hp]
    exact ⟨rfl, .ended rfl hcurrent hp⟩

/-- Without an entry, nothing is read and nothing is passed over. -/
lemma read_skip_of_current_none (hc : w.current = none) (n : Nat) :
    w.read n = (.ok [], w) ∧ w.skip n = (.ok 0, w) := by
  have hread : ∀ k, w.read k = (.ok [], w) := by
    intro k
    rw [read, hc]
  refine ⟨hread n, ?_⟩
  rw [skip, readUpTo]
  by_cases hn : n = 0
  · rw [if_pos hn]
    rfl
  · rw [if_neg hn, hread n]
    rfl

/-- A payload that cannot be read is refused, and the walk stays where it is. -/
lemma read_skip_of_refusal {cur : Current} {feature : Feature} (hc : w.current = some cur)
    (hr : cur.entry.refusal = some feature) {n : Nat} (hn : n ≠ 0) :
    w.read n = (.error (.fault (.unsupportedArchive feature)), w) ∧
      w.skip n = (.error (.fault (.unsupportedArchive feature)), w) := by
  have hread : w.read n = (.error (.fault (.unsupportedArchive feature)), w) := by
    simp only [read, hc, if_neg hn, hr]
  refine ⟨hread, ?_⟩
  rw [skip, readUpTo, if_neg hn, hread]

/-- Nothing is pending of an entry that is refused, and it fails for that reason. -/
lemma outlook_of_refusal {cur : Current} {feature : Feature} (hc : w.current = some cur)
    (hr : cur.entry.refusal = some feature) :
    w.pending = [] ∧ w.failure = some (.fault (.unsupportedArchive feature)) := by
  have hnil : w.pending = [] := by simp [pending, hc, hr]
  refine ⟨hnil, ?_⟩
  rw [failure, ← read_of_empty Nat.one_pos hnil, (read_skip_of_refusal hc hr Nat.one_ne_zero).1]

/-- At the first byte of a payload that can be read, the walk is midway. -/
lemma midway_begun {p : Part} (h : p.Honest) (hr : p.Readable) (more : Bytes) (regime : Regime) :
    Midway p more regime 0 (p.begun more regime) where
  le := Nat.zero_le _
  pending_eq := (h.delivers hr regime.verify).pending_begun more
  ending_eq := (h.delivers hr regime.verify).ending_begun more
  pass_eq := by
    intro j _
    rw [Nat.zero_add]

/-- Passing over bytes leaves the walk midway. -/
lemma midway_pass {p : Part} (h : p.Honest) (hr : p.Readable) {k : Nat} (hk : k ≤ p.data.length)
    (more : Bytes) (regime : Regime) : Midway p more regime k ((p.begun more regime).pass k) where
  le := hk
  pending_eq := by rw [pending_pass, (h.delivers hr regime.verify).pending_begun]
  ending_eq := by rw [ending_pass, (h.delivers hr regime.verify).ending_begun]
  pass_eq := by
    intro j _
    rw [pass_pass]

section Midway

variable {index offset n : Nat} {p : Part}

/-- Passing over bytes that are there leads to the place behind them. -/
lemma Midway.tracks_pass (hm : Midway p (c.bytesFrom (index + 1)) regime offset w)
    (hp : c.parts[index]? = some p) (hr : p.Readable) {j : Nat} (hj : 0 < j)
    (hle : offset + j ≤ p.data.length) :
    Tracks c regime (w.pass j) (.inside index (offset + j)) := by
  rw [hm.pass_eq j hj]
  exact .inside hp hr (by omega) hle

/-- The ending of a payload leads to the place behind its last byte. -/
lemma Midway.tracks_ending (hm : Midway p (c.bytesFrom (index + 1)) regime offset w)
    (hp : c.parts[index]? = some p) (hr : p.Readable) {j : Nat} (hj : offset + j = p.data.length) :
    Tracks c regime w.ending.2 (.inside index (offset + j)) := by
  rw [hm.ending_eq, hj]
  exact .finished hp hr

/-- A read delivers the bytes at the offset. -/
lemma Midway.read (hm : Midway p (c.bytesFrom (index + 1)) regime offset w)
    (hp : c.parts[index]? = some p) (hr : p.Readable) (hn : n ≠ 0) :
    (w.read n).1 = .ok ((p.data.drop offset).take n) ∧
      Tracks c regime (w.read n).2
        (.inside index (offset + ((p.data.drop offset).take n).length)) := by
  have hle := hm.le
  have hpos : 0 < n := Nat.pos_of_ne_zero hn
  have hlen : w.pending.length = p.data.length - offset := by rw [hm.pending_eq, List.length_drop]
  rw [← hm.pending_eq]
  by_cases hnil : w.pending = []
  · have hover : offset + 0 = p.data.length := by
      rw [hnil, List.length_nil] at hlen
      omega
    rw [read_of_empty hpos hnil, hnil, List.take_nil, List.length_nil]
    exact ⟨by rw [hm.ending_eq], hm.tracks_ending hp hr hover⟩
  · have hgot : (w.pending.take n).length = min n w.pending.length := List.length_take
    have hsome : 0 < w.pending.length := List.length_pos_of_ne_nil hnil
    rw [read_of_pending hpos hnil, ← pass_length_take]
    exact ⟨rfl, hm.tracks_pass hp hr (by omega) (by omega)⟩

/-- A skip passes over the bytes at the offset. -/
lemma Midway.skip (hm : Midway p (c.bytesFrom (index + 1)) regime offset w)
    (hp : c.parts[index]? = some p) (hr : p.Readable) (hn : n ≠ 0) :
    (w.skip n).1 = .ok ((p.data.drop offset).take n).length ∧
      Tracks c regime (w.skip n).2
        (.inside index (offset + ((p.data.drop offset).take n).length)) := by
  have hle := hm.le
  have hpos : 0 < n := Nat.pos_of_ne_zero hn
  have hlen : w.pending.length = p.data.length - offset := by rw [hm.pending_eq, List.length_drop]
  rw [← hm.pending_eq]
  by_cases henough : n ≤ w.pending.length
  · rw [skip_of_le hpos henough, List.length_take_of_le henough]
    exact ⟨rfl, hm.tracks_pass hp hr hpos (by omega)⟩
  · have hfail : w.failure = none := by rw [failure, hm.ending_eq]
    rw [skip_of_lt (by omega), hfail, List.take_of_length_le (by omega)]
    exact ⟨rfl, hm.tracks_ending hp hr (by omega)⟩

end Midway

/-- A walk that stays where it is goes along with a tour that does. -/
lemma Tracks.goesAlong (ht : Tracks c regime w t) {n : Nat} {r : Except IoError Bytes}
    (hread : w.read n = (r, w)) (hskip : w.skip n = (r.map List.length, w)) :
    GoesAlong c regime n w (r, t) where
  read_eq := by rw [hread]
  read_tracks := by rwa [hread]
  skip_eq := by rw [hskip]
  skip_tracks := by rwa [hskip]

/-- A walk midway goes along with a tour over the data. -/
lemma Midway.goesAlong {index offset n : Nat} {p : Part}
    (hm : Midway p (c.bytesFrom (index + 1)) regime offset w) (hp : c.parts[index]? = some p)
    (hr : p.Readable) (hn : n ≠ 0) :
    GoesAlong c regime n w (.ok ((p.data.drop offset).take n),
      .inside index (offset + ((p.data.drop offset).take n).length)) where
  read_eq := (hm.read hp hr hn).1
  read_tracks := (hm.read hp hr hn).2
  skip_eq := (hm.skip hp hr hn).1
  skip_tracks := (hm.skip hp hr hn).2

/-- Without an entry, nothing is read and nothing is passed over. -/
lemma Tracks.goesAlong_of_current_none (ht : Tracks c regime w t) (hc : w.current = none)
    (n : Nat) : GoesAlong c regime n w (.ok [], t) := by
  obtain ⟨hread, hskip⟩ := read_skip_of_current_none hc n
  exact ht.goesAlong hread hskip

/-- A tour over part of an entry. -/
lemma visit_inside {index offset n : Nat} {p : Part} (hp : c.parts[index]? = some p) (hn : n ≠ 0) :
    Tour.visit c.sights n (.inside index offset) = match p.refusal with
      | some feature => (.error (.fault (.unsupportedArchive feature)), .inside index offset)
      | none => (.ok ((p.data.drop offset).take n),
          .inside index (offset + ((p.data.drop offset).take n).length)) := by
  simp only [Tour.visit, HonestContainer.sights_getElem?, hp, Option.map_some, if_neg hn,
    Part.sight]

/-- Reading and passing over bytes lead walk and tour over the same ones. -/
lemma Tracks.visit (ht : Tracks c regime w t) (n : Nat) :
    GoesAlong c regime n w (t.visit c.sights n) := by
  by_cases hn : n = 0
  · subst hn
    rw [Tour.visit_zero]
    exact ht.goesAlong (read_zero w) (skip_zero w)
  · cases ht with
    | before index => exact (Tracks.before index).goesAlong_of_current_none rfl n
    | ended hplace hcurrent hp =>
      exact (Tracks.ended hplace hcurrent hp).goesAlong_of_current_none hcurrent n
    | begun hp =>
      -- Only here can the payload be one that is refused: nothing has been delivered of it.
      have hhonest := HonestContainer.honest_of_getElem? hp
      rw [visit_inside hp hn]
      cases hrefusal : Part.refusal _ with
      | some feature =>
        have hentry := Part.refusal_entry.trans hrefusal
        obtain ⟨hread, hskip⟩ := read_skip_of_refusal (w := Part.begun _ _ regime) rfl hentry hn
        exact (Tracks.begun hp).goesAlong hread hskip
      | none =>
        have hr := Part.refusal_eq_none_iff.mp hrefusal
        exact (midway_begun hhonest hr _ regime).goesAlong hp hr hn
    | inside hp hr hpos hle =>
      have hhonest := HonestContainer.honest_of_getElem? hp
      rw [visit_inside hp hn, Part.refusal_eq_none_iff.mpr hr]
      exact (midway_pass hhonest hr hle _ regime).goesAlong hp hr hn
    | finished hp hr =>
      rw [visit_inside hp hn, Part.refusal_eq_none_iff.mpr hr, List.drop_length, List.take_nil]
      exact (Tracks.finished hp hr).goesAlong_of_current_none rfl n

/-- One request: walk and tour give the same answer and are then at the same place. -/
lemma Tracks.answer (ht : Tracks c regime w t) (q : Request) :
    (w.answer q).1 = (t.answer c.sights q).1 ∧
      Tracks c regime (w.answer q).2 (t.answer c.sights q).2 := by
  cases q with
  | next =>
    obtain ⟨hrecord, ht'⟩ := ht.next
    exact ⟨congrArg Answer.entry hrecord, ht'⟩
  | close =>
    obtain ⟨w', hclose, -, ht'⟩ := ht.close
    have hanswer : w.answer .close = (.closed (.ok ()), w') := by rw [Walk.answer, hclose]
    rw [hanswer]
    exact ⟨rfl, ht'⟩
  | read n =>
    have ho := ht.visit n
    exact ⟨congrArg Answer.got ho.read_eq, ho.read_tracks⟩
  | skip n =>
    have ho := ht.visit n
    exact ⟨congrArg Answer.passed ho.skip_eq, ho.skip_tracks⟩

/-- Any requests: walk and tour give the same answers. -/
lemma Tracks.transcript (ht : Tracks c regime w t) (qs : List Request) :
    w.transcript qs = t.transcript c.sights qs := by
  induction qs generalizing w t with
  | nil => rfl
  | cons q qs ih =>
    obtain ⟨hanswer, ht'⟩ := ht.answer q
    rw [Walk.transcript, Tour.transcript, hanswer, ih ht']

/-- A walk through an honest container gives the answers of a tour of its entries, whatever is asked
of it and whether or not it verifies: entries come in their order, each read delivers and each skip
passes over the bytes at the offset, and however an entry is left, the next one comes after it. -/
theorem transcript_eq_tour (c : HonestContainer) (regime : Regime) (qs : List Request) :
    (start c.encode regime).transcript qs = Tour.transcript c.sights qs (.before 0) := by
  have ht : Tracks c regime (start c.encode regime) (.before 0) := .before 0
  exact ht.transcript qs

end Tracks

/-- A tour of three parts that leaves the first at its end, the second untouched and the third after
it has been refused. -/
theorem transcript_threeParts :
    (start HonestContainer.threeParts.encode true).transcript
        [.next, .skip 9, .next, .close, .read 1, .next, .read 1, .next, .next] =
      [.entry (.ok (some ⟨"a", some 1, some 1, 0xA505DF1B, .stored⟩)), .passed (.ok 1),
        .entry (.ok (some ⟨"b", none, none, 0, .deflated⟩)), .closed (.ok ()), .got (.ok []),
        .entry (.ok (some ⟨"c", some 2, some 2, 0, .stored⟩)),
        .got (.error (.fault (.unsupportedArchive (.encryption "c")))),
        .entry (.ok none), .entry (.ok none)] :=
  transcript_eq_tour HonestContainer.threeParts true _

end Walk

end ZipMount
