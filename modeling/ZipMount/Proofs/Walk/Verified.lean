import ZipMount.Proofs.Walk.Scan
import ZipMount.Proofs.Walk.Tour

/-!
# What is read to its end is verified

A walk that verifies may be asked for anything in any order, and delivers, passes over or discards
the bytes of a payload in pieces of any sizes.  `Walk.Run` is such a run in which no call has
failed; refusals to read are no failures.  It keeps account of the bytes taken from the current
entry and of where in the container the header of the entry begins.

The main statement is `verified_of_meetsEnd`: a call that comes to the end of a payload without an
error has taken, together with the calls before it, the data of a part that stands at this place in
the container, and the data has the recorded length and checksum.  `Located` is the invariant of a
run: the walk is at a header or behind one, and behind a header the bytes taken are the first of
those that were pending at the first byte of the payload.
-/

namespace ZipMount

/-- A walk that verifies, with the given cuts. -/
abbrev Regime.verifying (s : Slicing) : Regime := ⟨true, s⟩

namespace Walk

/-- The failure that an answer reports, if it does. -/
def Answer.failure : Answer → Option Error
  | .entry (.error e) | .closed (.error e) => some e
  | .got (.error e) | .passed (.error e) => some (.io e)
  | _ => none

/-- The bytes that a request takes from the payload of the current entry: those that it delivers,
passes over by decoding them, or discards. -/
def takes [Inflater] (w : Walk) : Request → Bytes
  | .read n =>
    match (w.read n).1 with
    | .ok got => got
    | .error _ => []
  | .skip n => (w.readUpTo n).1.1
  | .close | .next => if w.passesOver then [] else w.readAll.1.1

/-- The bytes from the header of the current entry on, after a request. -/
def textAfter [Inflater] (w : Walk) (text : Bytes) : Request → Bytes
  | .next => w.close.2.place.rest?.getD []
  | _ => text

/-- The bytes taken from the current entry, after a request. -/
def takenAfter [Inflater] (w : Walk) (taken : Bytes) : Request → Bytes
  | .next => []
  | q => taken ++ w.takes q

/-- The request does not fail, except that a payload that cannot be read is refused. -/
inductive Proceeds [Inflater] (w : Walk) : Request → Prop
  | answered {q : Request} (h : (w.answer q).1.failure = none) : Proceeds w q
  | readRefused {n : Nat} {c : Current} {feature : Feature} (hc : w.current = some c)
      (hr : c.entry.refusal = some feature) : Proceeds w (.read n)
  | skipRefused {n : Nat} {c : Current} {feature : Feature} (hc : w.current = some c)
      (hr : c.entry.refusal = some feature) : Proceeds w (.skip n)

/-- A verifying walk through a container that has not failed yet, with the bytes from the header of
its current entry on and the bytes taken from that entry. -/
inductive Run [Inflater] (s : Slicing) (container : Bytes) : Walk → Bytes → Bytes → Prop
  | start : Run s container (Walk.start container (.verifying s)) container []
  | step {w : Walk} {text taken : Bytes} {q : Request} (run : Run s container w text taken)
      (h : w.Proceeds q) :
      Run s container (w.answer q).2 (w.textAfter text q) (w.takenAfter taken q)

/-- The request comes to the end of the payload and succeeds: a read delivers nothing, a skip falls
short, or the entry is left by decoding what is left of it. -/
def MeetsEnd [Inflater] (w : Walk) : Request → Prop
  | .read n => 0 < n ∧ (w.read n).1 = .ok []
  | .skip n => ∃ k, k < n ∧ (w.skip n).1 = .ok k
  | .close => w.passesOver = false ∧ w.close.1 = .ok ()
  | .next => w.passesOver = false ∧ ∃ r, w.next.1 = .ok r

/-- The request asks for more than is pending. -/
def GoesToEnd [Inflater] (w : Walk) : Request → Prop
  | .read n => 0 < n ∧ w.pending = []
  | .skip n => w.pending.length < n
  | .close | .next => w.passesOver = false

/-- At the given place in the container stands a part for which the current entry was found, and
the given data is its data, of the length and the checksum recorded for it. -/
def Verified [Inflater] (container text : Bytes) (c : Current) (data : Bytes) : Prop :=
  text <:+ container ∧ ∃ (p : Part) (more : Bytes), p.Headed ∧ p.Delivers true ∧
    text = p.encode ++ more ∧ p.entry = c.entry ∧ p.data = data ∧
    data.length = p.recordedLength ∧ (crc32 data).toNat = p.recordedCrc

/-! ## Inside a payload -/

/-- The walk is where `v` leads by passing over the given number of pending bytes. -/
inductive Reached [Inflater] (v : Walk) : Nat → Walk → Prop
  | front : Reached v 0 v
  | inside {k : Nat} (hpos : 0 < k) (hle : k ≤ v.pending.length) : Reached v k (v.pass k)

/-- Where a run is: beyond the entries, at a header, or behind one.  Behind a header, the bytes taken
are the first of those that were pending there. -/
inductive Located [Inflater] (s : Slicing) (container : Bytes) : Walk → Bytes → Bytes → Prop
  | done {w : Walk} {text taken : Bytes} (hplace : w.place = .ended) (hcurrent : w.current = none) :
      Located s container w text taken
  | header {rest text taken : Bytes} (hs : rest <:+ container) :
      Located s container (start rest (.verifying s)) text taken
  | within {p : Part} {rest : Bytes} {k : Nat} {w : Walk} (hp : p.Headed)
      (hs : p.header.encode ++ rest <:+ container)
      (hw : Reached (p.behindHeader rest (.verifying s)) k w) :
      Located s container w (p.header.encode ++ rest)
        ((p.behindHeader rest (.verifying s)).pending.take k)

section Runs

variable [LawfulInflater] {s : Slicing}

section Reached

variable {v w : Walk} {k j : Nat}

/-- No more bytes are passed over than were pending. -/
lemma Reached.le (h : Reached v k w) : k ≤ v.pending.length := by
  cases h with
  | front => exact Nat.zero_le _
  | inside hpos hle => exact hle

/-- The other bytes are still pending. -/
lemma Reached.pending_eq (h : Reached v k w) : w.pending = v.pending.drop k := by
  cases h with
  | front => rw [List.drop_zero]
  | inside hpos hle => rw [pending_pass]

/-- The payload still ends the same way. -/
lemma Reached.ending_eq (h : Reached v k w) : w.ending = v.ending := by
  cases h with
  | front => rfl
  | inside hpos hle => rw [ending_pass]

/-- The payload still ends with the same failure, or with none. -/
lemma Reached.failure_eq (h : Reached v k w) : w.failure = v.failure := by
  rw [failure, failure, h.ending_eq]

/-- Passing over some of the other bytes leads on. -/
lemma Reached.pass (h : Reached v k w) (hj : 0 < j) (hle : j ≤ w.pending.length) :
    Reached v (k + j) (w.pass j) := by
  have hk := h.le
  rw [h.pending_eq, List.length_drop] at hle
  cases h with
  | front =>
    rw [Nat.zero_add]
    exact .inside hj (by omega)
  | inside hpos hk =>
    rw [pass_pass]
    exact .inside (by omega) (by omega)

/-- The bytes passed over and those that are pending are all there were. -/
lemma Reached.take_append_pending (h : Reached v k w) : v.pending.take k ++ w.pending = v.pending := by
  rw [h.pending_eq, List.take_append_drop]

end Reached

/-- A payload that does not fail is not refused. -/
lemma refusal_of_failure_none {w : Walk} {c : Current} (hc : w.current = some c)
    (hf : w.failure = none) : c.entry.refusal = none := by
  cases hr : c.entry.refusal with
  | none => rfl
  | some feature =>
    rw [(outlook_of_refusal hc hr).2] at hf
    cases hf

/-- A read that asks for something and succeeds delivers the next bytes, or meets an ending that is
no failure. -/
lemma read_cases {w : Walk} {n : Nat} {got : Bytes} (hn : 0 < n) (h : (w.read n).1 = .ok got) :
    (got = w.pending.take n ∧ got ≠ [] ∧ (w.read n).2 = w.pass got.length) ∨
      (got = [] ∧ w.pending = [] ∧ w.failure = none ∧ (w.read n).2 = w.ending.2) := by
  have hread : w.read n = (.ok got, (w.read n).2) := Prod.ext h rfl
  by_cases hgot : got = []
  · right
    subst hgot
    obtain ⟨hnil, hf, hw⟩ := of_read_nil hn hread
    exact ⟨rfl, hnil, hf, hw⟩
  · left
    obtain ⟨-, hnext, hw⟩ := of_read_got hn hread hgot
    refine ⟨hnext, hgot, ?_⟩
    rw [hnext, pass_length_take, hw]

/-- A skip that asks for something and succeeds passes over as many bytes, or over all that are
pending and meets an ending that is no failure. -/
lemma skip_cases {w : Walk} {n j : Nat} (hn : 0 < n) (h : (w.skip n).1 = .ok j) :
    (j = n ∧ n ≤ w.pending.length ∧ w.takes (.skip n) = w.pending.take n ∧
        (w.skip n).2 = w.pass n) ∨
      (j < n ∧ w.failure = none ∧ w.takes (.skip n) = w.pending ∧
        (w.skip n).2 = w.ending.2) := by
  by_cases hle : n ≤ w.pending.length
  · left
    rw [skip_of_le hn hle] at h ⊢
    cases h
    rw [takes, readUpTo_of_le hn hle]
    exact ⟨rfl, hle, rfl, rfl⟩
  · right
    have hlt : w.pending.length < n := Nat.lt_of_not_le hle
    rw [skip_of_lt hlt] at h ⊢
    cases hf : w.failure with
    | some e =>
      rw [hf] at h
      cases h
    | none =>
      rw [hf] at h
      cases h
      rw [takes, readUpTo_of_lt hlt]
      exact ⟨hlt, rfl, rfl, rfl⟩

/-! ## The invariant of a run -/

/-- A header that has been found is that of a part, if its payload ends without a failure; and the
walk is then behind that part. -/
lemma exists_part_of_failure_none {p : Part} (h : p.Headed) {rest : Bytes}
    (hf : (p.behindHeader rest (.verifying s)).failure = none) :
    ∃ (q : Part) (more : Bytes), q.Headed ∧ q.Delivers true ∧
      p.header.encode ++ rest = q.encode ++ more ∧
      p.behindHeader rest (.verifying s) = q.begun more (.verifying s) ∧ q.entry = p.entry ∧
      q.data = (p.behindHeader rest (.verifying s)).pending ∧
      (p.behindHeader rest (.verifying s)).ending.2 = start more (.verifying s) := by
  have hr : p.entry.refusal = none :=
    refusal_of_failure_none (c := Current.untouched p.entry) rfl hf
  obtain ⟨payload, trailer, data, more, hd, rfl⟩ := h.exists_delivers hr hf
  refine ⟨p.fill payload trailer data, more, ⟨h.fits, h.names, h.sizes, h.delimited⟩, hd, ?_, rfl,
    rfl, ?_, ?_⟩
  · exact (Part.encode_append (p.fill payload trailer data) more).symm
  · rw [Part.behindHeader_fill, hd.pending_begun]
  · rw [Part.behindHeader_fill, hd.ending_begun]
    rfl

section Located

variable {container text taken : Bytes} {w : Walk}

/-- Behind a payload that ends without a failure is the next header. -/
lemma Reached.located_ending {p : Part} {rest : Bytes} {k : Nat}
    (hw : Reached (p.behindHeader rest (.verifying s)) k w) (hp : p.Headed)
    (hs : p.header.encode ++ rest <:+ container) (hf : w.failure = none) (text taken : Bytes) :
    ∃ more, more <:+ container ∧ w.ending.2 = start more (.verifying s) ∧
      Located s container w.ending.2 text taken := by
  rw [hw.failure_eq] at hf
  obtain ⟨q, more, -, -, htext, -, -, -, hend⟩ := exists_part_of_failure_none hp hf
  have hmore : more <:+ container := by
    rw [htext] at hs
    exact (List.suffix_append q.encode more).trans hs
  rw [hw.ending_eq, hend]
  exact ⟨more, hmore, rfl, .header hmore⟩

/-- Passing over pending bytes leads to a place behind the same header. -/
lemma Reached.located_pass {p : Part} {rest : Bytes} {k j : Nat}
    (hw : Reached (p.behindHeader rest (.verifying s)) k w) (hp : p.Headed)
    (hs : p.header.encode ++ rest <:+ container) (hj : 0 < j) (hle : j ≤ w.pending.length) :
    Located s container (w.pass j) (p.header.encode ++ rest)
      ((p.behindHeader rest (.verifying s)).pending.take k ++ w.pending.take j) := by
  have htake : (p.behindHeader rest (.verifying s)).pending.take k ++ w.pending.take j =
      (p.behindHeader rest (.verifying s)).pending.take (k + j) := by
    rw [hw.pending_eq, List.take_add]
  rw [htake]
  exact .within hp hs (hw.pass hj hle)

/-- The entry of a walk behind a header is the one that was found. -/
lemma Reached.exists_current {p : Part} {rest : Bytes} {k : Nat}
    (hw : Reached (p.behindHeader rest (.verifying s)) k w) :
    ∃ c, w.current = some c ∧ c.entry = p.entry ∧
      (c.produced = 0 → w = p.behindHeader rest (.verifying s)) := by
  cases hw with
  | front => exact ⟨Current.untouched p.entry, rfl, rfl, fun _ => rfl⟩
  | inside hpos hle =>
    refine ⟨_, rfl, rfl, fun hzero => ?_⟩
    simp only [Current.absorb, Current.untouched, List.length_take_of_le hle] at hzero
    omega

/-- Leaving an entry without passing over it by its size meets the end of its payload. -/
lemma Reached.close_of_passesOver {p : Part} {rest : Bytes} {k : Nat}
    (hw : Reached (p.behindHeader rest (.verifying s)) k w) (hover : w.passesOver = false)
    (hclose : w.close.1 = .ok ()) :
    w.failure = none ∧ w.close = (.ok (), w.ending.2) := by
  rcases hleft : w.close with ⟨r, u⟩
  rw [hleft] at hclose
  obtain rfl : r = .ok () := hclose
  cases leaves_of_close hleft with
  | nothing hnone =>
    obtain ⟨c, hc, -, -⟩ := hw.exists_current
    rw [hnone] at hc
    cases hc
  | passed hpassed =>
    rw [hover] at hpassed
    cases hpassed
  | ended _ _ _ hf => exact ⟨hf, rfl⟩


/-- Passing over an entry by its size leads to the next header. -/
lemma exists_of_close_behindHeader {p : Part} {rest : Bytes} {u : Walk} (hp : p.Headed)
    (h : (p.behindHeader rest (.verifying s)).close = (.ok (), u)) :
    ∃ more, more <:+ rest ∧ u = start more (.verifying s) := by
  obtain ⟨payload, trailer, data, more, hframed, rfl⟩ := hp.exists_framed h
  rw [Part.behindHeader_fill, hframed.close_begun] at h
  cases h
  refine ⟨more, ?_, rfl⟩
  exact (List.suffix_append _ more).trans (List.suffix_append _ _)

/-- Leaving an entry leads to the next header, or a run stays beyond the entries. -/
lemma Located.close (hl : Located s container w text taken) {u : Walk}
    (h : w.close = (.ok (), u)) :
    (u.place = .ended ∧ u.current = none) ∨
      ∃ rest, rest <:+ container ∧ u = start rest (.verifying s) := by
  cases hl with
  | done hplace hcurrent =>
    rw [close_of_current_none hcurrent] at h
    cases h
    exact .inl ⟨hplace, hcurrent⟩
  | header hs =>
    rw [close_of_current_none rfl] at h
    cases h
    exact .inr ⟨_, hs, rfl⟩
  | @within p rest k w hp hs hw =>
    right
    by_cases hover : w.passesOver = true
    · have hfront : w = p.behindHeader rest (.verifying s) := by
        obtain ⟨c, hc, -, hfront⟩ := hw.exists_current
        obtain ⟨c', size, ahead, hc', -, hzero, -⟩ := exists_of_passesOver hover
        obtain rfl : c = c' := Option.some.inj (hc.symm.trans hc')
        exact hfront hzero
      rw [hfront] at h
      obtain ⟨more, hmore, rfl⟩ := exists_of_close_behindHeader hp h
      exact ⟨more, hmore.trans ((List.suffix_append _ _).trans hs), rfl⟩
    · have hclose : w.close.1 = .ok () := by rw [h]
      obtain ⟨hf, hend⟩ := hw.close_of_passesOver (Bool.eq_false_iff.mpr hover) hclose
      obtain ⟨more, hmore, hstart, -⟩ := hw.located_ending hp hs hf [] []
      rw [hend] at h
      cases h
      exact ⟨more, hmore, hstart⟩

/-- Moving on leads behind the next header, or beyond the entries. -/
lemma Located.next (hl : Located s container w text taken) {r : Option Record}
    (h : w.next.1 = .ok r) :
    Located s container w.next.2 (w.textAfter text .next) (w.takenAfter taken .next) := by
  rcases hclose : w.close with ⟨closed, u⟩
  cases closed with
  | error e =>
    rw [Walk.next, hclose] at h
    cases h
  | ok _ =>
    have htext : w.textAfter text .next = u.place.rest?.getD [] := by rw [textAfter, hclose]
    rw [htext]
    rcases hl.close hclose with ⟨hplace, hcurrent⟩ | ⟨input, hs, rfl⟩
    · have hnext : w.next = (.ok none, { u with place := .ended }) := by
        rw [next_of_close hclose hcurrent, Walk.next, close_of_current_none hcurrent]
        dsimp only
        rw [hplace]
      rw [hnext]
      exact .done rfl hcurrent
    · rw [next_of_close hclose rfl] at h ⊢
      cases r with
      | none =>
        have hnext : (start input (.verifying s)).next.2 = ⟨.ended, none, .verifying s⟩ := by
          rw [next_start] at h ⊢
          split
          next => rfl
          next hne =>
            rw [if_neg hne] at h
            split
            next => rfl
            next => rfl
            next hsome =>
              rw [hsome] at h
              cases h
        rw [hnext]
        exact .done rfl rfl
      | some r =>
        obtain ⟨p, rest, hp, rfl, -, hv⟩ :=
          next_start_eq_some (v := (start input (.verifying s)).next.2) (Prod.ext h rfl)
        rw [hv]
        exact .within (k := 0) hp hs .front

/-- Without an entry, it does not matter what has been taken from the last one. -/
lemma Located.of_current_none (hl : Located s container w text taken) (hc : w.current = none)
    (text' taken' : Bytes) : Located s container w text' taken' := by
  cases hl with
  | done hplace hcurrent => exact .done hplace hcurrent
  | header hs => exact .header hs
  | within hp hs hw =>
    obtain ⟨c, hsome, -⟩ := hw.exists_current
    rw [hsome] at hc
    cases hc

/-- A read that succeeds takes what it delivers. -/
lemma Located.read (hl : Located s container w text taken) {n : Nat} {got : Bytes}
    (h : (w.read n).1 = .ok got) : Located s container (w.read n).2 text (taken ++ got) := by
  cases hc : w.current with
  | none =>
    rw [(read_skip_of_current_none hc n).1]
    exact hl.of_current_none hc text (taken ++ got)
  | some c =>
    by_cases hn : n = 0
    · subst hn
      rw [read_zero] at h ⊢
      cases h
      rwa [List.append_nil]
    · cases hl with
      | done hplace hcurrent =>
        rw [hcurrent] at hc
        cases hc
      | header hs => cases hc
      | within hp hs hw =>
        rcases read_cases (Nat.pos_of_ne_zero hn) h with
          ⟨hgot, hne, hafter⟩ | ⟨-, -, hf, hafter⟩
        · have htake : w.pending.take got.length = got := by
            rw [hgot, List.length_take, ← List.take_take, List.take_length]
          have hle : got.length ≤ w.pending.length := by
            rw [hgot]
            exact List.length_take_le' n w.pending
          have hpass := hw.located_pass hp hs (List.length_pos_of_ne_nil hne) hle
          rwa [htake, ← hafter] at hpass
        · obtain ⟨-, -, -, hend⟩ := hw.located_ending hp hs hf _ _
          rw [hafter]
          exact hend

/-- A skip that succeeds takes what it passes over. -/
lemma Located.skip (hl : Located s container w text taken) {n j : Nat} (h : (w.skip n).1 = .ok j) :
    Located s container (w.skip n).2 text (taken ++ w.takes (.skip n)) := by
  cases hc : w.current with
  | none =>
    rw [(read_skip_of_current_none hc n).2]
    exact hl.of_current_none hc text (taken ++ w.takes (.skip n))
  | some c =>
    by_cases hn : n = 0
    · subst hn
      rw [skip_zero, takes, readUpTo, if_pos rfl, List.append_nil]
      exact hl
    · cases hl with
      | done hplace hcurrent =>
        rw [hcurrent] at hc
        cases hc
      | header hs => cases hc
      | within hp hs hw =>
        have hpos : 0 < n := Nat.pos_of_ne_zero hn
        rcases skip_cases hpos h with ⟨-, hle, htakes, hafter⟩ | ⟨-, hf, htakes, hafter⟩
        · rw [htakes, hafter]
          exact hw.located_pass hp hs hpos hle
        · obtain ⟨-, -, -, hend⟩ := hw.located_ending hp hs hf _ _
          rw [hafter]
          exact hend

/-- A payload that is refused gives nothing, and the walk stays where it is. -/
lemma takes_of_refused {c : Current} {feature : Feature} (hc : w.current = some c)
    (hr : c.entry.refusal = some feature) (n : Nat) :
    w.takes (.read n) = [] ∧ (w.read n).2 = w ∧ w.takes (.skip n) = [] ∧ (w.skip n).2 = w := by
  by_cases hn : n = 0
  · subst hn
    rw [takes, takes, read_zero, skip_zero, readUpTo, if_pos rfl]
    exact ⟨rfl, rfl, rfl, rfl⟩
  · obtain ⟨hread, hskip⟩ := read_skip_of_refusal hc hr hn
    rw [takes, takes, hread, hskip, readUpTo, if_neg hn, hread]
    exact ⟨rfl, rfl, rfl, rfl⟩

/-- One request that proceeds: the run is located after it. -/
lemma Located.step (hl : Located s container w text taken) {q : Request} (hq : w.Proceeds q) :
    Located s container (w.answer q).2 (w.textAfter text q) (w.takenAfter taken q) := by
  cases hq with
  | @readRefused n c feature hc hr =>
    obtain ⟨htakes, hafter, -⟩ := takes_of_refused hc hr n
    simp only [answer, textAfter, takenAfter, htakes, hafter, List.append_nil]
    exact hl
  | @skipRefused n c feature hc hr =>
    obtain ⟨-, -, htakes, hafter⟩ := takes_of_refused hc hr n
    simp only [answer, textAfter, takenAfter, htakes, hafter, List.append_nil]
    exact hl
  | answered h =>
    cases q with
    | next =>
      cases hr : w.next.1 with
      | error e => simp [answer, hr, Answer.failure] at h
      | ok r => exact hl.next hr
    | close =>
      rcases hclose : w.close with ⟨r, u⟩
      cases r with
      | error e => simp [answer, hclose, Answer.failure] at h
      | ok _ =>
        have hafter : (w.answer .close).2 = u := by rw [answer, hclose]
        rw [hafter]
        rcases hl.close hclose with ⟨hplace, hcurrent⟩ | ⟨rest, hs, rfl⟩
        · exact .done hplace hcurrent
        · exact .header hs
    | read n =>
      cases hr : (w.read n).1 with
      | error e => simp [answer, hr, Answer.failure] at h
      | ok got =>
        have htakes : w.takes (.read n) = got := by rw [takes, hr]
        simp only [answer, textAfter, takenAfter, htakes]
        exact hl.read hr
    | skip n =>
      cases hr : (w.skip n).1 with
      | error e => simp [answer, hr, Answer.failure] at h
      | ok j => exact hl.skip hr

/-- A run is located at every moment. -/
lemma Run.located (hrun : Run s container w text taken) : Located s container w text taken := by
  induction hrun with
  | start => exact .header List.suffix_rfl
  | step run h ih => exact ih.step h

end Located

/-! ## The ends of payloads -/

section Ends

variable {container text taken : Bytes} {w : Walk} {c : Current} {q : Request}

/-- A request that meets the end of a payload takes all that is pending, and the payload ends without
a failure. -/
lemma Reached.of_meetsEnd {p : Part} {rest : Bytes} {k : Nat}
    (hw : Reached (p.behindHeader rest (.verifying s)) k w) (hm : w.MeetsEnd q) :
    w.failure = none ∧ w.takes q = w.pending := by
  cases q with
  | read n =>
    obtain ⟨hn, hread⟩ := hm
    have htakes : w.takes (.read n) = [] := by rw [takes, hread]
    rcases read_cases hn hread with ⟨-, hne, -⟩ | ⟨-, hnil, hf, -⟩
    · exact absurd rfl hne
    · exact ⟨hf, by rw [htakes, hnil]⟩
  | skip n =>
    obtain ⟨j, hj, hskip⟩ := hm
    rcases skip_cases (by omega) hskip with ⟨rfl, -⟩ | ⟨-, hf, htakes, -⟩
    · omega
    · exact ⟨hf, htakes⟩
  | close =>
    obtain ⟨hover, hclose⟩ := hm
    refine ⟨(hw.close_of_passesOver hover hclose).1, ?_⟩
    simp [takes, hover, readAll_eq]
  | next =>
    obtain ⟨hover, r, hnext⟩ := hm
    have hclose : w.close.1 = .ok () := by
      rcases hclose : w.close with ⟨closed, u⟩
      cases closed with
      | error e =>
        rw [Walk.next, hclose] at hnext
        cases hnext
      | ok _ => rfl
    refine ⟨(hw.close_of_passesOver hover hclose).1, ?_⟩
    simp [takes, hover, readAll_eq]

/-- A request that asks for more than is pending meets the end of the payload, or fails. -/
lemma GoesToEnd.meetsEnd (hg : w.GoesToEnd q) (h : (w.answer q).1.failure = none) :
    w.MeetsEnd q := by
  cases q with
  | read n =>
    obtain ⟨hn, hnil⟩ := hg
    cases hr : (w.read n).1 with
    | error e => simp [answer, hr, Answer.failure] at h
    | ok got =>
      obtain rfl : got = [] := read_of_empty_ok hn hnil hr
      exact ⟨hn, hr⟩
  | skip n =>
    have hlt : w.pending.length < n := hg
    cases hr : (w.skip n).1 with
    | error e => simp [answer, hr, Answer.failure] at h
    | ok j =>
      rcases skip_cases (by omega) hr with ⟨-, hle, -⟩ | ⟨hj, -⟩
      · omega
      · exact ⟨j, hj, hr⟩
  | close =>
    cases hr : w.close.1 with
    | error e => simp [answer, hr, Answer.failure] at h
    | ok _ => exact ⟨hg, hr⟩
  | next =>
    cases hr : w.next.1 with
    | error e => simp [answer, hr, Answer.failure] at h
    | ok r => exact ⟨hg, r, hr⟩

/-- Where a run is at an entry and meets the end of its payload, what has been taken is verified. -/
lemma Located.verified (hl : Located s container w text taken) (hc : w.current = some c)
    (hm : w.MeetsEnd q) : Verified container text c (taken ++ w.takes q) := by
  cases hl with
  | done hplace hcurrent =>
    rw [hcurrent] at hc
    cases hc
  | header hs => cases hc
  | @within p rest k w hp hs hw =>
    obtain ⟨hf, htakes⟩ := hw.of_meetsEnd hm
    obtain ⟨c', hc', hentry, -⟩ := hw.exists_current
    obtain rfl : c' = c := Option.some.inj (hc'.symm.trans hc)
    rw [hw.failure_eq] at hf
    obtain ⟨part, more, hheaded, hd, htext, -, hpart, hdata, -⟩ := exists_part_of_failure_none hp hf
    have hall : (p.behindHeader rest (.verifying s)).pending.take k ++ w.takes q = part.data := by
      rw [htakes, hw.take_append_pending, hdata]
    have hrecorded := hd.recorded rfl
    rw [hall]
    exact ⟨hs, part, more, hheaded, hd, htext, hpart.trans hentry.symm, rfl,
      hrecorded.length_eq, hrecorded.crc32_eq⟩

/-- What is decoded to its end is verified.  In a verifying walk through any container, whatever has
been asked of it and as long as nothing has failed: when a request meets the end of the payload of
the current entry, the bytes taken from the entry are the data of a part that stands at its header
in the container, of the recorded length and checksum; and where they are not, a request that goes
to the end fails. -/
theorem verified_of_meetsEnd (hrun : Run s container w text taken) (hc : w.current = some c)
    (q : Request) :
    (w.MeetsEnd q → Verified container text c (taken ++ w.takes q)) ∧
      (w.GoesToEnd q → ¬ Verified container text c (taken ++ w.takes q) →
        (w.answer q).1.failure ≠ none) :=
  ⟨hrun.located.verified hc, fun hg hv hnone => hv (hrun.located.verified hc (hg.meetsEnd hnone))⟩

end Ends

end Runs

/-- After its one byte has been read, leaving a stored entry meets the end of its payload, and the
byte is what is recorded. -/
theorem verified_stored :
    Run Slicing.whole Part.stored.encode ((Part.stored.begun [] true).pass 1) Part.stored.encode [1] ∧
      ((Part.stored.begun [] true).pass 1).MeetsEnd .close ∧
      Verified Part.stored.encode Part.stored.encode
        ((Current.untouched Part.stored.entry).absorb [1])
        ([1] ++ ((Part.stored.begun [] true).pass 1).takes .close) := by
  have hd : Part.stored.Delivers (true : Regime).verify :=
    Part.honest_stored.delivers (by decide) true
  have hpending : (Part.stored.begun [] true).pending = [1] := hd.pending_begun []
  have hfound : Run Slicing.whole Part.stored.encode (Part.stored.begun [] true) Part.stored.encode
      [] := by
    have hframed : Part.stored.Framed (true : Regime).verify := Part.honest_stored.framed true
    have hnext := hframed.next_start []
    rw [List.append_nil] at hnext
    have hanswer : (start Part.stored.encode true).answer .next =
        (.entry (.ok (some Part.stored.record)), Part.stored.begun [] true) := by
      rw [answer, hnext]
    have hstep := Run.start.step (q := .next) (.answered (by rw [hanswer]; rfl))
    rw [hanswer] at hstep
    exact hstep
  have hread : Run Slicing.whole Part.stored.encode ((Part.stored.begun [] true).pass 1)
      Part.stored.encode [1] := by
    have hanswer : (Part.stored.begun [] true).answer (.read 1) =
        (.got (.ok [1]), (Part.stored.begun [] true).pass 1) := by
      rw [answer, read_of_pending Nat.one_pos (by rw [hpending]; exact List.cons_ne_nil 1 []),
        hpending]
      rfl
    have htakes : (Part.stored.begun [] true).takes (.read 1) = [1] := by
      have hgot : ((Part.stored.begun [] true).read 1).1 = .ok [1] := by
        injection congrArg Prod.fst hanswer
      rw [takes, hgot]
    have htaken : (Part.stored.begun [] true).takenAfter [] (.read 1) = [1] := by
      show [] ++ (Part.stored.begun [] true).takes (.read 1) = [1]
      rw [htakes, List.nil_append]
    have hstep := hfound.step (q := .read 1) (.answered (by rw [hanswer]; rfl))
    rw [hanswer, htaken] at hstep
    exact hstep
  have hcurrent : ((Part.stored.begun [] true).pass 1).current =
      some ((Current.untouched Part.stored.entry).absorb [1]) := by
    rw [pass, hpending]
    rfl
  have hmeets : ((Part.stored.begun [] true).pass 1).MeetsEnd .close := by
    refine ⟨?_, ?_⟩
    · unfold passesOver
      rw [hcurrent]
      rfl
    · rw [hd.close_pass_begun Nat.one_pos (by decide)]
  exact ⟨hread, hmeets, (verified_of_meetsEnd hread hcurrent .close).1 hmeets⟩

end Walk

end ZipMount
