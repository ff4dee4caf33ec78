import ZipMount.Proofs.Database.Pages
import ZipMount.Proofs.Mount.Measure
import ZipMount.Proofs.Mount.Portions

/-!
# Reading a database file from front to back

A payload is compared with what is recorded for it when a walk meets its end, and a walk meets the end
only if it is asked for more than there is.  A call of a database engine asks for no more than its
amount.  So calls that cover a file from front to back never have the payload compared if they stop at
the last byte: every one of them succeeds and delivers its bytes, whatever checksum is recorded
(`readsAt_mismatched`).

`readsAt_consecutive` says what such calls amount to.  Up to the last byte they deliver the pending
bytes.  If they go on behind it and none of them fails, the bytes are the data of the part that stands
at this place in the container, as its descriptor or its header records it, and zeros follow them.
-/

namespace ZipMount

namespace Database

/-- A call inside a file delivers the bytes that stand there. -/
lemma pageOf_of_le {c : Contents} {k n : Nat} (h : k + n ≤ c.data.length) :
    pageOf c n k = (.ok, (c.data.drop k).take n) := by
  have hover : ¬ (c.failure.isSome ∧ (0 : Int) < n ∧ (0 : Int) ≤ k ∧
      (c.data.length : Int) < k + n) := by omega
  have hneg : ¬ ((n : Int) < 0 ∨ (k : Int) < 0) := by omega
  have hfull : (n : Int) = 0 ∨ (k : Int) + n ≤ c.data.length := by omega
  rw [pageOf, if_neg hover, page, if_neg hneg, if_pos hfull, Int.toNat_natCast, Int.toNat_natCast]

/-- A call that goes behind the last byte of a file with a failure meets it. -/
lemma pageOf_of_failure {c : Contents} {k n : Nat} (hf : c.failure.isSome = true) (hn : 0 < n)
    (h : c.data.length < k + n) : pageOf c n k = (.readFailed, []) := by
  have hover : c.failure.isSome ∧ (0 : Int) < n ∧ (0 : Int) ≤ k ∧
      (c.data.length : Int) < k + n := ⟨hf, by omega, by omega, by omega⟩
  rw [pageOf, if_pos hover]

/-- A page is a stretch of the data with zeros behind it. -/
lemma page_eq_stretch {data : Bytes} {k n z : Nat} (hz : k + n ≤ data.length + z) :
    (page data n k).2 = ((data ++ List.replicate z 0).drop k).take n := by
  have hneg : ¬ ((n : Int) < 0 ∨ (k : Int) < 0) := by omega
  rw [page, if_neg hneg, Int.toNat_natCast, Int.toNat_natCast]
  split
  next hfull =>
    dsimp only
    rw [List.drop_append, List.take_append, List.length_drop]
    by_cases hn : n = 0
    · simp [hn]
    · have hzero : n - (data.length - k) = 0 := by omega
      rw [hzero, List.take_zero, List.append_nil]
  next hfull =>
    dsimp only
    have hall : (data.drop k).length ≤ n := by
      rw [List.length_drop]
      omega
    rw [List.drop_append, List.take_append, List.take_of_length_le hall, List.drop_replicate,
      List.take_replicate, List.length_drop]
    congr 2
    omega

/-- Calls that cover the stretch from `start` to `stop` in order and without a gap. -/
inductive Consecutive : Nat → List (Int × Int) → Nat → Prop
  | nil (k : Nat) : Consecutive k [] k
  | cons {k n stop : Nat} {calls : List (Int × Int)} (hn : 0 < n)
      (rest : Consecutive (k + n) calls stop) : Consecutive k ((↑n, ↑k) :: calls) stop

namespace Consecutive

variable {k stop : Nat} {calls : List (Int × Int)} {c : Contents}

/-- Calls do not go back. -/
lemma le (h : Consecutive k calls stop) : k ≤ stop := by
  induction h with
  | nil k => exact Nat.le_refl k
  | cons hn rest ih => omega

/-- Calls that stay inside a file succeed and deliver the bytes of the stretch, whatever would come
behind the last one. -/
lemma answers_of_le (h : Consecutive k calls stop) (hstop : stop ≤ c.data.length) :
    (∀ call ∈ calls, (pageOf c call.1 call.2).1 = .ok) ∧
      calls.flatMap (fun call => (pageOf c call.1 call.2).2) = (c.data.drop k).take (stop - k) := by
  induction h with
  | nil k =>
    refine ⟨fun call hcall => absurd hcall List.not_mem_nil, ?_⟩
    rw [Nat.sub_self, List.take_zero, List.flatMap_nil]
  | @cons k n stop calls hn rest ih =>
    have hle := rest.le
    have hpage := pageOf_of_le (c := c) (k := k) (n := n) (by omega)
    obtain ⟨hok, hbytes⟩ := ih hstop
    refine ⟨fun call hcall => ?_, ?_⟩
    · rcases List.mem_cons.mp hcall with rfl | hcall
      · rw [hpage]
      · exact hok call hcall
    · have hsplit : stop - k = n + (stop - (k + n)) := by omega
      rw [List.flatMap_cons, hbytes, hpage, hsplit, List.take_add, List.drop_drop]

/-- Calls that go behind the last byte of a file with a failure meet it. -/
lemma exists_readFailed (h : Consecutive k calls stop) (hk : k ≤ c.data.length)
    (hstop : c.data.length < stop) (hf : c.failure.isSome) :
    ∃ call ∈ calls, (pageOf c call.1 call.2).1 = .readFailed := by
  induction h with
  | nil k => omega
  | @cons k n stop calls hn rest ih =>
    by_cases hle : k + n ≤ c.data.length
    · obtain ⟨call, hcall, hfailed⟩ := ih hle hstop
      exact ⟨call, List.mem_cons_of_mem _ hcall, hfailed⟩
    · exact ⟨(↑n, ↑k), List.mem_cons_self, by rw [pageOf_of_failure hf hn (by omega)]⟩

/-- Calls on a file without a failure deliver the stretch with zeros behind the data. -/
lemma answers_of_none (h : Consecutive k calls stop) (hf : c.failure = none) {z : Nat}
    (hz : stop ≤ c.data.length + z) :
    calls.flatMap (fun call => (pageOf c call.1 call.2).2) =
      ((c.data ++ List.replicate z 0).drop k).take (stop - k) := by
  obtain ⟨data, failure, length⟩ := c
  obtain rfl : failure = none := hf
  induction h with
  | nil k => rw [Nat.sub_self, List.take_zero, List.flatMap_nil]
  | @cons k n stop calls hn rest ih =>
    have hle := rest.le
    have hsplit : stop - k = n + (stop - (k + n)) := by omega
    rw [List.flatMap_cons, ih hz, pageOf_none, page_eq_stretch (z := z) (by dsimp only at hz; omega),
      hsplit, List.take_add, List.drop_drop]

end Consecutive

section Opened

variable [LawfulInflater]

/-- A file that is opened is fed by the walks for an entry. -/
lemma exists_openEntry_of_openFile {m : Mount} {host : Host} {name : Bytes} {flags : BitVec 32}
    {f : File} (h : openFile (some m) host (some name) flags = (.ok, some f)) :
    ∃ text r w, Utf8.decode? name = some text ∧ m.locate host ⟨text⟩ = .ok (some (r, w)) ∧
      f = ⟨m, some (Handle.ofStream ⟨text⟩ w (m.size host ⟨text⟩) m.settings.skipBufferSize)⟩ := by
  unfold openFile at h
  rw [Option.bind_some] at h
  cases htext : Utf8.decode? name with
  | none =>
    rw [htext] at h
    cases h
  | some text =>
    rw [htext] at h
    dsimp only at h
    by_cases hflags : flags &&& mainDatabase = 0
    · rw [if_pos hflags] at h
      cases h
    · rw [if_neg hflags] at h
      cases hopen : m.openPath host ⟨text⟩ .read with
      | error e =>
        rw [hopen] at h
        cases h
      | ok handle =>
        rw [hopen] at h
        cases h
        obtain ⟨w, hw, rfl⟩ := Mount.openPath_eq_ok hopen
        obtain ⟨r, hr⟩ := Mount.openEntry_eq_ok_iff.mp hw
        exact ⟨text, r, w, rfl, hr, rfl⟩

namespace File

/-- The answers of a file that is opened are settled by what lies ahead of the walk to its entry. -/
lemma readsAt_of_openFile {m : Mount} {host : Host} {text : String} {r : Record} {w : Walk}
    (hl : m.locate host ⟨text⟩ = .ok (some (r, w))) (length skipBuffer : Nat)
    (calls : List (Int × Int)) :
    readsAt host calls ⟨m, some (Handle.ofStream ⟨text⟩ w length skipBuffer)⟩ =
      calls.map fun call => pageOf ⟨w.pending, w.failure, length⟩ call.1 call.2 := by
  have hopen : m.openEntry host ⟨text⟩ = .ok w := Mount.openEntry_eq_ok_iff.mpr ⟨r, hl⟩
  have hstart : (Mount.service host w).consumed w 0 := ⟨Nat.zero_le _, rfl, rfl⟩
  have hserves : Serves m ⟨text⟩ (Mount.service host w) length
      ⟨m, some (Handle.ofStream ⟨text⟩ w length skipBuffer)⟩ :=
    ⟨rfl, _, rfl, Handle.follows_ofStream hstart ⟨text⟩ length skipBuffer⟩
  exact hserves.readsAt_eq (Mount.source_definite hopen) rfl calls

/-- Calls that cover a file from its first byte on.  As long as they stop at the last byte, all of them
succeed and deliver the bytes, and nothing is said of what is recorded for these.  If they go behind
the last byte and none of them fails, the bytes are delivered with zeros behind them, and they are the
data of the part that stands in the container where the entry was found; its descriptor, or its header
if it has none, records their length and their checksum. -/
theorem readsAt_consecutive {m : Mount} {host : Host} {name : Bytes} {flags : BitVec 32} {f : File}
    (hverify : m.settings.verifyChecksums = true)
    (hopen : openFile (some m) host (some name) flags = (.ok, some f)) :
    ∃ text r w, Utf8.decode? name = some text ∧ m.locate host ⟨text⟩ = .ok (some (r, w)) ∧
      ∀ calls stop, Consecutive 0 calls stop →
        (stop ≤ w.pending.length →
          (∀ a ∈ f.readsAt host calls, a.1 = .ok) ∧
            (f.readsAt host calls).flatMap Prod.snd = w.pending.take stop) ∧
        (w.pending.length < stop → (∀ a ∈ f.readsAt host calls, a.1 ≠ .readFailed) →
          (f.readsAt host calls).flatMap Prod.snd =
              w.pending ++ List.replicate (stop - w.pending.length) 0 ∧
            ∃ (container : Bytes) (p : Part) (more : Bytes),
              host.files.read ((VirtualPath.mk text).container host.environment) = .ok container ∧
                p.encode ++ more <:+ container ∧ w = p.begun more (m.regime container.length) ∧
                p.Headed ∧ p.Delivers true ∧ p.record = r ∧ p.data = w.pending ∧ p.Recorded) := by
  obtain ⟨text, r, w, htext, hlocate, rfl⟩ := exists_openEntry_of_openFile hopen
  refine ⟨text, r, w, htext, hlocate, fun calls stop hcalls => ?_⟩
  rw [readsAt_of_openFile hlocate]
  simp only [List.forall_mem_map, List.flatMap_map]
  refine ⟨fun hstop => ?_, fun hstop hnot => ?_⟩
  · obtain ⟨hok, hbytes⟩ := hcalls.answers_of_le
      (c := ⟨w.pending, w.failure, m.size host ⟨text⟩⟩) hstop
    refine ⟨hok, ?_⟩
    rw [hbytes, List.drop_zero, Nat.sub_zero]
  · have hfailure : w.failure = none := by
      cases hf : w.failure with
      | none => rfl
      | some e =>
        obtain ⟨call, hcall, hfailed⟩ := hcalls.exists_readFailed
          (c := ⟨w.pending, w.failure, m.size host ⟨text⟩⟩) (Nat.zero_le _) hstop (by rw [hf]; rfl)
        exact absurd hfailed (hnot call hcall)
    refine ⟨?_, ?_⟩
    · have hlen : (w.pending ++ List.replicate (stop - w.pending.length) (0 : UInt8)).length ≤
          stop := by
        rw [List.length_append, List.length_replicate]
        omega
      rw [hcalls.answers_of_none (c := ⟨w.pending, w.failure, m.size host ⟨text⟩⟩) hfailure
        (z := stop - w.pending.length) (by dsimp only; omega), List.drop_zero, Nat.sub_zero,
        List.take_of_length_le hlen]
    · obtain ⟨container, p, more, hread, hplace, hw, hheaded, hdelivers, hrecord, hdata⟩ :=
        Mount.exists_part_of_locate hverify hlocate hfailure
      exact ⟨container, p, more, hread, hplace, hw, hheaded, hdelivers, hrecord, hdata,
        hdelivers.recorded rfl⟩

end File

end Opened

namespace File

/-- A container of one stored entry of three bytes with a checksum that is not theirs. -/
def mismatchedContainer : Bytes :=
  LocalHeader.encode ⟨20, 0, 0, 0, 0, 0, 3, 3, [97], []⟩ ++ [5, 6, 7]

/-- The walk at the entry with the wrong checksum. -/
def mismatchedWalk : Walk where
  place := .atPayload [5, 6, 7]
  current := some (Current.untouched ⟨"a", .stored, some 3, some 3, some 0, none, none⟩)
  regime := Mount.standard.regime mismatchedContainer.length

/-- The entry with the wrong checksum is located, whose record has that checksum and the length. -/
lemma locate_mismatched :
    Mount.standard.locate (Host.withContainer mismatchedContainer) ⟨"zip2:z!a"⟩ =
      .ok (some (⟨"a", some 3, some 3, 0, .stored⟩, mismatchedWalk)) := by
  have hopen : Mount.standard.openContainer (Host.withContainer mismatchedContainer)
      ⟨"zip2:z!a"⟩ = .ok (Walk.start mismatchedContainer
        (Mount.standard.regime mismatchedContainer.length)) := by
    unfold Mount.openContainer
    rw [Host.read_container (by cbv)]
  have hnext : (Walk.start mismatchedContainer
      (Mount.standard.regime mismatchedContainer.length)).next =
      (.ok (some ⟨"a", some 3, some 3, 0, .stored⟩), mismatchedWalk) := by rfl
  exact Mount.locate_of_next hopen hnext (by cbv)

/-- The file of the entry with the wrong checksum opens. -/
lemma openFile_mismatched :
    openFile (some Mount.standard) (Host.withContainer mismatchedContainer)
        (some (Utf8.encode "zip2:z!a")) mainDatabase =
      (.ok, some ⟨Mount.standard, some (Handle.ofStream ⟨"zip2:z!a"⟩ mismatchedWalk 3 1024)⟩) := by
  have hhandle := Mount.openPath_of_locate (by cbv) locate_mismatched rfl .read
  unfold openFile
  rw [Option.bind_some, Utf8.decode?_encode]
  dsimp only
  rw [if_neg (by decide), hhandle]
  rfl

/-- A call for exactly the three bytes succeeds although their checksum is not the recorded one; a call
for one more byte fails. -/
theorem readsAt_mismatched :
    Mount.standard.settings.verifyChecksums = true ∧
      Mount.standard.locate (Host.withContainer mismatchedContainer) ⟨"zip2:z!a"⟩ =
        .ok (some (⟨"a", some 3, some 3, 0, .stored⟩, mismatchedWalk)) ∧
      ∃ f, openFile (some Mount.standard) (Host.withContainer mismatchedContainer)
          (some (Utf8.encode "zip2:z!a")) mainDatabase = (.ok, some f) ∧
        f.readsAt (Host.withContainer mismatchedContainer) [(3, 0)] = [(.ok, [5, 6, 7])] ∧
        crc32 [5, 6, 7] ≠ 0 ∧
        f.readsAt (Host.withContainer mismatchedContainer) [(4, 0)] = [(.readFailed, [])] := by
  have hpending : mismatchedWalk.pending = [5, 6, 7] := by rfl
  have hfailure : mismatchedWalk.failure.isSome = true := by decide +kernel
  have hwithin : ∀ failure, pageOf ⟨[5, 6, 7], failure, 3⟩ 3 0 = (.ok, [5, 6, 7]) :=
    fun failure => pageOf_of_le (c := ⟨[5, 6, 7], failure, 3⟩) (k := 0) (n := 3) (Nat.le_refl 3)
  have hbehind : ∀ failure : Option IoError, failure.isSome = true →
      pageOf ⟨[5, 6, 7], failure, 3⟩ 4 0 = (.readFailed, []) :=
    fun failure hf => pageOf_of_failure (c := ⟨[5, 6, 7], failure, 3⟩) (k := 0) (n := 4) hf
      (Nat.succ_pos 3) (Nat.lt_succ_self 3)
  refine ⟨rfl, locate_mismatched, _, openFile_mismatched, ?_, by decide +kernel, ?_⟩
  · rw [readsAt_of_openFile locate_mismatched, hpending, List.map_singleton, hwithin]
  · rw [readsAt_of_openFile locate_mismatched, hpending, List.map_singleton,
      hbehind _ hfailure]

/-- Calls for two bytes and for one cover the file, and deliver its bytes unchecked. -/
theorem readsAt_consecutive_mismatched :
    ∃ f, openFile (some Mount.standard) (Host.withContainer mismatchedContainer)
        (some (Utf8.encode "zip2:z!a")) mainDatabase = (.ok, some f) ∧
      (f.readsAt (Host.withContainer mismatchedContainer) [(2, 0), (1, 2)]).flatMap Prod.snd =
        [5, 6, 7] := by
  obtain ⟨text, r, w, htext, hlocate, hcalls⟩ := readsAt_consecutive rfl openFile_mismatched
  obtain rfl : "zip2:z!a" = text := Option.some.inj ((Utf8.decode?_encode _).symm.trans htext)
  rw [locate_mismatched] at hlocate
  cases hlocate
  have hconsecutive : Consecutive 0 [(2, 0), (1, 2)] 3 :=
    .cons (n := 2) (by decide) (.cons (n := 1) (by decide) (.nil 3))
  have hpending : mismatchedWalk.pending = [5, 6, 7] := by rfl
  refine ⟨_, openFile_mismatched, ?_⟩
  rw [((hcalls _ _ hconsecutive).1 (by rw [hpending]; decide)).2, hpending]
  rfl

end File

end Database

end ZipMount
