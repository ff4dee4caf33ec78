import ZipMount.Proofs.Mount.Damage
import ZipMount.Proofs.Mount.Lookup
import ZipMount.Proofs.Walk.Verified

/-!
# The size of an entry is the number of its bytes

The size of an entry and its bytes come from walks that know nothing of each other.  One believes the
header if it tells the size, and else counts what it passes over; the other decodes.  The header may
say anything, so the two agree only because a payload is compared with what is recorded for it before
its end is shown.

The bytes ahead of a walk that does not fail are the data of a part that stands in the container
(`exists_part_of_locate`), so a recorded size is that of the data, and one that is not recorded is
counted (`size_eq_pending`).  Reading a handle front to back to the end delivers all of these
bytes, whatever was asked of the handle before (`Handle.Follows.readsThrough`).
-/

namespace ZipMount

namespace Handle

variable {ω σ : Type} {src : EntrySource ω σ} {path : VirtualPath} {v : Service ω σ} {length : Nat}
  {h : Handle σ} {w : ω} {data : Bytes}

/-- Reading front to back to an end delivers all bytes from the position of the handle on. -/
lemma Follows.readsThrough (hv : src.Keeps path v) (hf : h.Follows v path length)
    (hw : v.world w) (hr : h.ReadsThrough src w data none) :
    data = v.data.drop h.position ∧ v.ends := by
  generalize hfailure : (none : Option Error) = failure at hr
  induction hr with
  | @ended h h' w w' n hn heq =>
    obtain ⟨hstep, -⟩ := hf.read_step hv hw n
    rw [heq] at hstep
    obtain ⟨-, -, hover, -⟩ := hstep.advance hn
    obtain ⟨-, hends⟩ := hstep.of_read_ok hn
    exact ⟨(List.drop_eq_nil_of_le (hover rfl)).symm, hends rfl⟩
  | failed => cases hfailure
  | @delivered h h' w w' n got data failure hn heq hgot rest ih =>
    obtain ⟨hstep, hf', hw'⟩ := hf.read_step hv hw n
    rw [heq] at hstep hf' hw'
    obtain ⟨-, hslice, -, hposition⟩ := hstep.advance hn
    obtain ⟨hdata, hends⟩ := ih hf' hw' hfailure
    have hposition : h'.position = h.position + got.length := hposition
    refine ⟨?_, hends⟩
    rw [hdata, hposition, ← List.drop_drop]
    exact (List.prefix_append_drop hslice).symm

end Handle

namespace Mount

open Handle (Request ReadsThrough)

section Size

variable [LawfulInflater] {m : Mount} {host : Host} {path : VirtualPath} {w : Walk}

/-- The entry of a path is found behind a header that is accepted and stands in the container. -/
lemma exists_headed_of_locate {r : Record} (h : m.locate host path = .ok (some (r, w))) :
    ∃ (container : Bytes) (p : Part) (rest : Bytes),
      host.files.read (path.container host.environment) = .ok container ∧
        p.header.encode ++ rest <:+ container ∧ p.Headed ∧ r = p.entry.record ∧
        w = p.behindHeader rest (m.regime container.length) := by
  obtain ⟨v, hopen, hfind⟩ := locate_eq_some_iff.mp h
  unfold openContainer at hopen
  rcases hread : host.files.read (path.container host.environment) with e | container
  · rw [hread] at hopen
    cases hopen
  · rw [hread] at hopen
    cases hopen
    obtain ⟨p, rest, hheaded, hplace, hrecord, -, hw⟩ := Walk.exists_headed_of_find hfind
    exact ⟨container, p, rest, rfl, hplace, hheaded, hrecord, hw⟩

/-- A mount that is to verify walks so. -/
lemma regime_eq_verifying (h : m.settings.verifyChecksums = true) (length : Nat) :
    m.regime length = .verifying (m.regime length).slicing := by
  rw [Regime.verifying, ← h]
  rfl

/-- An entry that is located and whose payload ends without a failure is a part that stands in the
container.  The walk is at its payload, and what is pending is its data, of the length and the checksum
that are recorded for it. -/
lemma exists_part_of_locate {r : Record} (hverify : m.settings.verifyChecksums = true)
    (hlocate : m.locate host path = .ok (some (r, w))) (hfailure : w.failure = none) :
    ∃ (container : Bytes) (p : Part) (more : Bytes),
      host.files.read (path.container host.environment) = .ok container ∧
        p.encode ++ more <:+ container ∧ w = p.begun more (m.regime container.length) ∧
        p.Headed ∧ p.Delivers true ∧ p.record = r ∧ p.data = w.pending := by
  obtain ⟨container, p, rest, hread, hplace, hheaded, rfl, rfl⟩ :=
    exists_headed_of_locate hlocate
  rw [regime_eq_verifying hverify] at hfailure ⊢
  obtain ⟨q, more, hq, hdelivers, htext, hbegun, hentry, hdata, -⟩ :=
    Walk.exists_part_of_failure_none hheaded hfailure
  rw [htext] at hplace
  refine ⟨container, q, more, hread, hplace, ?_, hq, hdelivers, ?_, hdata⟩
  · rw [hbegun, regime_eq_verifying hverify]
  · rw [← hdelivers.record_entry, hentry]

/-- The size of an entry whose payload ends without a failure is the number of pending bytes, whether
it is recorded or measured. -/
lemma size_eq_pending (hverify : m.settings.verifyChecksums = true)
    (hchunk : 0 < m.settings.sizeProbeChunk) (ho : m.openEntry host path = .ok w)
    (hf : w.failure = none) : m.size host path = w.pending.length := by
  obtain ⟨r, hlocate⟩ := openEntry_eq_ok_iff.mp ho
  rcases hd : r.declaredSize with _ | n
  · rw [size_of_measured hchunk hlocate hd, hf]
  · have hknown := knownSize_of_locate hlocate
    rw [hd] at hknown
    have hsize : m.size host path = n := size_of_knownSize hknown
    obtain ⟨-, p, -, -, -, -, -, hdelivers, rfl, hdata⟩ := exists_part_of_locate hverify hlocate hf
    -- A size is recorded in front of the payload, so no descriptor corrects it.
    have hlength := (hdelivers.recorded rfl).length_eq
    rw [hsize, ← hdata, hlength, Part.recordedLength]
    rw [Part.record] at hd
    dsimp only at hd
    rcases ht : p.trailer with _ | t
    · rw [ht] at hd
      exact (Option.some.inj hd).symm
    · rw [ht] at hd
      cases hd

/-- The size of an entry is what can be read of it.  If payloads are compared with what is recorded,
and reading a handle on the entry front to back comes to an end, whatever was asked of the handle
before and in pieces of whatever sizes, then the size of the path and the length of the handle are
the number of bytes read. -/
theorem size_of_readsThrough {s : Settings} {mode : OpenMode} {h h' : Handle Walk} {host' : Host}
    {data : Bytes} {qs : List Request} (hm : withSettings s = .ok m)
    (hverify : s.verifyChecksums = true) (ho : m.openPath host path mode = .ok h)
    (hqs : h.after m.source qs host = (h', host')) (hzero : h'.position = 0)
    (hr : h'.ReadsThrough m.source host' data none) :
    m.size host path = data.length ∧ h'.length = data.length := by
  obtain ⟨w, hw, rfl⟩ := openPath_eq_ok ho
  have hsettings : s = m.settings :=
    (Settings.checked_eq_ok_iff.mp (checked_of_withSettings hm)).1
  have hstart : (service host w).consumed w 0 := ⟨Nat.zero_le _, rfl, rfl⟩
  have hf := Handle.follows_ofStream hstart path (m.size host path) m.settings.skipBufferSize
  have hkeeps := source_keeps hw
  obtain ⟨hf', hhost⟩ := hf.after hkeeps rfl qs
  rw [hqs] at hf' hhost
  obtain ⟨hdata, hends⟩ := hf'.readsThrough hkeeps hhost hr
  have hpending : data = w.pending := by rw [hdata, hzero, List.drop_zero]; rfl
  have hsize : m.size host path = data.length := by
    rw [hpending]
    refine size_eq_pending ?_ (least_le_of_withSettings hm .sizeProbeChunk) hw hends
    rw [← hsettings, hverify]
  exact ⟨hsize, hf'.length_eq.trans hsize⟩

end Size

end Mount

/-- Three stored bytes behind a header that speaks of nine, with the right size in a descriptor. -/
def Part.overstated : Part where
  header := ⟨20, 2056, 0, 0, 0, 0, 3, 9, [97], []⟩
  payload := [5, 6, 7]
  trailer := some ⟨⟨0x31B429DC, 3, 3⟩, true⟩
  name := "a"
  uncompressed := 9
  compressed := 3
  data := [5, 6, 7]

/-- The three bytes are as their descriptor says. -/
lemma Part.honest_overstated : overstated.Honest := by
  have hf : overstated.header.Fits := by constructor <;> decide
  have ht : Trailer.Fits .four ⟨⟨0x31B429DC, 3, 3⟩, true⟩ := by
    constructor
    · constructor <;> decide
    · decide
  exact {
    fits := hf
    names := by unfold LocalHeader.Names; decide
    sizes := LocalHeader.sizes_of_unmarked hf (by decide)
    trailer_iff := by decide
    trailer_fits := fun t heq => by cases heq; exact ht
    payload_length := fun _ => rfl
    deflated := fun _ h => absurd h (by decide)
    decodes := fun _ => rfl
    data_length := fun _ => rfl
    data_crc32 := fun _ => by decide +kernel }

namespace Mount

open Handle (Request ReadsThrough)

/-- The size is counted two bytes at once, and is that of the three bytes that are read. -/
theorem size_of_overstated :
    ∃ h : Handle Walk, openPath ⟨{ Settings.standard with sizeProbeChunk := 2 }⟩
        (Host.withContainer Part.overstated.encode) ⟨"zip2:z!a"⟩ .read = .ok h ∧
      (h.setPosition 0).ReadsThrough (source ⟨{ Settings.standard with sizeProbeChunk := 2 }⟩)
        (Host.withContainer Part.overstated.encode) [5, 6, 7] none ∧
      size ⟨{ Settings.standard with sizeProbeChunk := 2 }⟩
        (Host.withContainer Part.overstated.encode) ⟨"zip2:z!a"⟩ = 3 ∧ h.length = 3 := by
  set m : Mount := ⟨{ Settings.standard with sizeProbeChunk := 2 }⟩ with hm
  set host := Host.withContainer Part.overstated.encode with hhost
  have hcontainer : (VirtualPath.mk "zip2:z!a").container host.environment = "z" := by
    have henv : host.environment = ⟨none, none⟩ := rfl
    rw [henv]
    cbv
  have hname : (VirtualPath.mk "zip2:z!a").entryName = "a" := by cbv
  have hroot : (VirtualPath.mk "zip2:z!a").isRoot = false := by
    rw [VirtualPath.isRoot, hname]
    rfl
  have hdelivers := Part.honest_overstated.delivers (by decide) m.settings.verifyChecksums
  have hfinds : m.Finds host ⟨"zip2:z!a"⟩ Part.overstated := by
    refine ⟨[Part.overstated], [], ?_, ?_, ?_⟩
    · rw [hcontainer, hhost, Host.read_withContainer, List.flatMap_singleton, List.append_nil]
    · intro q hq
      obtain rfl := List.mem_singleton.mp hq
      exact Part.honest_overstated.framed _
    · rw [hname]
      rfl
  obtain ⟨h, -, hopen, -⟩ := hfinds.exists_handle hdelivers hroot .read
  obtain ⟨w, hw, rfl⟩ := openPath_eq_ok hopen
  obtain ⟨more, length, hbegun⟩ := hfinds.openEntry_eq
  obtain rfl : _ = w := Except.ok.inj (hbegun.symm.trans hw)
  have hreads := readsThrough_of_inStep m host
    (h := Handle.ofStream ⟨"zip2:z!a"⟩ (Part.overstated.begun more (m.regime length))
      (m.size host ⟨"zip2:z!a"⟩) m.settings.skipBufferSize) ⟨rfl, rfl⟩
  have hpending : (Part.overstated.begun more (m.regime length)).pending = [5, 6, 7] :=
    hdelivers.pending_begun more
  have hfailure : (Part.overstated.begun more (m.regime length)).failure = none :=
    hdelivers.failure_begun more
  rw [hpending, hfailure] at hreads
  have hmade : withSettings { Settings.standard with sizeProbeChunk := 2 } = .ok m := by rfl
  have hback : ∀ h : Handle Walk, h.after m.source [.setPosition 0] host =
      (h.setPosition 0, host) := fun _ => rfl
  exact ⟨_, hopen, hreads, size_of_readsThrough hmade rfl hopen (hback _) rfl hreads⟩

end Mount

end ZipMount
