import ZipMount.Proofs.Inflater
import ZipMount.Proofs.Mount.Service

/-!
# Damage is never mistaken for the end

A damaged entry delivers some bytes and then fails.  After the failure its walk is nowhere, and a
walk that is nowhere answers like one at the end of a payload.  What keeps a handle from passing
this on is that it drops a stream whose call failed, so that the damage is met again from the first
byte.

`Handle.ReadsThrough` is one reading of an entry from front to back in pieces of any sizes, up to
its end or its first failure.  For a handle that has just been opened it comes to the pending bytes
and the failure of its walk (`readsThrough_eq`).  So if such a reading fails, the walks for the
entry never show an end (`read_of_damaged`).
-/

namespace ZipMount

namespace Handle

variable {ω σ : Type} {src : EntrySource ω σ}

/-- Reading front to back, in pieces of any positive sizes, delivers the given bytes and then meets
the end, or the given failure. -/
inductive ReadsThrough (src : EntrySource ω σ) : Handle σ → ω → Bytes → Option Error → Prop
  | ended {h h' : Handle σ} {w w' : ω} {n : Nat} (hn : 0 < n)
      (hr : h.read src n w = (.ok [], h', w')) : ReadsThrough src h w [] none
  | failed {h h' : Handle σ} {w w' : ω} {n : Nat} {e : Error} (hn : 0 < n)
      (hr : h.read src n w = (.error e, h', w')) : ReadsThrough src h w [] (some e)
  | delivered {h h' : Handle σ} {w w' : ω} {n : Nat} {got data : Bytes} {failure : Option Error}
      (hn : 0 < n) (hr : h.read src n w = (.ok got, h', w')) (hgot : got ≠ [])
      (rest : ReadsThrough src h' w' data failure) : ReadsThrough src h w (got ++ data) failure

/-- The handle holds a stream that is at the position. -/
structure InStep (s : σ) (h : Handle σ) : Prop where
  stream_eq : h.stream = some s
  streamPosition_eq : h.streamPosition = h.position

section InStep

variable {h h' : Handle σ} {s : σ} {n : Nat} {w w' : ω}

/-- A handle in step with its stream passes a read on to it. -/
lemma InStep.read_eq (hs : h.InStep s) (hn : 0 < n) (w : ω) :
    h.read src n w = match src.read n s w with
      | (.error e, _, w) => (.error (.io e), h.discard, w)
      | (.ok got, s, w) =>
        (.ok got,
          { h with
            stream := some s
            position := h.position + got.length
            streamPosition := h.streamPosition + got.length },
          w) := by
  obtain ⟨hstream, hat⟩ := hs
  have hsync : h.sync src w = (.ok (some s), h, w) := by
    simp [sync, revive, hstream, hat]
  have hne : n ≠ 0 := Nat.ne_of_gt hn
  rcases hr : src.read n s w with ⟨r, s', w'⟩
  cases r <;> simp [read, hne, hsync, hr]

/-- What the stream delivers, a handle in step delivers; and it stays in step. -/
lemma InStep.read_ok {got : Bytes} {s' : σ} (hs : h.InStep s) (hn : 0 < n)
    (hr : src.read n s w = (.ok got, s', w')) :
    ∃ h', h.read src n w = (.ok got, h', w') ∧ h'.InStep s' := by
  rw [hs.read_eq hn, hr]
  refine ⟨_, rfl, rfl, ?_⟩
  dsimp only
  rw [hs.streamPosition_eq]

/-- A failure of the stream is passed on. -/
lemma InStep.read_error {e : IoError} {s' : σ} (hs : h.InStep s) (hn : 0 < n)
    (hr : src.read n s w = (.error e, s', w')) :
    h.read src n w = (.error (.io e), h.discard, w') := by
  rw [hs.read_eq hn, hr]

/-- What a handle in step delivers, its stream has delivered; and it stays in step. -/
lemma InStep.of_read_ok {got : Bytes} (hs : h.InStep s) (hn : 0 < n)
    (hr : h.read src n w = (.ok got, h', w')) :
    ∃ s', src.read n s w = (.ok got, s', w') ∧ h'.InStep s' := by
  rw [hs.read_eq hn] at hr
  rcases hread : src.read n s w with ⟨r, s', w₁⟩
  rw [hread] at hr
  cases r with
  | error e => cases hr
  | ok got' =>
    cases hr
    refine ⟨s', rfl, rfl, ?_⟩
    dsimp only
    rw [hs.streamPosition_eq]

/-- The failure of a handle in step is that of its stream. -/
lemma InStep.of_read_error {e : Error} (hs : h.InStep s) (hn : 0 < n)
    (hr : h.read src n w = (.error e, h', w')) :
    ∃ e' s', src.read n s w = (.error e', s', w') ∧ e = .io e' := by
  rw [hs.read_eq hn] at hr
  rcases hread : src.read n s w with ⟨r, s', w₁⟩
  rw [hread] at hr
  cases r with
  | error e' =>
    cases hr
    exact ⟨e', s', rfl, rfl⟩
  | ok got => cases hr

end InStep

end Handle

namespace Mount

open Handle (Request ReadsThrough InStep)

section Damage

variable [Inflater] {m : Mount} {host : Host} {h : Handle Walk} {w : Walk}

/-- A reading of a handle in step is a straight read of its walk. -/
lemma exists_straight_of_readsThrough {data : Bytes} {failure : Option Error}
    (hr : h.ReadsThrough m.source host data failure) (hs : h.InStep w) :
    ∃ f, failure = f.map Error.io ∧ w.ReadsThrough data f := by
  induction hr generalizing w with
  | ended hn heq =>
    obtain ⟨w', hread, -⟩ := hs.of_read_ok hn heq
    exact ⟨none, rfl, .ended hn (source_read hread).1⟩
  | failed hn heq =>
    obtain ⟨e, w', hread, rfl⟩ := hs.of_read_error hn heq
    exact ⟨some e, rfl, .failed hn (source_read hread).1⟩
  | delivered hn heq hgot rest ih =>
    obtain ⟨w', hread, hs'⟩ := hs.of_read_ok hn heq
    obtain ⟨f, hf, hstraight⟩ := ih hs'
    exact ⟨f, hf, .delivered hn (source_read hread).1 hgot hstraight⟩

/-- A straight read of a walk is a reading of a handle in step with it. -/
lemma readsThrough_of_straight {data : Bytes} {f : Option IoError} (hr : w.ReadsThrough data f)
    (m : Mount) (host : Host) (hs : h.InStep w) :
    h.ReadsThrough m.source host data (f.map Error.io) := by
  induction hr generalizing h with
  | ended hn heq =>
    obtain ⟨h', hr, -⟩ := hs.read_ok hn (source_read_eq heq m host)
    exact .ended hn hr
  | failed hn heq =>
    exact .failed hn (hs.read_error hn (source_read_eq heq m host))
  | delivered hn heq hgot rest ih =>
    obtain ⟨h', hr, hs'⟩ := hs.read_ok hn (source_read_eq heq m host)
    exact .delivered hn hr hgot (ih hs')

/-- A reading from front to back delivers the pending bytes of the walk and comes to its failure. -/
lemma readsThrough_eq {data : Bytes} {failure : Option Error}
    (hr : h.ReadsThrough m.source host data failure) (hs : h.InStep w) :
    data = w.pending ∧ failure = w.failure.map Error.io := by
  obtain ⟨f, rfl, hstraight⟩ := exists_straight_of_readsThrough hr hs
  obtain ⟨hdata, hfail⟩ := hstraight.eq
  exact ⟨hdata, congrArg (Option.map Error.io) hfail⟩

/-- A handle in step can be read from front to back. -/
lemma readsThrough_of_inStep (m : Mount) (host : Host) (hs : h.InStep w) :
    h.ReadsThrough m.source host w.pending (w.failure.map Error.io) :=
  readsThrough_of_straight (Walk.readsThrough_pending w) m host hs

/-- A damaged entry never shows a clean end.  If one reading of it from front to back fails after
some bytes, then whatever is asked of any handle on it, a read that asks for something and succeeds
delivers at least one of these bytes, from the position of the handle on. -/
theorem read_of_damaged {p p' : VirtualPath} {mode mode' : OpenMode} {h' : Handle Walk}
    {data : Bytes} {e : Error} (ho : m.openPath host p mode = .ok h)
    (hr : h.ReadsThrough m.source host data (some e))
    (hc : p'.container host.environment = p.container host.environment)
    (hn : p'.entryName = p.entryName) (ho' : m.openPath host p' mode' = .ok h')
    (qs : List Request) {n : Nat} (hpos : 0 < n) {got : Bytes}
    (hgot : ((h'.after m.source qs host).1.read m.source n (h'.after m.source qs host).2).1 =
      .ok got) :
    got ≠ [] ∧ got <+: data.drop (h'.after m.source qs host).1.position := by
  obtain ⟨w, hw, rfl⟩ := openPath_eq_ok ho
  obtain ⟨w', hw', rfl⟩ := openPath_eq_ok ho'
  obtain rfl : w' = w := by
    rw [openEntry_congr hc hn hw] at hw'
    cases hw'
    rfl
  obtain ⟨rfl, hfail⟩ := readsThrough_eq hr ⟨rfl, rfl⟩
  have hends : ¬ (service host w').ends := by
    intro hnone
    have hnone : w'.failure = none := hnone
    rw [hnone] at hfail
    cases hfail
  have hkeeps := source_keeps hw'
  have hstart : (service host w').consumed w' 0 := ⟨Nat.zero_le _, rfl, rfl⟩
  have hf := Handle.follows_ofStream hstart p' (m.size host p') m.settings.skipBufferSize
  obtain ⟨hf', hhost⟩ := hf.after hkeeps rfl qs
  obtain ⟨hstep, -⟩ := hf'.read_step hkeeps hhost n
  rw [hgot] at hstep
  obtain ⟨hslice, hshown⟩ := hstep.of_read_ok hpos
  exact ⟨fun hnil => hends (hshown hnil), hslice⟩

end Damage

/-- A container of one stored entry, of two bytes where the header says three. -/
def damagedContainer : Bytes :=
  LocalHeader.encode ⟨20, 0, 0, 0, 0, 0, 2, 3, [97], []⟩ ++ [1, 2]

/-- A host with the damaged container. -/
def damagedHost : Host := ⟨⟨[(["z"], .file damagedContainer)]⟩, ⟨none, none⟩⟩

/-- The walk at the damaged entry. -/
def damagedWalk : Walk where
  place := .atPayload [1, 2]
  current := some (Current.untouched ⟨"a", .stored, some 3, some 2, some 0, none, none⟩)
  regime := standard.regime damagedContainer.length

/-- A reading of the damaged entry delivers both of its bytes and fails; the second byte is what a
read after the first byte delivers. -/
theorem read_of_damaged_second :
    (Handle.ofStream ⟨"zip2:z!a"⟩ damagedWalk 3 1024).ReadsThrough standard.source damagedHost
        [1, 2] (some (.io (.fault (.invalidArchive (.length "a" 3 2))))) ∧
      ([2] : Bytes) ≠ [] ∧ ([2] : Bytes) <+: ([1, 2] : Bytes).drop 1 := by
  have hopen : standard.openContainer damagedHost ⟨"zip2:z!a"⟩ =
      .ok (Walk.start damagedContainer (standard.regime damagedContainer.length)) := by
    have hread : damagedHost.files.read "z" = .ok damagedContainer := by cbv
    have hcont : (⟨"zip2:z!a"⟩ : VirtualPath).container ⟨none, none⟩ = "z" := by cbv
    have henv : damagedHost.environment = ⟨none, none⟩ := rfl
    unfold openContainer
    rw [henv, hcont, hread]
  have hname : (⟨"zip2:z!a"⟩ : VirtualPath).entryName = "a" := by cbv
  have hnext : (Walk.start damagedContainer (standard.regime damagedContainer.length)).next =
      (.ok (some ⟨"a", some 3, some 2, 0, .stored⟩), damagedWalk) := by rfl
  have hlocate := locate_of_next hopen hnext hname.symm
  have hhandle := openPath_of_locate (by cbv) hlocate rfl .read
  have hreads : (Handle.ofStream ⟨"zip2:z!a"⟩ damagedWalk 3 1024).ReadsThrough standard.source
      damagedHost [1, 2] (some (.io (.fault (.invalidArchive (.length "a" 3 2))))) := by
    have hpend : damagedWalk.pending = [1, 2] := by rfl
    have hfail : damagedWalk.failure = some (.fault (.invalidArchive (.length "a" 3 2))) := by rfl
    have hall := readsThrough_of_inStep standard damagedHost
      (h := Handle.ofStream ⟨"zip2:z!a"⟩ damagedWalk 3 1024) (w := damagedWalk) ⟨rfl, rfl⟩
    rwa [hpend, hfail] at hall
  refine ⟨hreads, ?_⟩
  exact read_of_damaged hhandle hreads rfl rfl hhandle [.read 1] (n := 4) (by decide) (by rfl)

end Mount

end ZipMount
