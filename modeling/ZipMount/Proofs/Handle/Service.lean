import Mathlib
import ZipMount.Handle.Rehearsal

/-!
# What a handle is served

A handle knows its streams only through the calls of an `EntrySource`.  `Service` says what such
streams serve: the bytes of the entry, whether a stream ever shows that they are over, and how many
of them a stream has handed over.  `EntrySource.Keeps` says that a source keeps to it: a call that
succeeds hands over the next bytes, at least one and at most as many as asked for, and none only at
an end that is shown.  Nothing is said about a call that fails, so it may leave its stream anywhere.

The second half says what the steps of a handle do over such streams: passing over a gap
(`skipForward_crosses`), finding a stream (`revive_follows`) and bringing it to the position
(`sync_follows`).  `Handle.Follows` is the invariant that carries them: the stream that is held has
handed over exactly `streamPosition` bytes.  Without a stream, `streamPosition` means nothing.
-/

namespace ZipMount

/-- What the streams of an entry serve. -/
structure Service (ω σ : Type) where
  /-- The bytes of the entry. -/
  data : Bytes
  /-- Whether a stream may show that the bytes are over. -/
  ends : Prop
  /-- The worlds in which the streams are as described. -/
  world : ω → Prop
  /-- Whether a stream has handed over the given number of bytes. -/
  consumed : σ → Nat → Prop

variable {ω σ : Type}

namespace EntrySource

/-- The errors with which a call for the entry of a path can fail. -/
inductive Fails (src : EntrySource ω σ) (path : VirtualPath) : Error → Prop
  | opening {e : Error} {w w' : ω} (h : src.openEntry path w = (.error e, w')) : Fails src path e
  | reading {e : IoError} {n : Nat} {s s' : σ} {w w' : ω}
      (h : src.read n s w = (.error e, s', w')) : Fails src path (.io e)
  | skipping {e : IoError} {n : Nat} {s s' : σ} {w w' : ω}
      (h : src.skip n s w = (.error e, s', w')) : Fails src path (.io e)

/-- The streams for the entry of a path are as a service says. -/
structure Keeps (src : EntrySource ω σ) (path : VirtualPath) (v : Service ω σ) : Prop where
  world_openEntry : ∀ {w r w'}, src.openEntry path w = (r, w') → v.world w → v.world w'
  world_read : ∀ {n s w r s' w'}, src.read n s w = (r, s', w') → v.world w → v.world w'
  world_skip : ∀ {n s w r s' w'}, src.skip n s w = (r, s', w') → v.world w → v.world w'
  /-- A stream begins at the first byte. -/
  openEntry : ∀ {w s w'}, src.openEntry path w = (.ok s, w') → v.world w → v.consumed s 0
  /-- A read hands over the next bytes, and none only at an end that is shown. -/
  read : ∀ {n s w got s' w' k}, src.read n s w = (.ok got, s', w') → v.world w → v.consumed s k →
    0 < n → got.length ≤ n ∧ got <+: v.data.drop k ∧ (got = [] → v.ends ∧ v.data.length ≤ k) ∧
      v.consumed s' (k + got.length)
  /-- A skip passes over the next bytes, and over none only at an end that is shown. -/
  skip : ∀ {n s w m s' w' k}, src.skip n s w = (.ok m, s', w') → v.world w → v.consumed s k →
    0 < n → m ≤ n ∧ k + m ≤ v.data.length ∧ (m = 0 → v.ends ∧ v.data.length ≤ k) ∧
      v.consumed s' (k + m)

end EntrySource

/-! ## Rehearsed streams keep to their bytes -/

namespace Rehearsal

/-- What the streams of a rehearsal serve: a stream is the bytes it has left. -/
def service (script : Script) : Service Rehearsal Bytes where
  data := script.data
  ends := True
  world w := w.script = script
  consumed left k := left = script.data.drop k ∧ k ≤ script.data.length

/-- A limit other than zero leaves something of a positive number. -/
lemma atMost_pos {limit : Option Nat} {n : Nat} (hl : limit ≠ some 0) (hn : 0 < n) :
    0 < atMost limit n := by
  cases limit with
  | none => exact hn
  | some l =>
    have hl' : 0 < l := Nat.pos_of_ne_zero fun h => hl (congrArg some h)
    exact lt_min hn hl'

/-- A limit only lowers a number. -/
lemma atMost_le (limit : Option Nat) (n : Nat) : atMost limit n ≤ n := by
  cases limit with
  | none => exact le_refl n
  | some l => exact min_le_left n l

/-- Bytes that begin a suffix are served as a stream at that suffix serves them. -/
lemma take_served {data : Bytes} {k a : Nat} (ha : 0 < a) (hk : k ≤ data.length) :
    k + ((data.drop k).take a).length ≤ data.length ∧
      (((data.drop k).take a).length = 0 → data.length ≤ k) ∧
      (data.drop k).drop ((data.drop k).take a).length =
        data.drop (k + ((data.drop k).take a).length) := by
  rw [List.drop_drop, List.length_take, List.length_drop]
  refine ⟨by omega, fun h => by omega, rfl⟩

/-- The streams of a rehearsal serve its bytes, whichever calls it makes fail, if every call that
does not fail may hand over something. -/
lemma source_keeps {script : Script} (hread : script.maxRead ≠ some 0)
    (hskip : script.maxSkip ≠ some 0) (path : VirtualPath) :
    (source script).Keeps path (service script) where
  world_openEntry := by
    intro w r w' h hw
    simp only [source, openEntry] at h
    split at h <;> (cases h; exact hw)
  world_read := by
    intro n left w r left' w' h hw
    simp only [source, read] at h
    split at h <;> (cases h; exact hw)
  world_skip := by
    intro n left w r left' w' h hw
    simp only [source, skip] at h
    split at h
    · cases h
      exact hw
    · split at h <;> (cases h; exact hw)
  openEntry := by
    intro w left w' h hw
    simp only [source, openEntry] at h
    split at h
    · cases h
      exact ⟨by rw [hw, List.drop_zero], Nat.zero_le _⟩
    · cases h
  read := by
    rintro n left w got left' w' k h hw ⟨rfl, hk⟩ hn
    simp only [source, read] at h
    split at h
    · cases h
    · cases h
      rw [hw]
      obtain ⟨hle, hend, hdrop⟩ := take_served (atMost_pos hread hn) hk
      refine ⟨?_, List.take_prefix _ _, fun hnil => ⟨trivial, hend (by rw [hnil]; rfl)⟩,
        hdrop, hle⟩
      exact le_trans (List.length_take_le _ _) (atMost_le _ n)
  skip := by
    rintro n left w m left' w' k h hw ⟨rfl, hk⟩ hn
    simp only [source, skip] at h
    split at h
    · cases h
    · split at h
      · cases h
      · cases h
        rw [hw]
        obtain ⟨hle, hend, hdrop⟩ := take_served (atMost_pos hskip hn) hk
        refine ⟨?_, hle, fun hzero => ⟨trivial, hend hzero⟩, hdrop, hle⟩
        exact le_trans (List.length_take_le _ _) (atMost_le _ n)

end Rehearsal

/-! ## The steps of a handle -/

namespace Handle

/-- The stream that a handle holds has handed over exactly the bytes before `streamPosition`. -/
structure Follows (v : Service ω σ) (path : VirtualPath) (length : Nat) (h : Handle σ) : Prop where
  path_eq : h.path = path
  length_eq : h.length = length
  chunk_pos : 0 < h.chunk
  consumed : ∀ s, h.stream = some s → v.consumed s h.streamPosition

/-- A new handle follows its service. -/
lemma follows_ofStream {v : Service ω σ} {s : σ} (hs : v.consumed s 0) (path : VirtualPath)
    (length skipBuffer : Nat) : (ofStream path s length skipBuffer).Follows v path length where
  path_eq := rfl
  length_eq := rfl
  chunk_pos := lt_of_lt_of_le Nat.zero_lt_one (le_max_right _ _)
  consumed := by
    intro t ht
    cases ht
    exact hs

/-- Moving a handle leaves what it follows. -/
lemma Follows.setPosition {v : Service ω σ} {path : VirtualPath} {length : Nat} {h : Handle σ}
    (hf : h.Follows v path length) (p : Nat) : (h.setPosition p).Follows v path length :=
  ⟨hf.path_eq, hf.length_eq, hf.chunk_pos, hf.consumed⟩

/-- A handle that has dropped its stream has nothing left to follow. -/
lemma Follows.discard {v : Service ω σ} {path : VirtualPath} {length : Nat} {h : Handle σ}
    (hf : h.Follows v path length) : h.discard.Follows v path length where
  path_eq := hf.path_eq
  length_eq := hf.length_eq
  chunk_pos := hf.chunk_pos
  consumed := by
    intro t ht
    cases ht

/-- A handle may take up any stream at the place where it is. -/
lemma Follows.hold {v : Service ω σ} {path : VirtualPath} {length k : Nat} {h : Handle σ} {s : σ}
    (hf : h.Follows v path length) (hs : v.consumed s k) :
    { h with stream := some s, streamPosition := k }.Follows v path length where
  path_eq := hf.path_eq
  length_eq := hf.length_eq
  chunk_pos := hf.chunk_pos
  consumed := by
    intro t ht
    cases ht
    exact hs

section Steps

variable {src : EntrySource ω σ} {path : VirtualPath} {v : Service ω σ}

/-- The outcome of passing over a gap on a stream that had handed over `k` bytes: the stream has
moved over as many bytes as are reported, and over fewer than the gap only at an end that is
shown. -/
structure Crosses (src : EntrySource ω σ) (path : VirtualPath) (v : Service ω σ) (k gap : Nat)
    (r : Except IoError Nat × σ × ω) : Prop where
  world : v.world r.2.2
  error : ∀ e, r.1 = .error e → src.Fails path (.io e)
  ok : ∀ m, r.1 = .ok m → m ≤ gap ∧ v.consumed r.2.1 (k + m) ∧
    (m < gap → v.ends ∧ v.data.length ≤ k + m)

/-- Giving up at an error of a stream is an outcome of crossing. -/
lemma Crosses.of_error {k gap : Nat} {e : IoError} {s : σ} {w : ω} (hw : v.world w)
    (he : src.Fails path (.io e)) : Crosses src path v k gap (.error e, s, w) where
  world := hw
  error := by
    intro e' he'
    cases he'
    exact he
  ok := by
    intro m hm
    cases hm

/-- Stopping at the far side of the gap or at an end that is shown is an outcome of crossing. -/
lemma Crosses.of_ok {k gap m : Nat} {s : σ} {w : ω} (hw : v.world w) (hm : m ≤ gap)
    (hs : v.consumed s (k + m)) (hend : m < gap → v.ends ∧ v.data.length ≤ k + m) :
    Crosses src path v k gap (.ok m, s, w) where
  world := hw
  error := by
    intro e he
    cases he
  ok := by
    intro m' hm'
    cases hm'
    exact ⟨hm, hs, hend⟩

/-- Bulk skips cross a gap. -/
lemma skipInBulk_crosses (hv : src.Keeps path v) {k gap done : Nat} {s : σ} {w : ω}
    (hw : v.world w) (hs : v.consumed s (k + done)) (hd : done ≤ gap) :
    Crosses src path v k gap (skipInBulk src gap done s w) := by
  fun_induction skipInBulk src gap done s w with
  | case1 done s w hlt e s' w' heq => exact .of_error (hv.world_skip heq hw) (.skipping heq)
  | case2 done s w hlt s' w' heq =>
    obtain ⟨-, -, hend, hs'⟩ := hv.skip heq hw hs (Nat.sub_pos_of_lt hlt)
    exact .of_ok (hv.world_skip heq hw) hd hs' fun _ => hend rfl
  | case3 done s w hlt m s' w' heq ih =>
    obtain ⟨hm, -, -, hs'⟩ := hv.skip heq hw hs (Nat.sub_pos_of_lt hlt)
    exact ih (hv.world_skip heq hw) (by rwa [← Nat.add_assoc]) (by omega)
  | case4 done s w hge => exact .of_ok hw hd hs fun hlt => absurd hlt hge

/-- Reads whose bytes are thrown away cross a gap. -/
lemma skipByReading_crosses (hv : src.Keeps path v) {chunk k gap done : Nat} {s : σ} {w : ω}
    (hc : 0 < chunk) (hw : v.world w) (hs : v.consumed s (k + done)) (hd : done ≤ gap) :
    Crosses src path v k gap (skipByReading src chunk gap done s w) := by
  fun_induction skipByReading src chunk gap done s w with
  | case1 done s w hlt e s' w' heq => exact .of_error (hv.world_read heq hw) (.reading heq)
  | case2 done s w hlt s' w' heq =>
    obtain ⟨-, -, hend, hs'⟩ := hv.read heq hw hs (lt_min (Nat.sub_pos_of_lt hlt) hc)
    exact .of_ok (hv.world_read heq hw) hd hs' fun _ => hend rfl
  | case3 done s w hlt b got s' w' heq ih =>
    obtain ⟨hlen, -, -, hs'⟩ := hv.read heq hw hs (lt_min (Nat.sub_pos_of_lt hlt) hc)
    rw [List.length_cons] at hlen hs'
    exact ih (hv.world_read heq hw) (by rwa [← Nat.add_assoc]) (by omega)
  | case4 done s w hge => exact .of_ok hw hd hs fun hlt => absurd hlt hge

/-- Whichever way a handle passes over a gap, it crosses it. -/
lemma skipForward_crosses (hv : src.Keeps path v) {h : Handle σ} {k gap : Nat} {s : σ} {w : ω}
    (hc : 0 < h.chunk) (hw : v.world w) (hs : v.consumed s k) :
    Crosses src path v k gap (skipForward src h gap s w) := by
  unfold skipForward
  split
  · exact skipByReading_crosses hv hc hw hs (Nat.zero_le gap)
  · exact skipInBulk_crosses hv hw hs (Nat.zero_le gap)

/-- Whatever finding a stream comes to, the handle still follows its service at the same position,
and a stream that is found is not past it. -/
structure Revived (src : EntrySource ω σ) (path : VirtualPath) (v : Service ω σ) (length : Nat)
    (h : Handle σ) (r : Except Error σ × Handle σ × ω) : Prop where
  world : v.world r.2.2
  follows : r.2.1.Follows v path length
  position_eq : r.2.1.position = h.position
  error : ∀ e, r.1 = .error e → src.Fails path e
  ok : ∀ s, r.1 = .ok s → v.consumed s r.2.1.streamPosition ∧
    r.2.1.streamPosition ≤ r.2.1.position

/-- A handle finds its stream: the one it holds if that is not past the position, else a new one. -/
lemma revive_follows (hv : src.Keeps path v) {length : Nat} {h : Handle σ} {w : ω}
    (hf : h.Follows v path length) (hw : v.world w) :
    Revived src path v length h (h.revive src w) := by
  obtain rfl := hf.path_eq
  unfold revive
  split
  next s hs =>
    obtain ⟨hle, hs⟩ : h.streamPosition ≤ h.position ∧ h.stream = some s := by
      split at hs
      · cases hs
      · exact ⟨by omega, hs⟩
    refine ⟨hw, hf, rfl, fun e he => (by cases he), fun t ht => ?_⟩
    cases ht
    exact ⟨hf.consumed s hs, hle⟩
  next =>
    split
    next e w' heq =>
      have hlost : { h with stream := none }.Follows v h.path length :=
        ⟨rfl, hf.length_eq, hf.chunk_pos, fun t ht => by cases ht⟩
      refine ⟨hv.world_openEntry heq hw, hlost, rfl, fun e' he' => ?_, fun t ht => by cases ht⟩
      cases he'
      exact .opening heq
    next s w' heq =>
      have hs : v.consumed s 0 := hv.openEntry heq hw
      refine ⟨hv.world_openEntry heq hw, hf.hold hs, rfl, fun e' he' => (by cases he'), ?_⟩
      intro t ht
      cases ht
      exact ⟨hs, Nat.zero_le _⟩

/-- Whatever bringing the stream to the position comes to, the handle still follows its service at
the same position.  A stream that is provided is at the position; none is only where the entry is
known to end at the position or before. -/
structure Synced (src : EntrySource ω σ) (path : VirtualPath) (v : Service ω σ) (length : Nat)
    (h : Handle σ) (r : Except Error (Option σ) × Handle σ × ω) : Prop where
  world : v.world r.2.2
  follows : r.2.1.Follows v path length
  position_eq : r.2.1.position = h.position
  error : ∀ e, r.1 = .error e → src.Fails path e
  none : r.1 = .ok none → v.ends ∧ v.data.length ≤ h.position
  some : ∀ s, r.1 = .ok (some s) → v.consumed s h.position ∧ r.2.1.streamPosition = h.position

/-- Giving up at an error leaves the handle where it is. -/
lemma synced_of_error {length : Nat} {h h₁ : Handle σ} {e : Error} {w : ω} (hw : v.world w)
    (hf : h₁.Follows v path length) (hpos : h₁.position = h.position) (he : src.Fails path e) :
    Synced src path v length h (.error e, h₁, w) where
  world := hw
  follows := hf
  position_eq := hpos
  error := by
    intro e' he'
    cases he'
    exact he
  none := by
    intro hnone
    cases hnone
  some := by
    intro t ht
    cases ht

/-- A handle that has come to the position provides its stream, and one that has not has met the
end. -/
lemma synced_of_crosses {length gap m : Nat} {h h₁ : Handle σ} {s' : σ} {w : ω}
    (hf : h₁.Follows v path length) (hpos : h₁.position = h.position)
    (hgap : h₁.streamPosition + gap = h₁.position)
    (hx : Crosses src path v h₁.streamPosition gap (.ok m, s', w)) :
    Synced src path v length h
      (.ok (if h₁.streamPosition + m = h₁.position then some s' else none),
        { h₁ with stream := some s', streamPosition := h₁.streamPosition + m }, w) where
  world := hx.world
  follows := hf.hold (hx.ok m rfl).2.1
  position_eq := hpos
  error := by
    intro e he
    cases he
  none := by
    intro hnone
    obtain ⟨hm, -, hend⟩ := hx.ok m rfl
    have hne : h₁.streamPosition + m ≠ h₁.position := by
      intro hreached
      simp [hreached] at hnone
    obtain ⟨hends, hlen⟩ := hend (by omega)
    exact ⟨hends, by omega⟩
  some := by
    intro t ht
    obtain ⟨-, hs', -⟩ := hx.ok m rfl
    have hreached : h₁.streamPosition + m = h₁.position := by
      by_contra hne
      simp [hne] at ht
    simp only [hreached, if_true, Except.ok.injEq, Option.some.injEq] at ht
    subst ht
    rw [← hpos]
    exact ⟨hreached ▸ hs', hreached⟩

/-- A handle brings its stream to the position, or meets the end of the entry before it. -/
lemma sync_follows (hv : src.Keeps path v) {length : Nat} {h : Handle σ} {w : ω}
    (hf : h.Follows v path length) (hw : v.world w) :
    Synced src path v length h (h.sync src w) := by
  have hr := revive_follows hv hf hw
  unfold sync
  split
  next e h₁ w₁ heq =>
    rw [heq] at hr
    exact synced_of_error hr.world hr.follows hr.position_eq (hr.error e rfl)
  next s h₁ w₁ heq =>
    rw [heq] at hr
    have hpos : h₁.position = h.position := hr.position_eq
    have hf₁ : h₁.Follows v path length := hr.follows
    obtain ⟨hs, hle⟩ : v.consumed s h₁.streamPosition ∧ h₁.streamPosition ≤ h₁.position :=
      hr.ok s rfl
    split
    next hlt =>
      -- Only the mark for skipping by reading changes before the gap is crossed.
      have hf₂ : { h₁ with
          skipsByReading := h₁.skipsByReading || !src.supportsSkip s }.Follows v path length :=
        ⟨hf₁.path_eq, hf₁.length_eq, hf₁.chunk_pos, hf₁.consumed⟩
      have hx : Crosses src path v h₁.streamPosition (h₁.position - h₁.streamPosition)
          (skipForward src { h₁ with
            skipsByReading := h₁.skipsByReading || !src.supportsSkip s }
            (h₁.position - h₁.streamPosition) s w₁) :=
        skipForward_crosses hv hf₂.chunk_pos hr.world hs
      dsimp only
      split
      next e s₂ w₂ heq₂ =>
        rw [heq₂] at hx
        exact synced_of_error hx.world hf₂.discard hpos (hx.error e rfl)
      next m s₂ w₂ heq₂ =>
        rw [heq₂] at hx
        exact synced_of_crosses hf₂ hpos (Nat.add_sub_cancel' hle) hx
    next hge =>
      have hreached : h₁.streamPosition = h.position := by omega
      refine ⟨hr.world, hf₁, hpos, fun e he => (by cases he), fun h' => (by cases h'),
        fun t ht => ?_⟩
      cases ht
      exact ⟨hreached ▸ hs, hreached⟩

end Steps

end Handle

end ZipMount
