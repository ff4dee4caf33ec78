import ZipMount.Proofs.Handle.Cursor

/-!
# Handles over streams with a definite failure

Streams that keep to their service may fail whenever they do.  `EntrySource.Definite` says of some
that they do not: opening one always succeeds, and a call fails only where the bytes are over, always
with the same error.  A damaged entry is of this kind, and so is a sound one, which has no failure.

A handle over such streams is left with one freedom, how many bytes a single read delivers, and
reading until there are enough makes up for that (`Handle.readUpTo_of_definite`).  `Contents.replies`
is then all there is to say of the handle: its answers to requests of this kind are settled by the
bytes, the failure behind them and the length, in whatever pieces and by whichever way over gaps they
come about (`Handle.replies_eq`).
-/

namespace ZipMount

variable {ω σ : Type}

/-- The streams for the entry of a path are as a service says, and calls on them fail only behind the
last byte, with the given error. -/
structure EntrySource.Definite (src : EntrySource ω σ) (path : VirtualPath) (v : Service ω σ)
    (failure : Option IoError) : Prop extends src.Keeps path v where
  opens : ∀ {w}, v.world w → ∃ s w', src.openEntry path w = (.ok s, w')
  /-- An end is shown only if there is no failure. -/
  ends : v.ends → failure = none
  reads : ∀ {n s w e s' w' k}, src.read n s w = (.error e, s', w') → v.world w →
    v.consumed s k → 0 < n → failure = some e ∧ v.data.length ≤ k
  skips : ∀ {n s w e s' w' k}, src.skip n s w = (.error e, s', w') → v.world w →
    v.consumed s k → 0 < n → failure = some e ∧ v.data.length < k + n

/-- A read that asks for something and succeeds tells where the cursor is then, and delivers nothing
only behind the last byte. -/
lemma Cursor.Step.advance {data : Bytes} {length : Nat} {ends : Prop} {fails : Error → Prop}
    {p q n : Nat} {got : Bytes} (h : Step data length ends fails p (.read n) (.got (.ok got)) q)
    (hn : 0 < n) :
    got.length ≤ n ∧ got <+: data.drop p ∧ (got = [] → data.length ≤ p) ∧ q = p + got.length := by
  cases h with
  | readNothing => omega
  | read hne hlen hslice => exact ⟨hlen, hslice, fun hnil => absurd hnil hne, rfl⟩
  | readEnd _ _ hover => exact ⟨Nat.zero_le n, List.nil_prefix, fun _ => hover, rfl⟩

/-- A read that fails leaves the cursor where it is. -/
lemma Cursor.Step.of_read_error {data : Bytes} {length : Nat} {ends : Prop} {fails : Error → Prop}
    {p q n : Nat} {e : Error} (h : Step data length ends fails p (.read n) (.got (.error e)) q) :
    q = p := by
  cases h with
  | readFails => rfl

/-! ## What a handle shows of an entry -/

/-- All that a handle shows of an entry. -/
structure Contents where
  data : Bytes
  /-- What comes instead of the end. -/
  failure : Option IoError
  /-- What the handle holds for the number of bytes. -/
  length : Nat

namespace Handle

/-- What a host is told when it has reads go on until they are full. -/
inductive Reply
  | moved
  | sought (r : Except IoError Nat)
  | filled (got : Bytes) (failure : Option Error)

/-- The reply to a request, and the handle and the world after it. -/
def reply (src : EntrySource ω σ) (q : Request) (h : Handle σ) (w : ω) : Reply × Handle σ × ω :=
  match q with
  | .setPosition p => (.moved, h.setPosition p, w)
  | .seek s => (.sought (h.seek s).1, (h.seek s).2, w)
  | .read n =>
    let ((got, failure), h, w) := h.readUpTo src n w
    (.filled got failure, h, w)

/-- The replies to requests made one after the other, each with the position after it. -/
def replies (src : EntrySource ω σ) : List Request → Handle σ → ω → List (Reply × Nat)
  | [], _, _ => []
  | q :: qs, h, w =>
    let (a, h, w) := h.reply src q w
    (a, h.position) :: replies src qs h w

end Handle

namespace Contents

open Handle (Request Reply)

/-- The bytes that a read of `n` bytes at a position delivers, and how it fails if there are not as
many. -/
def fill (c : Contents) (position n : Nat) : Bytes × Option Error :=
  ((c.data.drop position).take n,
    if n ≤ c.data.length - position then none else c.failure.map Error.io)

/-- The reply to a request at a position, and the position after it. -/
def reply (c : Contents) (position : Nat) : Request → Reply × Nat
  | .setPosition p => (.moved, p)
  | .seek s =>
    let p := Cursor.goal c.length position s
    if 0 ≤ p ∧ p < positionBound then (.sought (.ok p.toNat), p.toNat)
    else (.sought (.error .seekOutOfRange), position)
  | .read n =>
    (.filled (c.fill position n).1 (c.fill position n).2,
      position + (c.fill position n).1.length)

/-- The replies to requests made one after the other from a position on. -/
def replies (c : Contents) (position : Nat) : List Request → List (Reply × Nat)
  | [] => []
  | q :: qs => c.reply position q :: replies c (c.reply position q).2 qs

end Contents

namespace Handle

section Definite

variable {src : EntrySource ω σ} {path : VirtualPath} {v : Service ω σ} {failure : Option IoError}
  {length : Nat} {h : Handle σ} {w : ω}

/-! ## Where a handle fails -/

/-- Bulk skips fail only if the gap leads behind the last byte. -/
lemma skipInBulk_error (hv : src.Definite path v failure) {k gap done : Nat} {s : σ} {w : ω}
    {e : IoError} (hw : v.world w) (hs : v.consumed s (k + done))
    (he : (skipInBulk src gap done s w).1 = .error e) :
    failure = some e ∧ v.data.length < k + gap := by
  fun_induction skipInBulk src gap done s w with
  | case1 done s w hlt e' s' w' heq =>
    cases he
    obtain ⟨hfail, hover⟩ := hv.skips heq hw hs (Nat.sub_pos_of_lt hlt)
    exact ⟨hfail, by omega⟩
  | case2 => cases he
  | case3 done s w hlt m s' w' heq ih =>
    obtain ⟨-, -, -, hs'⟩ := hv.skip heq hw hs (Nat.sub_pos_of_lt hlt)
    exact ih (hv.world_skip heq hw) (by rwa [← Nat.add_assoc]) he
  | case4 => cases he

/-- Reads whose bytes are thrown away fail only if the gap leads behind the last byte. -/
lemma skipByReading_error (hv : src.Definite path v failure) {chunk k gap done : Nat} {s : σ}
    {w : ω} {e : IoError} (hc : 0 < chunk) (hw : v.world w) (hs : v.consumed s (k + done))
    (he : (skipByReading src chunk gap done s w).1 = .error e) :
    failure = some e ∧ v.data.length < k + gap := by
  fun_induction skipByReading src chunk gap done s w with
  | case1 done s w hlt e' s' w' heq =>
    cases he
    obtain ⟨hfail, hover⟩ := hv.reads heq hw hs (lt_min (Nat.sub_pos_of_lt hlt) hc)
    exact ⟨hfail, by omega⟩
  | case2 => cases he
  | case3 done s w hlt b got s' w' heq ih =>
    obtain ⟨-, -, -, hs'⟩ := hv.read heq hw hs (lt_min (Nat.sub_pos_of_lt hlt) hc)
    exact ih (hv.world_read heq hw) (by rwa [← Nat.add_assoc]) he
  | case4 => cases he

/-- Passing over a gap fails only if it leads behind the last byte. -/
lemma skipForward_error (hv : src.Definite path v failure) {k gap : Nat} {s : σ} {e : IoError}
    (hc : 0 < h.chunk) (hw : v.world w) (hs : v.consumed s k)
    (he : (skipForward src h gap s w).1 = .error e) :
    failure = some e ∧ v.data.length < k + gap := by
  unfold skipForward at he
  split at he
  · exact skipByReading_error hv hc hw hs he
  · exact skipInBulk_error hv hw hs he

/-- Finding a stream does not fail. -/
lemma exists_revive (hv : src.Definite path v failure) (hf : h.Follows v path length)
    (hw : v.world w) : ∃ s h' w', h.revive src w = (.ok s, h', w') := by
  obtain ⟨s, w', hopen⟩ := hv.opens hw
  rw [← hf.path_eq] at hopen
  unfold revive
  split
  next s hs => exact ⟨s, h, w, rfl⟩
  next =>
    rw [hopen]
    exact ⟨s, _, w', rfl⟩

/-- Bringing the stream to the position fails only if that is behind the last byte. -/
lemma sync_error (hv : src.Definite path v failure) (hf : h.Follows v path length)
    (hw : v.world w) {e : Error} (he : (h.sync src w).1 = .error e) :
    failure.map Error.io = some e ∧ v.data.length ≤ h.position := by
  have hr := revive_follows hv.toKeeps hf hw
  obtain ⟨s, h₁, w₁, hrevive⟩ := exists_revive hv hf hw
  rw [hrevive] at hr
  have hf₁ : h₁.Follows v path length := hr.follows
  have hstay : h₁.position = h.position := hr.position_eq
  have hs : v.consumed s h₁.streamPosition := (hr.ok s rfl).1
  unfold sync at he
  rw [hrevive] at he
  dsimp only at he
  split at he
  next hlt =>
    have hchunk : 0 < { h₁ with
        skipsByReading := h₁.skipsByReading || !src.supportsSkip s }.chunk := hf₁.chunk_pos
    split at he
    next e' s₂ w₂ heq =>
      cases he
      obtain ⟨hfail, hover⟩ := skipForward_error hv hchunk hr.world hs (by rw [heq])
      exact ⟨by rw [hfail, Option.map_some], by omega⟩
    next => cases he
  next => cases he

/-- A read fails only behind the last byte. -/
lemma read_error (hv : src.Definite path v failure) (hf : h.Follows v path length)
    (hw : v.world w) {n : Nat} {e : Error} (he : (h.read src n w).1 = .error e) :
    failure.map Error.io = some e ∧ v.data.length ≤ h.position := by
  unfold read at he
  split at he
  next => cases he
  next hn =>
    have hx := sync_follows hv.toKeeps hf hw
    split at he
    next e' h₁ w₁ heq =>
      cases he
      exact sync_error hv hf hw (by rw [heq])
    next => cases he
    next s h₁ w₁ heq =>
      rw [heq] at hx
      obtain ⟨hs, -⟩ := hx.some s rfl
      split at he
      next e' s₂ w₂ heq₂ =>
        cases he
        obtain ⟨hfail, hover⟩ := hv.reads heq₂ hx.world hs (Nat.pos_of_ne_zero hn)
        exact ⟨by rw [hfail, Option.map_some], hover⟩
      next => cases he

/-! ## Reads until they are full -/

/-- Reading until there are `n` bytes delivers those at the position, and the failure if there are
not as many. -/
lemma readUpTo_of_definite (hv : src.Definite path v failure) (hf : h.Follows v path length)
    (hw : v.world w) (n : Nat) :
    (h.readUpTo src n w).1 = (Contents.mk v.data failure length).fill h.position n ∧
      (h.readUpTo src n w).2.1.position =
        h.position + ((v.data.drop h.position).take n).length ∧
      (h.readUpTo src n w).2.1.Follows v path length ∧ v.world (h.readUpTo src n w).2.2 := by
  induction n using Nat.strong_induction_on generalizing h w with
  | h n ih =>
    rw [readUpTo]
    by_cases hn : n = 0
    · subst hn
      rw [if_pos rfl, Contents.fill, if_pos (Nat.zero_le _)]
      exact ⟨rfl, rfl, hf, hw⟩
    · have hpos : 0 < n := Nat.pos_of_ne_zero hn
      obtain ⟨hstep, hf', hw'⟩ := hf.read_step hv.toKeeps hw n
      rw [if_neg hn, Contents.fill]
      dsimp only
      rcases hread : h.read src n w with ⟨e | got, h₁, w₁⟩
      · -- A failing read has met the failure at the last byte, and leaves the position.
        obtain ⟨hfail, hover⟩ := read_error hv hf hw (by rw [hread])
        rw [hread] at hstep hf' hw'
        have hnone : v.data.drop h.position = [] := List.drop_eq_nil_of_le hover
        have hstay : h₁.position = h.position := hstep.of_read_error
        rw [if_neg (by omega), hfail, hnone, List.take_nil]
        exact ⟨rfl, hstay, hf', hw'⟩
      · rw [hread] at hstep hf' hw'
        obtain ⟨hlen, hslice, hend, hmoved⟩ := hstep.advance hpos
        have hgot := List.prefix_iff_eq_take.mp hslice
        dsimp only at hf' hw' hmoved
        cases got with
        | nil =>
          have hover : v.data.length ≤ h.position := hend rfl
          have hnone : v.data.drop h.position = [] := List.drop_eq_nil_of_le hover
          have hends : v.ends := (hstep.of_read_ok hpos).2 rfl
          rw [if_neg (by omega), hv.ends hends, hnone, List.take_nil]
          exact ⟨rfl, hmoved, hf', hw'⟩
        | cons b got =>
          rw [List.length_cons] at hlen hgot hmoved
          obtain ⟨hrest, hposition, hf₂, hw₂⟩ := ih (n - (got.length + 1)) (by omega) hf' hw'
          -- The bytes of this read and those of the others are neighbours.
          have hall : (v.data.drop h.position).take n = b :: got ++
              (v.data.drop h₁.position).take (n - (got.length + 1)) := by
            have hn' : n = got.length + 1 + (n - (got.length + 1)) := by omega
            rw [hn', List.take_add, ← hgot, List.drop_drop, ← hmoved, Nat.add_sub_cancel_left]
          have hsame : n - (got.length + 1) ≤ v.data.length - h₁.position ↔
              n ≤ v.data.length - h.position := by
            have hle := hslice.length_le
            rw [List.length_cons, List.length_drop] at hle
            omega
          refine ⟨?_, ?_, hf₂, hw₂⟩
          · show (b :: got ++ (h₁.readUpTo src (n - (got.length + 1)) w₁).1.1,
              (h₁.readUpTo src (n - (got.length + 1)) w₁).1.2) = _
            rw [hrest, hall, Contents.fill]
            simp only [hsame]
          · show (h₁.readUpTo src (n - (got.length + 1)) w₁).2.1.position = _
            rw [hposition, hall, List.length_append, List.length_cons, hmoved]
            omega

/-- One request: the reply is that of the contents at the position of the handle. -/
lemma Follows.reply_eq (hv : src.Definite path v failure) (hf : h.Follows v path length)
    (hw : v.world w) (q : Request) :
    ((h.reply src q w).1, (h.reply src q w).2.1.position) =
        (Contents.mk v.data failure length).reply h.position q ∧
      (h.reply src q w).2.1.Follows v path length ∧ v.world (h.reply src q w).2.2 := by
  cases q with
  | setPosition p => exact ⟨rfl, hf.setPosition p, hw⟩
  | seek s =>
    obtain ⟨hstep, hf'⟩ := hf.seek_step s (src.Fails path)
    refine ⟨?_, hf', hw⟩
    have hgoal : h.target s = Cursor.goal length h.position s := by
      rw [← hf.length_eq]
      cases s <;> rfl
    simp only [reply, seek, Contents.reply, hgoal]
    by_cases hrange : 0 ≤ Cursor.goal length h.position s ∧
        Cursor.goal length h.position s < positionBound
    · rw [if_pos hrange, if_pos hrange]
      rfl
    · rw [if_neg hrange, if_neg hrange]
  | read n =>
    obtain ⟨hfill, hposition, hf', hw'⟩ := readUpTo_of_definite hv hf hw n
    rw [reply, Contents.reply, ← hfill]
    rcases hrun : h.readUpTo src n w with ⟨⟨got, e⟩, h', w'⟩
    rw [hrun] at hfill hposition hf' hw'
    have hgot : got = (v.data.drop h.position).take n := congrArg Prod.fst hfill
    refine ⟨?_, hf', hw'⟩
    rw [hgot, ← hposition]

/-- Any requests: the replies are those of the contents, from the position of the handle on. -/
theorem replies_eq (hv : src.Definite path v failure) (hf : h.Follows v path length)
    (hw : v.world w) (qs : List Request) :
    h.replies src qs w = (Contents.mk v.data failure length).replies h.position qs := by
  induction qs generalizing h w with
  | nil => rfl
  | cons q qs ih =>
    obtain ⟨hreply, hf', hw'⟩ := hf.reply_eq hv hw q
    rw [replies, Contents.replies, ← hreply, ← ih hf' hw']

end Definite

end Handle

end ZipMount
