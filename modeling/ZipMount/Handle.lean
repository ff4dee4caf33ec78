import ZipMount.EntrySource

/-!
# Random access over forward-only streams

A `Handle` keeps two positions: the one the host asked for, and how far the live stream has been
consumed.  Moving the first costs nothing; the debt is paid by the next read.  If the stream is past
the position, it is dropped and the entry is opened again; if it is before, the gap is passed over.
Reading front to back therefore uses one stream, and reading back to front opens one for each read.

The gap is passed over in bulk where the stream can do that.  Once a stream that cannot has forced a
gap to be read and thrown away, the handle stays with that way.

A stream whose call failed is at an unknown place.  The handle drops it, so that the next read opens
the entry again and meets the same bytes from the first one on.
-/

namespace ZipMount

/-- A read-only random-access view of one entry. -/
structure Handle (σ : Type) where
  path : VirtualPath
  /-- The size of the entry as it was measured when the handle was made. -/
  length : Nat
  /-- The most bytes that are read at once to be thrown away. -/
  chunk : Nat
  /-- Where the next read is to begin. -/
  position : Nat
  /-- How far the stream has been consumed. -/
  streamPosition : Nat
  stream : Option σ
  /-- Whether gaps are passed over by reading. -/
  skipsByReading : Bool

/-- Positions have 64 bits. -/
def positionBound : Nat := 0x10000000000000000

/-- Where a seek is measured from, and how far it goes. -/
inductive Seek
  | fromStart (position : Nat)
  | fromEnd (offset : Int)
  | fromCurrent (offset : Int)
  deriving DecidableEq, Repr

namespace Handle

variable {ω σ : Type}

/-- A handle on a stream at the first byte of the entry. -/
def ofStream (path : VirtualPath) (stream : σ) (length skipBuffer : Nat) : Handle σ where
  path := path
  length := length
  chunk := max skipBuffer 1
  position := 0
  streamPosition := 0
  stream := some stream
  skipsByReading := false

/-- The name of the entry. -/
def entryName (h : Handle σ) : String := h.path.entryName

/-- The handle at another position; the stream is left alone. -/
def setPosition (position : Nat) (h : Handle σ) : Handle σ :=
  { h with position }

/-- The position that a seek leads to, which may lie outside of the range of positions. -/
def target (h : Handle σ) : Seek → Int
  | .fromStart position => position
  | .fromEnd offset => h.length + offset
  | .fromCurrent offset => h.position + offset

/-- Moves to the position that a seek leads to, or nowhere if it is out of range. -/
def seek (s : Seek) (h : Handle σ) : Except IoError Nat × Handle σ :=
  let p := h.target s
  if 0 ≤ p ∧ p < positionBound then (.ok p.toNat, h.setPosition p.toNat)
  else (.error .seekOutOfRange, h)

/-- The handle without its stream, whose place is no longer known. -/
def discard (h : Handle σ) : Handle σ :=
  { h with stream := none, streamPosition := 0 }

/-- Passes over the rest of a gap of which `done` bytes are behind, in bulk, and tells how many bytes
are behind then. -/
def skipInBulk (src : EntrySource ω σ) (gap done : Nat) (s : σ) (w : ω) :
    Except IoError Nat × σ × ω :=
  if done < gap then
    match src.skip (gap - done) s w with
    | (.error e, s, w) => (.error e, s, w)
    | (.ok 0, s, w) => (.ok done, s, w)
    | (.ok (k + 1), s, w) => skipInBulk src gap (done + (k + 1)) s w
  else (.ok done, s, w)
termination_by gap - done

/-- Passes over the rest of a gap by reading at most `chunk` bytes at once and throwing them
away. -/
def skipByReading (src : EntrySource ω σ) (chunk gap done : Nat) (s : σ) (w : ω) :
    Except IoError Nat × σ × ω :=
  if done < gap then
    match src.read (min (gap - done) chunk) s w with
    | (.error e, s, w) => (.error e, s, w)
    | (.ok [], s, w) => (.ok done, s, w)
    | (.ok (_ :: got), s, w) => skipByReading src chunk gap (done + (got.length + 1)) s w
  else (.ok done, s, w)
termination_by gap - done

/-- Passes over a gap the way the handle does it. -/
def skipForward (src : EntrySource ω σ) (h : Handle σ) (gap : Nat) (s : σ) (w : ω) :
    Except IoError Nat × σ × ω :=
  if h.skipsByReading then skipByReading src h.chunk gap 0 s w else skipInBulk src gap 0 s w

/-- Provides a stream that is not past the position, opening the entry again if need be. -/
def revive (src : EntrySource ω σ) (h : Handle σ) (w : ω) : Except Error σ × Handle σ × ω :=
  match if h.position < h.streamPosition then none else h.stream with
  | some s => (.ok s, h, w)
  | none =>
    match src.openEntry h.path w with
    | (.error e, w) => (.error e, { h with stream := none }, w)
    | (.ok s, w) => (.ok s, { h with stream := some s, streamPosition := 0 }, w)

/-- Brings the stream to the position and provides it, or nothing if the entry ends before. -/
def sync (src : EntrySource ω σ) (h : Handle σ) (w : ω) :
    Except Error (Option σ) × Handle σ × ω :=
  match h.revive src w with
  | (.error e, h, w) => (.error e, h, w)
  | (.ok s, h, w) =>
    if h.streamPosition < h.position then
      let h := { h with skipsByReading := h.skipsByReading || !src.supportsSkip s }
      match skipForward src h (h.position - h.streamPosition) s w with
      | (.error e, _, w) => (.error (.io e), h.discard, w)
      | (.ok skipped, s, w) =>
        let h := { h with stream := some s, streamPosition := h.streamPosition + skipped }
        (.ok (if h.streamPosition = h.position then some s else none), h, w)
    else (.ok (some s), h, w)

/-- At most `n` bytes at the position, which moves behind them; none for a positive `n` means that
the position is at the end of the entry or beyond. -/
def read (src : EntrySource ω σ) (n : Nat) (h : Handle σ) (w : ω) :
    Except Error Bytes × Handle σ × ω :=
  if n = 0 then (.ok [], h, w)
  else
    match h.sync src w with
    | (.error e, h, w) => (.error e, h, w)
    | (.ok none, h, w) => (.ok [], h, w)
    | (.ok (some s), h, w) =>
      match src.read n s w with
      | (.error e, _, w) => (.error (.io e), h.discard, w)
      | (.ok got, s, w) =>
        (.ok got,
          { h with
            stream := some s
            position := h.position + got.length
            streamPosition := h.streamPosition + got.length },
          w)

/-- Reads until there are `n` bytes, the entry ends, or a read fails; what was read before a failure
is kept. -/
def readUpTo (src : EntrySource ω σ) (n : Nat) (h : Handle σ) (w : ω) :
    (Bytes × Option Error) × Handle σ × ω :=
  if n = 0 then (([], none), h, w)
  else
    match h.read src n w with
    | (.error e, h, w) => (([], some e), h, w)
    | (.ok [], h, w) => (([], none), h, w)
    | (.ok (b :: got), h, w) =>
      let ((more, failure), h, w) := readUpTo src (n - (got.length + 1)) h w
      ((b :: got ++ more, failure), h, w)
termination_by n

/-- Reads to the end of the entry; no entry is longer than positions reach. -/
def readToEnd (src : EntrySource ω σ) (h : Handle σ) (w : ω) :
    (Bytes × Option Error) × Handle σ × ω :=
  h.readUpTo src positionBound w

/-- Reads exactly `n` bytes.  At most `patience` interrupted reads are repeated; any other failure,
and an end before the last byte, makes the whole fail. -/
def readExact (src : EntrySource ω σ) (patience n : Nat) (h : Handle σ) (w : ω) :
    Except IoError Bytes × Handle σ × ω :=
  if n = 0 then (.ok [], h, w)
  else
    match h.read src n w with
    | (.error e, h, w) =>
      if e.toIo.kind = .interrupted ∧ 0 < patience then readExact src (patience - 1) n h w
      else (.error e.toIo, h, w)
    | (.ok [], h, w) => (.error .shortField, h, w)
    | (.ok (b :: got), h, w) =>
      match readExact src patience (n - (got.length + 1)) h w with
      | (.error e, h, w) => (.error e, h, w)
      | (.ok more, h, w) => (.ok (b :: got ++ more), h, w)
termination_by n + patience

/-- Writing is refused. -/
def write (_data : Bytes) (h : Handle σ) : Except Error Nat :=
  .error (.fault (.readOnly h.entryName))

/-- Truncating is refused. -/
def truncate (_length : Nat) (h : Handle σ) : Except Error Unit :=
  .error (.fault (.readOnly h.entryName))

/-- Nothing is ever buffered for writing, so there is nothing to do. -/
def force (_metaData : Bool) (_h : Handle σ) : Except Error Unit := .ok ()

/-- No locks are handed out: entries never change. -/
def tryLock (_position _size : Nat) (_shared : Bool) (_h : Handle σ) :
    Except Error (Option (Nat × Nat × Bool)) := .ok none

end Handle

end ZipMount
