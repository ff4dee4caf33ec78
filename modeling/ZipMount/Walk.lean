import ZipMount.Entry.LocalHeader
import ZipMount.Inflater

/-!
# Walking a container

A `Walk` goes through a container from the first byte to the last and never back.  It moves from
entry to entry by `Walk.next`, and the payload of the entry it is at is delivered by `Walk.read`.
Leaving an entry discards what is left of its payload: by its recorded length when it has not been
touched, and by decoding it otherwise.  Deflated payloads are delivered by the inflater at hand.

Reaching the end of a payload reads the descriptor that may follow, and compares the payload with
what is recorded for it.  Whatever fails, the walk never finds a header again.
-/

namespace ZipMount

variable [Inflater]

/-- Where in its container a walk is. -/
inductive Place
  /-- At the start of a header. -/
  | atHeader (rest : Bytes)
  /-- At the first byte of a payload. -/
  | atPayload (rest : Bytes)
  /-- Inside a stored payload of which some bytes remain. -/
  | inStored (rest : Bytes) (remaining : Nat)
  /-- Inside a deflated payload. -/
  | inDeflated (flow : Inflow)
  /-- Nowhere: the entries have ended, or an error has made the rest unusable. -/
  | ended

namespace Place

/-- The bytes after the place; inside a deflated payload, those after the payload. -/
def rest? : Place → Option Bytes
  | atHeader rest | atPayload rest | inStored rest _ => some rest
  | inDeflated flow => some (flow.ending.toOption.getD [])
  | ended => none

/-- Begins the payload of an entry, if the place is before it; a deflated one comes in slices. -/
def enter (s : Slicing) (e : Entry) : Place → Except IoError Place
  | atPayload rest =>
    match e.method with
    | .stored => .ok (inStored rest (e.compressedSize.getD 0))
    | .deflated => .ok (inDeflated (Inflater.inflow (s.slices rest)))
    | .other code => .error (.undecodableMethod code)
  | place => .ok place

/-- At most `n` bytes of the payload, none at its end. -/
def deliver (n : Nat) : Place → Except IoError (Bytes × Place)
  | inStored rest remaining =>
    if remaining = 0 then .ok ([], inStored rest remaining)
    else
      match rest.take (min n remaining) with
      | [] => .error .shortStored
      | got => .ok (got, inStored (rest.drop got.length) (remaining - got.length))
  | inDeflated flow =>
    match flow.pending.take n, flow.ending with
    | [], .error e => .error e
    | got, _ => .ok (got, inDeflated { flow with pending := flow.pending.drop got.length })
  | place => .ok ([], place)

/-- The number of bytes that can be delivered before the payload ends or fails. -/
def available : Place → Nat
  | inStored rest remaining => min remaining rest.length
  | inDeflated flow => flow.pending.length
  | _ => 0

end Place

/-- The entry a walk is at, and what has been delivered of it so far. -/
structure Current where
  entry : Entry
  /-- The checksum register after the delivered bytes. -/
  register : UInt32
  /-- The number of delivered bytes. -/
  produced : Nat

namespace Current

/-- An entry of which nothing has been delivered. -/
def untouched (e : Entry) : Current := ⟨e, Checksum.start, 0⟩

/-- The same entry after further bytes. -/
def absorb (c : Current) (got : Bytes) : Current :=
  { c with
    register := Checksum.advance c.register got
    produced := c.produced + got.length }

end Current

/-- How a container is walked through. -/
structure Regime where
  /-- Whether payloads are compared with what is recorded for them. -/
  verify : Bool
  /-- How the buffer cuts what is ahead. -/
  slicing : Slicing

/-- A container in memory is one slice, so that all there is to say is whether to verify. -/
instance : Coe Bool Regime := ⟨fun verify => ⟨verify, Slicing.whole⟩⟩

/-- A pass through a container. -/
structure Walk where
  place : Place
  current : Option Current
  regime : Regime

namespace Walk

/-- The walk that begins at the first byte. -/
def start (container : Bytes) (regime : Regime) : Walk :=
  ⟨.atHeader container, none, regime⟩

/-- Whether payloads are compared with what is recorded for them. -/
abbrev verify (w : Walk) : Bool := w.regime.verify

/-- How the buffer cuts what is ahead. -/
abbrev slicing (w : Walk) : Slicing := w.regime.slicing

/-- Reads the descriptor that follows the payload, if one does. -/
def settle (e : Entry) : Reader Entry :=
  match e.descriptor with
  | none => pure e
  | some width => do return e.describedBy (← Descriptor.read width)

/-- Passes over a payload of recorded length. -/
def passPayload (n : Nat) : Reader Unit := fun input =>
  if (input.take n).length = n then .ok ((), input.drop n) else .error .shortPayload

/-- Compares a finished payload with what is recorded, if the walk is to verify. -/
def verdict (w : Walk) (c : Current) (e : Entry) : Except Fault Unit :=
  if w.verify then e.check (Checksum.finish c.register) c.produced else .ok ()

/-- Leaves the entry at the end of its payload.  A walk that fails here is nowhere. -/
def finish (w : Walk) : Except IoError Bytes × Walk :=
  match w.place.rest?, w.current with
  | none, _ => (.ok [], w)
  | some rest, none => (.ok [], { w with place := .atHeader rest })
  | some rest, some c =>
    let lost : Walk := { w with place := .ended, current := none }
    match settle c.entry rest with
    | .error e => (.error e, lost)
    | .ok (e, rest) =>
      match w.verdict c e with
      | .error f => (.error (.fault f), lost)
      | .ok () => (.ok [], { lost with place := .atHeader rest })

/-- At most `n` bytes of the payload of the current entry; none for a positive `n` means that the
payload has ended, or that there is no entry. -/
def read (n : Nat) (w : Walk) : Except IoError Bytes × Walk :=
  match w.current with
  | none => (.ok [], w)
  | some c =>
    if n = 0 then (.ok [], w)
    else
      match c.entry.refusal with
      | some feature => (.error (.fault (.unsupportedArchive feature)), w)
      | none =>
        match w.place.enter w.slicing c.entry with
        | .error e => (.error e, w)
        | .ok place =>
          match place.deliver n with
          | .error e => (.error e, { w with place })
          | .ok ([], place) => finish { w with place }
          | .ok (got, place) => (.ok got, { w with place, current := some (c.absorb got) })

/-- Reads until there are `n` bytes, the payload ends, or a read fails; what was read before a
failure is kept. -/
def readUpTo (n : Nat) (w : Walk) : (Bytes × Option IoError) × Walk :=
  if n = 0 then (([], none), w)
  else
    match w.read n with
    | (.error e, w) => (([], some e), w)
    | (.ok [], w) => (([], none), w)
    | (.ok (b :: got), w) =>
      let ((more, failure), w) := readUpTo (n - (got.length + 1)) w
      ((b :: got ++ more, failure), w)
termination_by n

/-- Passes over at most `n` bytes of the payload by decoding them, and tells how many there were. -/
def skip (n : Nat) (w : Walk) : Except IoError Nat × Walk :=
  match w.readUpTo n with
  | ((got, none), w) => (.ok got.length, w)
  | ((_, some e), w) => (.error e, w)

/-- Begins the payload of the current entry, if it can be read and is not begun yet. -/
def enter (w : Walk) : Walk :=
  match w.current with
  | none => w
  | some c =>
    if c.entry.refusal.isSome then w
    else
      match w.place.enter w.slicing c.entry with
      | .error _ => w
      | .ok place => { w with place }

/-- Reads the rest of the payload: asking for a byte more than there is makes the last read meet its
end. -/
def readAll (w : Walk) : (Bytes × Option IoError) × Walk :=
  let w := w.enter
  w.readUpTo (w.place.available + 1)

/-- Leaves the current entry, so that the walk is at the next header. -/
def close (w : Walk) : Except Error Unit × Walk :=
  match w.current with
  | none => (.ok (), w)
  | some c =>
    match c.entry.compressedSize, c.produced, w.place with
    | some size, 0, .atPayload rest =>
      match (do passPayload size; settle c.entry : Reader Entry) rest with
      | .error e => (.error (.io e), { w with place := .ended })
      | .ok (_, rest) => (.ok (), { w with place := .atHeader rest, current := none })
    | _, _, _ =>
      match c.entry.refusal with
      | some feature => (.error (.fault (.unsupportedArchive feature)), w)
      | none =>
        match w.readAll with
        | ((_, none), w) => (.ok (), w)
        | ((_, some e), w) => (.error (.io e), w)

/-- The entry whose header is at the front of the input and the bytes after the header, or nothing
if the run of entries ends here. -/
def header (input : Bytes) : Except Error (Option (Entry × Bytes)) :=
  match Reader.field 4 input with
  | .error e => .error (.io e)
  | .ok (word, rest) =>
    if word = LocalHeader.signature then
      match LocalHeader.read rest with
      | .error e => .error (.io e)
      | .ok (h, rest) => do
        let e ← h.entry
        return some (e, rest)
    else if word ∈ LocalHeader.endSignatures then .ok none
    else .error (.fault (.invalidArchive (.signature word)))

/-- Leaves the current entry and moves to the next one, if there is one. -/
def next (w : Walk) : Except Error (Option Record) × Walk :=
  match w.close with
  | (.error e, w) => (.error e, w)
  | (.ok (), w) =>
    let lost : Walk := { w with place := .ended }
    match w.place with
    | .atHeader [] => (.ok none, lost)
    | .atHeader rest =>
      match header rest with
      | .error e => (.error e, lost)
      | .ok none => (.ok none, lost)
      | .ok (some (e, rest)) =>
        (.ok (some e.record),
          { w with place := .atPayload rest, current := some (Current.untouched e) })
    | _ => (.ok none, lost)

/-- A bound on the entries ahead: each has a header of at least one byte. -/
def horizon (w : Walk) : Nat :=
  (w.place.rest?.getD []).length + 1

/-- Goes on to the first entry that satisfies the condition, at most `fuel` entries ahead. -/
def findWithin (fuel : Nat) (p : Record → Bool) (w : Walk) :
    Except Error (Option Record) × Walk :=
  match fuel with
  | 0 => (.ok none, w)
  | fuel + 1 =>
    match w.next with
    | (.ok (some r), w) => if p r then (.ok (some r), w) else findWithin fuel p w
    | stopped => stopped

/-- Goes on to the first entry that satisfies the condition, and stays there. -/
def find (p : Record → Bool) (w : Walk) : Except Error (Option Record) × Walk :=
  w.findWithin w.horizon p

/-- Visits at most `fuel` entries. -/
def sweepWithin {α : Type} (visit : Walk → α × Walk) (fuel : Nat) (w : Walk) :
    (List (Record × α) × Option Error) × Walk :=
  match fuel with
  | 0 => (([], none), w)
  | fuel + 1 =>
    match w.next with
    | (.ok (some r), w) =>
      let (a, w) := visit w
      let ((found, failure), w) := sweepWithin visit fuel w
      (((r, a) :: found, failure), w)
    | (.ok none, w) => (([], none), w)
    | (.error e, w) => (([], some e), w)

/-- Visits the entries ahead and collects what the visits give, up to the end of the entries or an
error. -/
def sweep {α : Type} (visit : Walk → α × Walk) (w : Walk) :
    (List (Record × α) × Option Error) × Walk :=
  sweepWithin visit w.horizon w

/-- The records of the entries ahead when none is touched, and the error that ends them, if one
does. -/
def records (w : Walk) : List Record × Option Error :=
  let ((found, failure), _) := w.sweep fun w => ((), w)
  (found.map Prod.fst, failure)

end Walk

end ZipMount
