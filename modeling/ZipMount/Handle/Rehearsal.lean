import ZipMount.Handle

/-!
# Rehearsed sources

A `Rehearsal` is a source over bytes in memory whose behaviour is written down beforehand: how many
bytes a call hands over at most, whether bulk skip is offered, and which calls fail and how.  Calls
are counted across all streams, and every call is logged, so a rehearsal shows what a handle asks of
its streams.
-/

namespace ZipMount

/-- The calls that a rehearsal can make fail. -/
inductive Call
  | reading
  | skipping
  | opening
  deriving DecidableEq, Repr

/-- A failure that is to happen: the call, its number among the calls of its sort counted from one,
and the class of the failure. -/
structure Mishap where
  call : Call
  number : Nat
  kind : IoKind
  deriving DecidableEq, Repr

/-- How the streams of a rehearsal behave. -/
structure Script where
  /-- The bytes that reopened streams serve. -/
  data : Bytes
  /-- Whether streams offer bulk skip. -/
  bulkSkip : Bool
  /-- Whether a bulk skip fails because it is missing. -/
  missingSkip : Bool
  maxRead : Option Nat
  maxSkip : Option Nat
  mishaps : List Mishap

/-- A logged call and what came of it. -/
inductive Event
  | read (asked : Nat) (outcome : Except IoKind Nat)
  | skip (asked : Nat) (outcome : Except IoKind Nat)
  | missingSkip (asked : Nat)
  | opening (failure : Option IoKind)

/-- The counted and logged calls. -/
structure Rehearsal where
  script : Script
  reads : Nat
  skips : Nat
  opens : Nat
  log : List Event

namespace Rehearsal

/-- A rehearsal before the first call. -/
def begin (script : Script) : Rehearsal := ⟨script, 0, 0, 0, []⟩

/-- The class of the failure that is to happen at a call, if one is. -/
def mishap (w : Rehearsal) (call : Call) (number : Nat) : Option IoKind :=
  (w.script.mishaps.find? fun m => m.call = call && m.number = number).map Mishap.kind

/-- A further logged event. -/
def record (w : Rehearsal) (e : Event) : Rehearsal :=
  { w with log := w.log ++ [e] }

/-- The least of a number and a limit, if there is a limit. -/
def atMost (limit : Option Nat) (n : Nat) : Nat :=
  (limit.map (min n)).getD n

/-- The failure that a mishap shows as. -/
def injected (kind : IoKind) : IoError := .described kind "injected"

/-- Opens the entry; a mishap of the class "not found" says that the entry is not there. -/
def openEntry (path : VirtualPath) (w : Rehearsal) : Except Error Bytes × Rehearsal :=
  let number := w.opens + 1
  let w := { w with opens := number }
  match w.mishap .opening number with
  | none => (.ok w.script.data, w.record (.opening none))
  | some kind =>
    let e := if kind = .notFound then Error.fault (.notFound path.text) else .io (injected kind)
    (.error e, w.record (.opening (some kind)))

/-- Reads from the bytes that are left. -/
def read (n : Nat) (left : Bytes) (w : Rehearsal) : Except IoError Bytes × Bytes × Rehearsal :=
  let number := w.reads + 1
  let w := { w with reads := number }
  match w.mishap .reading number with
  | some kind => (.error (injected kind), left, w.record (.read n (.error kind)))
  | none =>
    let got := left.take (atMost w.script.maxRead n)
    (.ok got, left.drop got.length, w.record (.read n (.ok got.length)))

/-- Passes over some of the bytes that are left. -/
def skip (n : Nat) (left : Bytes) (w : Rehearsal) : Except IoError Nat × Bytes × Rehearsal :=
  if w.script.missingSkip then (.error .noBulkSkip, left, w.record (.missingSkip n))
  else
    let number := w.skips + 1
    let w := { w with skips := number }
    match w.mishap .skipping number with
    | some kind => (.error (injected kind), left, w.record (.skip n (.error kind)))
    | none =>
      let k := (left.take (atMost w.script.maxSkip n)).length
      (.ok k, left.drop k, w.record (.skip n (.ok k)))

/-- The streams of a rehearsal; a stream is the bytes it has left. -/
def source (script : Script) : EntrySource Rehearsal Bytes where
  openEntry := openEntry
  read := read
  supportsSkip := fun _ => script.bulkSkip
  skip := skip

end Rehearsal

end ZipMount
