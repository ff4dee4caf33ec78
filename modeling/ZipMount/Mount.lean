import ZipMount.Handle
import ZipMount.Host
import ZipMount.OpenMode
import ZipMount.Walk

/-!
# The mounted file system

A `Mount` answers questions about the entries of containers and opens them.  It keeps nothing from
one call to the next: every call finds the container by the path it is given and walks through it
from the first entry.

Questions never fail: a container that is missing or unreadable reads as one in which nothing is.
Opening and listing report their errors.  Everything that would change something is refused.
-/

namespace ZipMount

variable [Inflater]

/-- A file system over the containers of a host. -/
structure Mount where
  settings : Settings
  deriving DecidableEq, Repr

namespace Mount

/-- The file system with standard settings. -/
def standard : Mount := ⟨Settings.standard⟩

/-- The file system with the given settings, which are checked. -/
def withSettings (s : Settings) : Except Error Mount := do
  return ⟨← s.checked⟩

/-- How a container of the given length is walked through. -/
def regime (m : Mount) (length : Nat) : Regime where
  verify := m.settings.verifyChecksums
  slicing := Inflater.slicing m.settings.ioBufferSize length

/-- A walk through the container of a path. -/
def openContainer (m : Mount) (host : Host) (p : VirtualPath) : Except Error Walk :=
  match host.files.read (p.container host.environment) with
  | .ok bytes => .ok (Walk.start bytes (m.regime bytes.length))
  | .error e => .error (.io e)

/-- The first entry of a path's name and the walk that is at it, if there is one. -/
def locate (m : Mount) (host : Host) (p : VirtualPath) : Except Error (Option (Record × Walk)) := do
  let w ← m.openContainer host p
  match w.find (·.name = p.entryName) with
  | (.ok (some r), w) => return some (r, w)
  | (.ok none, _) => return none
  | (.error e, _) => throw e

/-- A walk at the payload of the entry of a path. -/
def openEntry (m : Mount) (host : Host) (p : VirtualPath) : Except Error Walk := do
  match ← m.locate host p with
  | some (_, w) => return w
  | none => throw (.fault (.notFound p.text))

/-- Whether a path names the root or an entry. -/
def contains (m : Mount) (host : Host) (p : VirtualPath) : Bool :=
  p.isRoot ||
    match m.locate host p with
    | .ok found => found.isSome
    | .error _ => false

/-- The name under which entries nest below the given one. -/
def nestPrefix (name : String) : List Char :=
  (name.toList.reverse.dropWhile (· = '/')).reverse ++ ['/']

/-- Whether a record decides if the given name is a directory: it has the name, or nests below
it. -/
def decides (name : String) (r : Record) : Bool :=
  r.name = name || (nestPrefix name).isPrefixOf r.name.toList

/-- Whether a path names the root, a directory entry, or a name that entries nest below; the first
entry that decides it counts. -/
def isDirectory (m : Mount) (host : Host) (p : VirtualPath) : Bool :=
  p.isRoot ||
    match m.openContainer host p with
    | .error _ => false
    | .ok w =>
      match w.find (decides p.entryName) with
      | (.ok (some r), _) => if r.name = p.entryName then r.isDirectory else true
      | _ => false

/-- The number of bytes left of a payload, found by passing over at most `chunk` of them at once, in
at most `fuel` steps. -/
def measureWithin (chunk : Nat) : Nat → Walk → Except IoError Nat
  | 0, _ => .ok 0
  | fuel + 1, w =>
    match w.skip chunk with
    | (.error e, _) => .error e
    | (.ok 0, _) => .ok 0
    | (.ok (k + 1), w) => do
      let more ← measureWithin chunk fuel w
      return k + 1 + more

/-- The number of bytes left of a payload; every step but the last passes over one at least. -/
def measure (chunk : Nat) (w : Walk) : Except IoError Nat :=
  let w := w.enter
  measureWithin chunk (w.place.available + 1) w

/-- The size of the entry of a path, if it can be found: the recorded one, or else the measured
one. -/
def knownSize (m : Mount) (host : Host) (p : VirtualPath) : Except Error Nat := do
  match ← m.locate host p with
  | none => return 0
  | some (r, w) =>
    match r.declaredSize with
    | some n => return n
    | none => (measure m.settings.sizeProbeChunk w).mapError Error.io

/-- The size of the entry of a path, zero if there is none or it cannot be found. -/
def size (m : Mount) (host : Host) (p : VirtualPath) : Nat :=
  match m.knownSize host p with
  | .ok n => n
  | .error _ => 0

/-- Entries carry no reliable time. -/
def lastModified (_m : Mount) (_p : VirtualPath) : Nat := 0

/-- What the names of the entries in a directory begin with. -/
def directoryPrefix (name : String) : List Char :=
  if name.toList = [] ∨ name.toList.getLast? = some '/' then name.toList else name.toList ++ ['/']

/-- The name of the child of a directory that an entry is or nests below, if it is in the directory:
what the names in the directory begin with, and one more component. -/
def childName (front : List Char) (entry : List Char) : Option (List Char) :=
  if front.isPrefixOf entry then
    match (entry.drop front.length).takeWhile (· ≠ '/') with
    | [] => none
    | component => some (front ++ component)
  else none

/-- The names of the children of a directory, each once, in the order in which entries give rise to
them. -/
def children (directory : String) (entries : List String) : List String :=
  (entries.filterMap fun e => childName (directoryPrefix directory) e.toList).eraseDups.map
    String.ofList

/-- The paths of the children of a directory. -/
def list (m : Mount) (host : Host) (p : VirtualPath) : Except Error (List VirtualPath) := do
  let w ← m.openContainer host p
  match w.records with
  | (_, some e) => throw e
  | (found, none) => return (children p.entryName (found.map Record.name)).map p.child

/-- The walks through containers as streams of entries. -/
def source (m : Mount) : EntrySource Host Walk where
  openEntry p host := (m.openEntry host p, host)
  read n w host :=
    let (r, w) := w.read n
    (r, w, host)
  supportsSkip _ := true
  skip n w host :=
    let (r, w) := w.skip n
    (r, w, host)

/-- A handle on the entry of a path.  Its length comes from a walk of its own, and every mode yields
the same handle. -/
def openPath (m : Mount) (host : Host) (p : VirtualPath) (_mode : OpenMode) :
    Except Error (Handle Walk) := do
  if p.isRoot then throw (.fault (.notFound p.text))
  let w ← m.openEntry host p
  return Handle.ofStream p w (m.size host p) m.settings.skipBufferSize

/-- A handle for reading the entry of a path from its first byte. -/
def openInput (m : Mount) (host : Host) (p : VirtualPath) : Except Error (Handle Walk) :=
  m.openPath host p .read

/-- A path without its scheme tag. -/
def withoutScheme (_m : Mount) (p : VirtualPath) : String := p.withoutScheme

/-- There are no links, so every path is the real one. -/
def realPath (_m : Mount) (p : VirtualPath) : VirtualPath := p

/-- Nothing can be written. -/
def canWrite (_m : Mount) (_p : VirtualPath) : Bool := false

/-- Everything is read-only already. -/
def setReadOnly (_m : Mount) (_p : VirtualPath) : Bool := true

/-- Directories are there already or cannot be made; either way there is nothing to do. -/
def createDirectory (_m : Mount) (_p : VirtualPath) : Except Error Unit := .ok ()

/-- The error of every operation that would change something. -/
def refusal : Error := .fault (.unsupported "write")

/-- Files cannot be made. -/
def createFile (_m : Mount) (_p : VirtualPath) : Except Error Bool := .error refusal

/-- Nothing can be deleted. -/
def delete (_m : Mount) (_p : VirtualPath) : Except Error Unit := .error refusal

/-- Nothing can be moved. -/
def moveTo (_m : Mount) (_p : VirtualPath) (_target : String) : Except Error Unit := .error refusal

/-- Nothing can be opened for writing. -/
def openOutput (_m : Mount) (_p : VirtualPath) (_append : Bool) : Except Error Unit := .error refusal

end Mount

end ZipMount
