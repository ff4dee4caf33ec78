import ZipMount.Mount

/-!
# Serving a database file

A database engine reads its file through callbacks that answer with codes.  Only the main database
can be opened; it is served through a handle on an entry.  Whatever would make, change or remove a
file is refused, and every lock is granted because entries never change.
-/

namespace ZipMount

namespace Database

variable [Inflater]

/-- The answers of the callbacks. -/
inductive Status
  | ok
  | error
  | readOnly
  | notFound
  | cannotOpen
  | readFailed
  | shortRead
  | sizeFailed
  | deleteFailed
  deriving DecidableEq, Repr

/-- The code of an answer. -/
def Status.code : Status → Nat
  | .ok => 0
  | .error => 1
  | .readOnly => 8
  | .notFound => 12
  | .cannotOpen => 14
  | .readFailed => 266
  | .shortRead => 522
  | .sizeFailed => 1802
  | .deleteFailed => 2570

/-- The name under which the callbacks are registered. -/
def registeredName : String := "zip2"

/-- The version of the set of callbacks for names. -/
def callbackVersion : Nat := 2

/-- The longest name the callbacks take. -/
def maxNameLength : Nat := 1024

/-- The flag for opening the main database. -/
def mainDatabase : BitVec 32 := 0x100

/-- The flag for opening without writing. -/
def openReadOnly : BitVec 32 := 1

/-- The flags for opening with writing and for making the file. -/
def openForWriting : BitVec 32 := 2 ||| 4

/-- The flags that an opened file turns out to have. -/
def grantedFlags (requested : BitVec 32) : BitVec 32 :=
  (requested &&& ~~~openForWriting) ||| openReadOnly

/-- The question whether a file can be written. -/
def accessReadWrite : Int := 1

/-- An opened file; after closing it has no handle. -/
structure File where
  mount : Mount
  handle : Option (Handle Walk)

/-- Opens a file by its name, unless there is no name or it is not text. -/
def openFile (mount : Option Mount) (host : Host) (name : Option Bytes) (flags : BitVec 32) :
    Status × Option File :=
  match mount, name.bind Utf8.decode? with
  | none, _ => (.error, none)
  | some _, none => (.cannotOpen, none)
  | some m, some text =>
    if flags &&& mainDatabase = 0 then (.cannotOpen, none)
    else
      match m.openPath host ⟨text⟩ .read with
      | .error _ => (.cannotOpen, none)
      | .ok h => (.ok, some ⟨m, some h⟩)

/-- The flags that opening reports, if it has opened a file and the caller wants to know them. -/
def reportedFlags (opened : Option File) (requested : BitVec 32) (wanted : Bool) :
    Option (BitVec 32) :=
  if opened.isSome && wanted then some (grantedFlags requested) else none

/-- Tells whether a file is there; none can be written. -/
def access (mount : Option Mount) (host : Host) (name : Option Bytes) (question : Int) :
    Status × Option Bool :=
  match mount, name.bind Utf8.decode? with
  | some m, some text =>
    (.ok, some (question ≠ accessReadWrite && m.contains host ⟨text⟩))
  | _, _ => (.error, none)

/-- Files cannot be deleted. -/
def delete : Status := .deleteFailed

/-- The full name of a file is its name, if that and its end mark fit; a room below zero is without
limit. -/
def fullName (name : Bytes) (room : Int) : Status × Option Bytes :=
  if 0 ≤ room ∧ room < name.length + 1 then (.cannotOpen, none) else (.ok, some name)

/-- The number of random bytes supplied. -/
def randomness (wanted : Int) (hasRoom : Bool) : Int :=
  if 0 < wanted ∧ hasRoom then wanted else 0

/-- The number of microseconds slept, as it was asked for. -/
def sleep (microseconds : Int) : Int := microseconds

/-- The last error has no text. -/
def lastError : Int := 0

/-- The clock always answers. -/
def currentTime : Status := .ok

namespace File

/-- The version of the set of callbacks for files. -/
def callbackVersion : Nat := 1

/-- The size of a sector. -/
def sectorSize : Nat := 4096

/-- The characteristic of a file that never changes. -/
def characteristics : Nat := 0x2000

/-- Reads `amount` bytes at an offset.  The buffer is filled up with zeros where the file ends before
the last byte; after a failure its contents do not count. -/
def read (host : Host) (amount offset : Int) (f : File) : Status × Bytes × File :=
  match f.handle with
  | none => (.readFailed, [], f)
  | some h =>
    if amount < 0 ∨ offset < 0 then (.readFailed, [], f)
    else
      let n := amount.toNat
      match (h.setPosition offset.toNat).readUpTo f.mount.source n host with
      | ((_, some _), h, _) => (.readFailed, [], { f with handle := some h })
      | ((got, none), h, _) =>
        (if got.length < n then .shortRead else .ok,
          got ++ List.replicate (n - got.length) 0, { f with handle := some h })

/-- The size of the file as a signed 64-bit number. -/
def size (f : File) : Status × Option Int :=
  match f.handle with
  | none => (.sizeFailed, none)
  | some h => (.ok, some (BitVec.ofNat 64 h.length).toInt)

/-- Lets the handle go. -/
def close (f : File) : Status × File := (.ok, { f with handle := none })

/-- Writing is refused. -/
def write (_f : File) : Status := .readOnly

/-- Truncating is refused. -/
def truncate (_f : File) : Status := .readOnly

/-- There is nothing to bring to the disk. -/
def sync (_f : File) : Status := .ok

/-- Every lock is granted. -/
def lock (_f : File) : Status := .ok

/-- Every lock can be given up. -/
def unlock (_f : File) : Status := .ok

/-- No one holds a reserved lock. -/
def hasReservedLock (_f : File) : Status × Bool := (.ok, false)

/-- No control operation is known. -/
def control (_f : File) : Status := .notFound

end File

end Database

end ZipMount
