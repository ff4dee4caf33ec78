import ZipMount.Bytes
import ZipMount.Error

/-!
# The files of the host

A `FileTable` holds the files and directories below one directory of the host, where relative paths
begin.  Looking a path up follows it component by component: each but the last has to be a
directory, and the first thing in the way decides how the look-up fails.  Of what lies outside of
the table only this is known, that there are directories to pass through.
-/

namespace ZipMount

/-- What is found at a place. -/
inductive Node
  | file (data : Bytes)
  | directory
  deriving DecidableEq, Repr

/-- The files and directories below the directory where relative paths begin. -/
structure FileTable where
  nodes : List (List String × Node)
  deriving Repr

/-- Where following a path has led. -/
inductive Location
  /-- To a place in the table, given by its components. -/
  | inside (place : List String)
  /-- To a directory outside of the table. -/
  | outside
  deriving DecidableEq, Repr

/-- The longest name of a file, in bytes. -/
def maxNameLength : Nat := 255

/-- The longest path, in bytes. -/
def maxPathLength : Nat := 4095

namespace FileTable

/-- A directory with nothing in it. -/
def empty : FileTable := ⟨[]⟩

/-- What is at a place; the directory where relative paths begin is always there. -/
def find? (t : FileTable) (place : List String) : Option Node :=
  if place = [] then some .directory else t.nodes.lookup place

/-- The parts of a path between slashes. -/
def parts (path : String) : List String :=
  path.splitOn "/"

/-- The named components of a path. -/
def components (path : String) : List String :=
  (parts path).filter (· ≠ "")

/-- Where following a path begins. -/
def origin (path : String) : Location :=
  if path.toList.head? = some '/' then .outside else .inside []

/-- Refuses everything but directories. -/
def requireDirectory (t : FileTable) : Location → Except IoError Unit
  | .outside => .ok ()
  | .inside place =>
    match t.find? place with
    | some .directory => .ok ()
    | _ => .error (.host .notADirectory)

/-- Where one component leads. -/
def step (t : FileTable) (l : Location) (name : String) : Except IoError Location := do
  t.requireDirectory l
  if name = "." then return l
  else if name = ".." then
    match l with
    | .inside [] | .outside => return .outside
    | .inside place => return .inside place.dropLast
  else if maxNameLength < name.utf8ByteSize then throw (.host .invalidFilename)
  else
    match l with
    | .outside => throw (.host .notFound)
    | .inside place =>
      if (t.find? (place ++ [name])).isSome then return .inside (place ++ [name])
      else throw (.host .notFound)

/-- Refuses texts that cannot be paths. -/
def requirePath (path : String) : Except IoError Unit :=
  if '\x00' ∈ path.toList then .error .nulInName
  else if path = "" then .error (.host .notFound)
  else if maxPathLength < path.utf8ByteSize then .error (.host .invalidFilename)
  else .ok ()

/-- Where a path leads; one that ends with a slash has to lead to a directory. -/
def follow (t : FileTable) (path : String) : Except IoError Location := do
  requirePath path
  let l ← (components path).foldlM t.step (origin path)
  if (parts path).getLast? = some "" then t.requireDirectory l
  return l

/-- The bytes of the file at a path. -/
def read (t : FileTable) (path : String) : Except IoError Bytes := do
  match ← t.follow path with
  | .outside => throw (.host .isADirectory)
  | .inside place =>
    match t.find? place with
    | some (.file data) => return data
    | some .directory => throw (.host .isADirectory)
    | none => throw (.host .notFound)

/-- The places above a place, nearest last. -/
def above (place : List String) : List (List String) :=
  (List.range (place.length - 1)).map fun i => place.take (i + 1)

/-- The table without anything at a place. -/
def erase (t : FileTable) (place : List String) : FileTable :=
  ⟨t.nodes.filter (·.1 ≠ place)⟩

/-- The table with something else at a place; missing directories above it are made. -/
def insert (t : FileTable) (place : List String) (node : Node) : FileTable :=
  let missing := (above place).filter fun p => (t.find? p).isNone
  ⟨(place, node) :: missing.map (fun p => (p, Node.directory)) ++ (t.erase place).nodes⟩

/-- The place where a file of the given path can be made or overwritten. -/
def writable (t : FileTable) (path : String) : Except IoError (List String) := do
  requirePath path
  let names := components path
  let l ← names.dropLast.foldlM t.step (origin path)
  t.requireDirectory l
  match names.getLast? with
  | none => throw (.host .isADirectory)
  | some name =>
    if (parts path).getLast? = some "" ∨ name = "." ∨ name = ".." then
      throw (.host .isADirectory)
    else if maxNameLength < name.utf8ByteSize then throw (.host .invalidFilename)
    else
      match l with
      | .outside => throw (.host .permissionDenied)
      | .inside place =>
        if t.find? (place ++ [name]) = some .directory then throw (.host .isADirectory)
        else return place ++ [name]

/-- The table with a file made or overwritten. -/
def write (t : FileTable) (path : String) (data : Bytes) : Except IoError FileTable := do
  return t.insert (← t.writable path) (.file data)

end FileTable

end ZipMount
