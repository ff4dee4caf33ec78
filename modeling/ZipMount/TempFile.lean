import ZipMount.Mount

/-!
# Temporary files

The one thing a host may have made is a temporary file, and only in the temporary directory of the
host.  Its name is a stem taken from the path, a token that makes it unique, and a suffix.
-/

namespace ZipMount

/-- A file in the temporary directory. -/
structure TempFile where
  stem : String
  token : String
  suffix : String
  /-- Whether the file goes away when it is released. -/
  deleteOnRelease : Bool
  deriving DecidableEq, Repr

namespace TempFile

/-- The name of the file. -/
def name (f : TempFile) : String := f.stem ++ f.token ++ f.suffix

/-- The last named component of a path of the host, if it ends in one. -/
def lastComponent (path : String) : Option String :=
  match ((FileTable.components path).filter (· ≠ ".")).getLast? with
  | some name => if name = ".." then none else some name
  | none => none

/-- What the name begins with: the last component of the entry name, or else the name of the
container, or else the scheme tag; a dot follows. -/
def stemOf (environment : Environment) (p : VirtualPath) : String :=
  let entry := (FileTable.components p.entryName).getLast?
  ((entry.or (lastComponent (p.container environment))).getD VirtualPath.scheme) ++ "."

/-- The temporary directory after the file has been released. -/
def release (f : TempFile) (directory : FileTable) : FileTable :=
  if f.deleteOnRelease then directory.erase [f.name] else directory

/-- Whether the file is in the temporary directory. -/
def isIn (f : TempFile) (directory : FileTable) : Bool :=
  (directory.find? [f.name]).isSome

end TempFile

/-- Makes an empty file in the temporary directory; anywhere else nothing can be made. -/
def Mount.createTempFile (_m : Mount) (environment : Environment) (directory : FileTable)
    (token : String) (p : VirtualPath) (suffix : String) (deleteOnExit inTempDirectory : Bool) :
    Except Error (TempFile × FileTable) := do
  if !inTempDirectory then throw (.fault .readOnlyFileSystem)
  let f : TempFile :=
    { stem := TempFile.stemOf environment p, token, suffix, deleteOnRelease := deleteOnExit }
  let directory ← (directory.write f.name []).mapError Error.io
  return (f, directory)

end ZipMount
