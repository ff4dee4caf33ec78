import ZipMount.FileTable
import ZipMount.Settings.Document
import ZipMount.Text.Utf8
import ZipMount.VirtualPath

/-!
# The host

What the file system finds around it: the files of the host and the variables that name the home
directory.
-/

namespace ZipMount

/-- The surroundings of the file system. -/
structure Host where
  files : FileTable
  environment : Environment

/-- The settings in a document of the host. -/
def Settings.load (host : Host) (path : String) : Except Error Settings := do
  let bytes ← (host.files.read path).mapError Error.io
  match Utf8.decode? bytes with
  | some document => Settings.read document
  | none => throw (.io .notText)

end ZipMount
