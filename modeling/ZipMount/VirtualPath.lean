/-!
# Virtual paths

A virtual path names an entry of a container by one text, `zip2:container!entry`.  The scheme tag is
optional.  The container part ends at the first `!` after the tag.  The entry part begins after the
first `!` of the whole text, unless that is its first character, and is normalised: backslashes
become slashes, and leading slashes are dropped.

A path is its text; all parts are computed from it.  Only the place of the container on the host
depends on anything else, namely on the home directory that a leading `~` stands for.
-/

namespace ZipMount

/-- The variables of the host that name the home directory. -/
structure Environment where
  home : Option String
  userProfile : Option String
  deriving DecidableEq, Repr

namespace Environment

/-- The home directory: the second variable counts only when the first is unset. -/
def homeDirectory (env : Environment) : Option String :=
  env.home.or env.userProfile

/-- Whether what follows a leading `~` leaves it alone as a whole path component. -/
def endsComponent : List Char → Bool
  | [] => true
  | c :: _ => c = '/' || c = '\\'

/-- The path with a leading `~` component replaced by the home directory, if there is one. -/
def expandHome (env : Environment) (path : String) : String :=
  match path.toList, env.homeDirectory with
  | '~' :: rest, some home => if endsComponent rest then home ++ String.ofList rest else path
  | _, _ => path

end Environment

/-- A path to an entry of a container, or to the root of one. -/
structure VirtualPath where
  text : String
  deriving DecidableEq, Repr

namespace VirtualPath

/-- The tag that paths into containers carry. -/
def scheme : String := "zip2"

/-- The characters after an optional leading scheme tag. -/
def afterScheme : List Char → List Char
  | 'z' :: 'i' :: 'p' :: '2' :: ':' :: rest => rest
  | cs => cs

/-- The characters of the container part of a path. -/
def containerChars (cs : List Char) : List Char :=
  (afterScheme cs).takeWhile (· ≠ '!')

/-- The characters after the first `!`, none if there is none or if it comes first. -/
def afterSeparator : List Char → List Char
  | [] => []
  | c :: cs => if c = '!' then [] else (cs.dropWhile (· ≠ '!')).drop 1

/-- A slash for a backslash, any other character as it is. -/
def slashed (c : Char) : Char :=
  if c = '\\' then '/' else c

/-- Backslashes become slashes, and leading slashes are dropped. -/
def normalize (cs : List Char) : List Char :=
  (cs.map slashed).dropWhile (· = '/')

/-- The path without its scheme tag. -/
def withoutScheme (p : VirtualPath) : String :=
  String.ofList (afterScheme p.text.toList)

/-- The container part as it stands in the path. -/
def containerText (p : VirtualPath) : String :=
  String.ofList (containerChars p.text.toList)

/-- The place of the container on the host. -/
def container (env : Environment) (p : VirtualPath) : String :=
  env.expandHome p.containerText

/-- The normalised name of the entry, empty for the root of the container. -/
def entryName (p : VirtualPath) : String :=
  String.ofList (normalize (afterSeparator p.text.toList))

/-- Whether the path names the root of its container. -/
def isRoot (p : VirtualPath) : Bool :=
  p.entryName.isEmpty

/-- The root of the container, whose text every path to an entry begins with when it is built by
`child`. -/
def root (p : VirtualPath) : VirtualPath :=
  ⟨scheme ++ ":" ++ p.containerText ++ "!"⟩

/-- The path of another entry of the same container. -/
def child (p : VirtualPath) (name : String) : VirtualPath :=
  ⟨p.root.text ++ name⟩

/-- Whether the container is given by an absolute path of the host. -/
def isAbsolute (env : Environment) (p : VirtualPath) : Bool :=
  (p.container env).toList.head? = some '/'

/-- The characters before the last slash, if there is a slash. -/
def beforeLastSlash : List Char → Option (List Char)
  | [] => none
  | c :: cs =>
    match beforeLastSlash cs with
    | some front => some (c :: front)
    | none => if c = '/' then some [] else none

/-- The path whose entry name ends before the last slash of this one's. -/
def parent (p : VirtualPath) : Option VirtualPath :=
  (beforeLastSlash p.entryName.toList).map fun front => p.child (String.ofList front)

/-- The first `limit` paths of the chain of parents. -/
def ancestors : Nat → VirtualPath → List VirtualPath
  | 0, _ => []
  | limit + 1, p =>
    match p.parent with
    | none => []
    | some q => q :: ancestors limit q

end VirtualPath

end ZipMount
