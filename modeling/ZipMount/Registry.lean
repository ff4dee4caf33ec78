import ZipMount.Error

/-!
# The registry of schemes

A host that dispatches paths by their scheme tag looks the provider up in a `Registry`.  A path
carries a tag when it has a colon that is not among its first two bytes, so a drive letter is not
taken for one.  The registry is ordered by tag, and each tag occurs once.
-/

namespace ZipMount

/-- Providers by scheme tag, in the order of the tags. -/
structure Registry (π : Type) where
  providers : List (String × π)
  deriving Repr

namespace Registry

variable {π : Type}

/-- The registry without providers. -/
def empty : Registry π := ⟨[]⟩

/-- The ordered list with a provider put in place of the one of the same tag, or where its tag
belongs. -/
def put (scheme : String) (provider : π) : List (String × π) → List (String × π)
  | [] => [(scheme, provider)]
  | (other, q) :: rest =>
    if scheme = other then (scheme, provider) :: rest
    else if scheme < other then (scheme, provider) :: (other, q) :: rest
    else (other, q) :: put scheme provider rest

/-- The registry with a provider, which replaces an earlier one of the same tag. -/
def register (r : Registry π) (scheme : String) (provider : π) : Registry π :=
  ⟨put scheme provider r.providers⟩

/-- The provider of a tag. -/
def find? (r : Registry π) (scheme : String) : Option π :=
  r.providers.lookup scheme

/-- The provider of a tag, if there is one, and the registry without it. -/
def unregister (r : Registry π) (scheme : String) : Option π × Registry π :=
  (r.find? scheme, ⟨r.providers.filter (·.1 ≠ scheme)⟩)

/-- The registered tags, in order. -/
def schemes (r : Registry π) : List String :=
  r.providers.map Prod.fst

/-- The scheme tag of a path, if it carries one. -/
def schemeOf (path : String) : Option String :=
  let tag := String.ofList (path.toList.takeWhile (· ≠ ':'))
  if ':' ∈ path.toList ∧ 2 ≤ tag.utf8ByteSize then some tag else none

/-- The provider that a path is dispatched to. -/
def providerFor (r : Registry π) (path : String) : Except Error π :=
  match (schemeOf path).bind r.find? with
  | some provider => .ok provider
  | none => .error (.fault (.unknownScheme path))

end Registry

end ZipMount
