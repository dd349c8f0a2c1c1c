/-
  Stencil/Body/Scope.lean
  =======================
  **What a template can see of its file**, and the names in it.

  A template is called by its full name.  A name that starts with a dot is
  completed by the namespace of the file, and the first segment of any other
  dotted name may be an alias.
-/
import Stencil.ContentKind
import Stencil.Location
import Stencil.Text.Identifier

namespace Stencil

open Text (isIdentifier isDottedName)

/-- A short name for a namespace, declared at a place. -/
structure Alias where
  namespaceName : String
  name : String
  loc : Location
deriving DecidableEq, Repr

/-- The declarations of a file that its templates depend on. -/
structure Scope where
  namespaceName : String
  package : Option String
  autoescape : Autoescape
  aliases : List Alias
deriving DecidableEq, Repr

namespace Scope

/-- A name of the form `.name`. -/
def isShort : List Char → Bool
  | '.' :: name => isIdentifier name
  | _ => false

/-- A dotted name with at least one dot. -/
def isFull (name : List Char) : Bool := name.contains '.' && isDottedName name

/-- The full name for a name that starts with a dot. -/
def complete (scope : Scope) (name : List Char) : String :=
  scope.namespaceName ++ String.ofList name

/-- The full name with an alias in its first segment resolved. -/
def resolveAlias (scope : Scope) (name : List Char) : String :=
  let first := name.takeWhile (· != '.')
  match scope.aliases.find? (·.name == String.ofList first) with
  | some found => found.namespaceName ++ String.ofList (name.dropWhile (· != '.'))
  | none => String.ofList name

/-- The full name of the template that a call names. -/
def callee? (scope : Scope) (name : List Char) : Option String :=
  if isShort name then some (scope.complete name)
  else if isFull name then some (scope.resolveAlias name)
  else none

end Scope

end Stencil
