/-
  Stencil/SyntaxVersion.lean
  ==========================
  **Syntax versions and the bounds that templates put on them.**

  A template that uses old syntax is bounded: it is valid only at versions
  below its bound.  Of several bounds the lowest counts, and of equal ones the
  first.
-/

namespace Stencil

/-- A version of the template syntax. -/
inductive SyntaxVersion where
  | v1 | v2
deriving DecidableEq, Repr

namespace SyntaxVersion

def name : SyntaxVersion → String
  | v1 => "1.0"
  | v2 => "2.0"

def ofName? : String → Option SyntaxVersion
  | "1.0" => some v1
  | "2.0" => some v2
  | _ => none

/-- The complaint about a text that names no version. -/
def unknownMessage (text : String) : String := "Unknown syntax version '" ++ text ++ "'"

/-- The first version is at most every version, the second only itself. -/
def le : SyntaxVersion → SyntaxVersion → Bool
  | v2, v1 => false
  | _, _ => true

end SyntaxVersion

/-- A bound below which a template's syntax is valid, and why. -/
structure VersionBound where
  version : SyntaxVersion
  reason : String
deriving DecidableEq, Repr

namespace VersionBound

/-- Of a bound so far and a new one, the lower; the old one when they are
    equal. -/
def lower (current : Option VersionBound) (new : VersionBound) : VersionBound :=
  match current with
  | some old => if old.version.le new.version then old else new
  | none => new

/-- A declared version breaks a bound that it reaches. -/
def violatedBy (bound : VersionBound) (declared : SyntaxVersion) : Bool :=
  bound.version.le declared

end VersionBound

end Stencil
