/-
  Stencil/Text/Identifier.lean
  ============================
  **Names in templates**: identifiers, dotted names and dashed names.

  All of them are made of ASCII letters, digits and underscores; other letters
  never belong to a name.
-/
import Stencil.Text.Split

namespace Stencil.Text

/-- The characters a name may start with: ASCII letters and the underscore. -/
def isNameStart (c : Char) : Bool := c.isAlpha || c == '_'

/-- The characters inside a name: ASCII letters, digits and the underscore. -/
def isNamePart (c : Char) : Bool := c.isAlphanum || c == '_'

/-- An identifier is a name character other than a digit, followed by any
    number of name characters. -/
def isIdentifier : List Char → Bool
  | [] => false
  | c :: cs => isNameStart c && cs.all isNamePart

/-- A dotted name is a sequence of identifiers with single dots between them. -/
def isDottedName (cs : List Char) : Bool := (splitOn (· == '.') cs).all isIdentifier

/-- A dashed name is an identifier followed by any number of non-empty runs of
    name characters, each after a dot or a dash. -/
def isDashedName (cs : List Char) : Bool :=
  match splitOn (fun c => c == '.' || c == '-') cs with
  | [] => false
  | head :: segments =>
    isIdentifier head && segments.all fun s => !s.isEmpty && s.all isNamePart

end Stencil.Text
