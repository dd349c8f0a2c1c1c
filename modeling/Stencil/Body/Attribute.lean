/-
  Stencil/Body/Attribute.lean
  ===========================
  **Attributes whose values are not free**: variants of delegates, kinds of
  content and escaping modes.

  Templates, calls, parameters and namespaces have such attributes, and each
  reads the same wherever it stands.
-/
import Stencil.Body.CommandText
import Stencil.ContentKind
import Stencil.Text.Identifier
import Stencil.Text.Numeral

namespace Stencil.Body

open Text (isIdentifier trim)

/-- Why the value of an attribute is refused. -/
inductive AttrCause where
  | variant (value : String)
  | kind (value : String)
  | autoescape (value : String)
deriving DecidableEq, Repr

def AttrCause.message : AttrCause → String
  | variant value => "Invalid variant '" ++ value ++ "'"
  | kind value => "Invalid kind '" ++ value ++ "'"
  | autoescape value => "Invalid autoescape value '" ++ value ++ "'"

/-- The variant that a value denotes: an identifier in single quotes, or a
    number, whose canonical decimal form is the variant. -/
def variant? (value : String) : Option String :=
  let text := trim value.toList
  let quoted := (Text.dropPrefix? ['\''] text).bind fun rest => Text.dropSuffix? ['\''] rest
  match quoted with
  | some name => if isIdentifier name then some (String.ofList name) else none
  | none => (Text.readNat64? text).map toString

namespace CommandText

/-- The variant of a delegate, empty without the attribute. -/
def variant (cmd : CommandText) : Except AttrCause String :=
  match cmd.attr? "variant" with
  | none => .ok ""
  | some value =>
    match variant? value with
    | some variant => .ok variant
    | none => .error (.variant value)

/-- The kind of content, if the attribute is there. -/
def kind (cmd : CommandText) : Except AttrCause (Option ContentKind) :=
  match cmd.attr? "kind" with
  | none => .ok none
  | some value =>
    match ContentKind.ofName? value with
    | some kind => .ok (some kind)
    | none => .error (.kind value)

/-- The escaping mode, which is `default` without the attribute. -/
def autoescape (default : Autoescape) (cmd : CommandText) : Except AttrCause Autoescape :=
  match cmd.attr? "autoescape" with
  | none => .ok default
  | some value =>
    match Autoescape.ofAttribute? value with
    | some mode => .ok mode
    | none => .error (.autoescape value)

end CommandText

end Stencil.Body
