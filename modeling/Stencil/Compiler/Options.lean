/-
  Stencil/Compiler/Options.lean
  =============================
  **Options of a compilation.**

  Options are written as a JSON record.  Every field may be missing, but no
  other field may be there.
-/
import Stencil.Json.Reader
import Stencil.Message.Insertion
import Stencil.SyntaxVersion

namespace Stencil

/-- What happens to plurals and selects, the syntax version that templates must
    be valid at, and whether calls are checked for types. -/
structure Options where
  choices : ChoiceMode := .strict
  declaredVersion : Option SyntaxVersion := none
  checksCallTypes : Bool := true
deriving DecidableEq, Repr

namespace ChoiceMode

def ofName? : String → Option ChoiceMode
  | "strict" => some strict
  | "tolerant" => some tolerant
  | _ => none

/-- The mode that a JSON value is: its name, or an object whose one member has
    the name and says nothing. -/
def ofJson? : Json → Option ChoiceMode
  | .str (some name) => ofName? name
  | .obj [(some name, .null)] => ofName? name
  | _ => none

end ChoiceMode

namespace Options

def fieldNames : List String :=
  ["plural_select_msgs", "declared_syntax_version", "check_call_types"]

/-- The value of a field, which is the default one if the field is missing. -/
def fieldOr {α : Type} (default : α) (decode : Json → Option α) : Option Json → Option α
  | none => some default
  | some value => decode value

/-- The syntax version that a JSON value declares; null declares none. -/
def versionOfJson? : Json → Option (Option SyntaxVersion)
  | .null => some none
  | .str (some name) => (SyntaxVersion.ofName? name).map some
  | _ => none

/-- The options that a JSON value is. -/
def ofJson? (value : Json) : Option Options := do
  let fields ← Json.strictRecord? fieldNames value
  let choices ←
    fieldOr .strict ChoiceMode.ofJson? (fields.lookup "plural_select_msgs")
  let declaredVersion ←
    fieldOr none versionOfJson? (fields.lookup "declared_syntax_version")
  let checksCallTypes ← fieldOr true (·.bool?) (fields.lookup "check_call_types")
  some { choices, declaredVersion, checksCallTypes }

def ofText? (text : String) : Option Options := (Json.read? text).bind ofJson?

end Options

end Stencil
