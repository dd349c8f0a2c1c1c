/-
  Stencil/Message/BundleFile.lean
  ===============================
  **Bundles as JSON files.**

  A file is a record with a locale, which may be missing, and a list of
  translations.  An identity is a string of decimal digits, since not every
  JSON reader keeps large numbers.  What is not there is not written, and
  fields that are not known are passed over.
-/
import Stencil.Json.Printer
import Stencil.Json.Reader
import Stencil.Message.Bundle

namespace Stencil

namespace TranslationPart

/-- A part as a JSON value: an object whose one member says what it is. -/
def toJson : TranslationPart → Json
  | text s => .obj [(some "raw_text", .str (some s))]
  | placeholder s => .obj [(some "placeholder", .str (some s))]

/-- The part that a JSON value is. -/
def ofJson? : Json → Option TranslationPart
  | .obj [(some "raw_text", .str (some s))] => some (text s)
  | .obj [(some "placeholder", .str (some s))] => some (placeholder s)
  | _ => none

end TranslationPart

/-- A member of a record for a value that may be missing. -/
def optionalMember (name : String) : Option String → List (Option String × Json)
  | none => []
  | some text => [(some name, .str (some text))]

namespace Translation

/-- The fields of a translation in order. -/
def fieldNames : List String := ["id", "desc", "meaning", "parts"]

def toJson (t : Translation) : Json :=
  .obj ((some "id", .str (some (toString t.id.toNat))) :: optionalMember "desc" t.desc ++
    optionalMember "meaning" t.meaning ++ [(some "parts", .arr (t.parts.map (·.toJson)))])

/-- The translation that a JSON value is. -/
def ofJson? (value : Json) : Option Translation := do
  let fields ← Json.record? fieldNames value
  let id ← Text.readNat64? (← (← fields.lookup "id").text?).toList
  let desc ← Json.orNull (·.text?) (fields.lookup "desc")
  let meaning ← Json.orNull (·.text?) (fields.lookup "meaning")
  let parts ← (← (← fields.lookup "parts").items?).mapM TranslationPart.ofJson?
  some { id := UInt64.ofNat id, desc, meaning, parts }

end Translation

namespace Bundle

/-- The fields of a bundle in order. -/
def fieldNames : List String := ["locale", "msgs"]

def toJson (bundle : Bundle) : Json :=
  .obj (optionalMember "locale" bundle.locale ++
    [(some "msgs", .arr (bundle.msgs.map (·.toJson)))])

/-- The bundle that a JSON value is. -/
def ofJson? (value : Json) : Option Bundle := do
  let fields ← Json.record? fieldNames value
  let locale ← Json.orNull (·.text?) (fields.lookup "locale")
  let msgs ← (← (← fields.lookup "msgs").items?).mapM Translation.ofJson?
  some (ofList locale msgs)

/-- A bundle as the text of a file. -/
def toText (bundle : Bundle) : String := bundle.toJson.toText

/-- The bundle that the text of a file is. -/
def ofText? (text : String) : Option Bundle := (Json.read? text).bind ofJson?

end Bundle

end Stencil
