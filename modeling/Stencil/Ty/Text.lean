/-
  Stencil/Ty/Text.lean
  ====================
  **Types as they are written.**

  The members of a union stand in ascending order, except that `null` comes
  last; a proto is written as its name.
-/
import Stencil.Text.Split
import Stencil.Ty.Basic

namespace Stencil.Ty

open Text (joinWith)

mutual

/-- The characters of a type as it is written. -/
def chars : Ty → List Char
  | .any => "any".toList
  | .unknown => "?".toList
  | .null => "null".toList
  | .bool => "bool".toList
  | .int => "int".toList
  | .float => "float".toList
  | .string => "string".toList
  | .sanitized kind => kind.name.toList
  | .list element => "list<".toList ++ chars element ++ ">".toList
  | .map key value => "map<".toList ++ chars key ++ ", ".toList ++ chars value ++ ">".toList
  | .record fields => "[".toList ++ joinWith ", ".toList (fieldChars fields) ++ "]".toList
  | .proto name _ => name.toList
  | .union members =>
    joinWith "|".toList (memberChars members ++ (if members.any isNull then ["null".toList] else []))

/-- The fields of a record as they are written. -/
def fieldChars : List (String × Ty) → List (List Char)
  | [] => []
  | (name, ty) :: rest => (name.toList ++ ": ".toList ++ chars ty) :: fieldChars rest

/-- The members of a union other than null as they are written. -/
def memberChars : List Ty → List (List Char)
  | [] => []
  | t :: rest => if t.isNull then memberChars rest else chars t :: memberChars rest

end

def text (t : Ty) : String := String.ofList (chars t)

theorem chars_list (element : Ty) :
    (list element).chars = "list<".toList ++ element.chars ++ ">".toList := rfl

theorem chars_map (key value : Ty) :
    (map key value).chars =
      "map<".toList ++ key.chars ++ ", ".toList ++ value.chars ++ ">".toList := rfl

theorem chars_record (fields : List (String × Ty)) :
    (record fields).chars =
      "[".toList ++ joinWith ", ".toList (fieldChars fields) ++ "]".toList := rfl

theorem chars_union (members : List Ty) :
    (union members).chars = joinWith "|".toList
      (memberChars members ++ (if members.any isNull then ["null".toList] else [])) := rfl

theorem fieldChars_eq_map (fields : List (String × Ty)) :
    fieldChars fields = fields.map fun f => f.1.toList ++ ": ".toList ++ f.2.chars := by
  induction fields with
  | nil => rfl
  | cons f rest ih =>
    change (f.1.toList ++ ": ".toList ++ f.2.chars) :: fieldChars rest = _
    rw [ih, List.map_cons]

theorem memberChars_eq_map (members : List Ty) :
    memberChars members = (members.filter (!·.isNull)).map chars := by
  induction members with
  | nil => rfl
  | cons m rest ih =>
    change (if m.isNull then memberChars rest else m.chars :: memberChars rest) = _
    cases hm : m.isNull <;> simp [hm, ih]

end Stencil.Ty
