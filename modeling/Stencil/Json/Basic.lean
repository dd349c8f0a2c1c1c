/-
  Stencil/Json/Basic.lean
  =======================
  **JSON values**, and what records expect of them.

  A value keeps the members of its objects in order and repeated.  A record
  with named fields is written as an object, or as an array that gives the
  fields in order; a field is given at most once.
-/

namespace Stencil

/-- A JSON value.  A string that escapes half of a surrogate pair is no text,
    and a number is kept as it is written. -/
inductive Json where
  | null
  | bool (value : Bool)
  | num (text : String)
  | str (text : Option String)
  | arr (items : List Json)
  | obj (members : List (Option String × Json))

namespace Json

def text? : Json → Option String
  | str text => text
  | _ => none

/-- The truth value that a value is. -/
def bool? : Json → Option Bool
  | bool value => some value
  | _ => none

def items? : Json → Option (List Json)
  | arr items => some items
  | _ => none

/-- A value that may be missing or null. -/
def orNull {α : Type} (decode : Json → Option α) : Option Json → Option (Option α)
  | none => some none
  | some null => some none
  | some value => (decode value).map some

/-! ### Records -/

/-- The fields that a value gives to a record with named fields, in order.  An
    array may leave fields out at its end but has no more. -/
def recordFields? (names : List String) : Json → Option (List (String × Json))
  | obj members => members.mapM fun (name, value) => name.map fun name => (name, value)
  | arr items => if items.length ≤ names.length then some (names.zip items) else none
  | _ => none

/-- No field of a record is given twice. -/
def givenOnce (names : List String) (fields : List (String × Json)) : Bool :=
  names.all fun name => (fields.filter (·.1 == name)).length ≤ 1

/-- The fields of a record by name, other fields aside. -/
def record? (names : List String) (value : Json) : Option (List (String × Json)) :=
  (recordFields? names value).filter (givenOnce names)

/-- The fields of a record by name; there may be no others. -/
def strictRecord? (names : List String) (value : Json) : Option (List (String × Json)) :=
  (record? names value).filter fun fields => fields.all fun field => names.contains field.1

end Json

end Stencil
