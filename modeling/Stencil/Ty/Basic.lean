/-
  Stencil/Ty/Basic.lean
  =====================
  **Types of template values.**

  Besides the simple types there are content of a kind, lists, maps, records
  with named fields, protos (records with a name of their own) and unions.
  The fields of a record or proto stand in ascending order of name, the
  members of a union in ascending order of type (`Ty/Order.lean`); both are
  kept by the functions that build types, `Fields.insert` here and `Ty.join`.
-/
import Stencil.ContentKind

namespace Stencil

/-- A type of template values. -/
inductive Ty where
  | any
  | unknown
  | null
  | bool
  | int
  | float
  | string
  | sanitized (kind : ContentKind)
  | list (element : Ty)
  | map (key value : Ty)
  | record (fields : List (String × Ty))
  | proto (name : String) (fields : List (String × Ty))
  | union (members : List Ty)
deriving Inhabited, Repr

/-- The fields of a record, in ascending order of name. -/
abbrev Fields := List (String × Ty)

namespace Fields

def type? (fields : Fields) (name : String) : Option Ty := fields.lookup name

/-- The fields with one added; a field of that name is replaced. -/
def insert (name : String) (ty : Ty) : Fields → Fields
  | [] => [(name, ty)]
  | (other, otherTy) :: rest =>
    if name < other then (name, ty) :: (other, otherTy) :: rest
    else if name = other then (name, ty) :: rest
    else (other, otherTy) :: insert name ty rest

end Fields

namespace Ty

/-- The type of content of a kind: plain text is a string. -/
def ofContentKind : ContentKind → Ty
  | .text => .string
  | kind => .sanitized kind

/-- A type is a proto when it is one by itself, not as a member of a union. -/
def isProto : Ty → Bool
  | .proto _ _ => true
  | _ => false

/-- A type is null itself. -/
def isNull : Ty → Bool
  | .null => true
  | _ => false

/-- A type is nullable when it is null or a union with null. -/
def isNullable : Ty → Bool
  | .null => true
  | .union members => members.any isNull
  | _ => false

def isUnion : Ty → Bool
  | .union _ => true
  | _ => false

/-- The type of the value under a key: the field of a record or proto, or the
    values of a map.  Where there is no such field nothing is known. -/
def fieldType (ty : Ty) (key : String) : Ty :=
  match ty with
  | .record fields => (Fields.type? fields key).getD .unknown
  | .proto _ fields => (Fields.type? fields key).getD .unknown
  | .map _ value => value
  | _ => .unknown

end Ty

end Stencil
