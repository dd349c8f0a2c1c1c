/-
  Stencil/Ty/Assignable.lean
  ==========================
  **When a value of one type may stand where another is declared.**

  Any type is accepted where nothing is declared (`any`, `?`).  A union is
  accepted by a union when each of its members is, and by nothing else;
  content of any kind is accepted as a string; records are compared field by
  field and may have further fields; protos are compared by name.
-/
import Stencil.Ty.Order

namespace Stencil.Ty

mutual

/-- A declared type accepts values of a source type. -/
def accepts : Ty → Ty → Bool
  | .any, _ => true
  | .unknown, _ => true
  | .union targets, source =>
    match source with
    | .union sources => sources.all fun s => anyAccepts targets s
    | _ => anyAccepts targets source
  | .null, source => source == .null
  | .bool, source => source == .bool
  | .int, source => source == .int
  | .float, source => source == .float
  | .string, source =>
    match source with
    | .string => true
    | .sanitized _ => true
    | _ => false
  | .sanitized kind, source => source == .sanitized kind
  | .list element, source =>
    match source with
    | .list sourceElement => accepts element sourceElement
    | _ => false
  | .map key value, source =>
    match source with
    | .map sourceKey sourceValue => accepts key sourceKey && accepts value sourceValue
    | _ => false
  | .record fields, source =>
    match source with
    | .record sourceFields => acceptsFields fields sourceFields
    | _ => false
  | .proto name _, source =>
    match source with
    | .proto sourceName _ => name == sourceName
    | _ => false

/-- One of several declared types accepts values of a source type. -/
def anyAccepts : List Ty → Ty → Bool
  | [], _ => false
  | t :: rest, source => accepts t source || anyAccepts rest source

/-- Each declared field accepts the source's field of that name, which must be
    there. -/
def acceptsFields : List (String × Ty) → Fields → Bool
  | [], _ => true
  | (name, ty) :: rest, source =>
    (match Fields.type? source name with
      | some sourceTy => accepts ty sourceTy
      | none => false) && acceptsFields rest source

end

@[simp] theorem anyAccepts_nil (source : Ty) : anyAccepts [] source = false := rfl

@[simp] theorem anyAccepts_cons (t : Ty) (rest : List Ty) (source : Ty) :
    anyAccepts (t :: rest) source = (t.accepts source || anyAccepts rest source) := rfl

@[simp] theorem acceptsFields_nil (source : Fields) : acceptsFields [] source = true := rfl

theorem acceptsFields_cons (f : String × Ty) (rest source : Fields) :
    acceptsFields (f :: rest) source =
      ((match Fields.type? source f.1 with
        | some sourceTy => f.2.accepts sourceTy
        | none => false) && acceptsFields rest source) := rfl

theorem union_accepts_union (targets sources : List Ty) :
    (union targets).accepts (union sources) = sources.all fun s => anyAccepts targets s := rfl

theorem proto_accepts_proto (name sourceName : String) (fields sourceFields : Fields) :
    (proto name fields).accepts (proto sourceName sourceFields) = (name == sourceName) := rfl

theorem sanitized_accepts (kind : ContentKind) (source : Ty) :
    (sanitized kind).accepts source = (source == sanitized kind) := rfl

end Stencil.Ty
