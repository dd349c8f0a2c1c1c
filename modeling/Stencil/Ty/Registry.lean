/-
  Stencil/Ty/Registry.lean
  ========================
  **The types that a compilation knows.**

  A registry knows the simple types by name and the protos that were
  registered, and it keeps every union that was asked for under its members.
  Asked again, it answers with the union that it keeps.  What it keeps under
  some members is always their union, so the answer (`Ty.join`) does not
  depend on the registry.
-/
import Stencil.Ty.Order

namespace Stencil

namespace Ty

/-- The members that a type contributes to a union. -/
def members : Ty → List Ty
  | .union ms => ms
  | t => [t]

/-- The union of some types: its members are theirs in ascending order, each
    once.  A single member is the union by itself, `any` swallows the others,
    and the union of nothing is unknown. -/
def join (types : List Ty) : Ty :=
  let ms := sortedSet (types.flatMap members)
  if .any ∈ ms then .any
  else match ms with
    | [] => .unknown
    | [t] => t
    | ms => .union ms

/-- The types with names of their own. -/
def builtin? : String → Option Ty
  | "any" => some .any
  | "?" => some .unknown
  | "null" => some .null
  | "bool" => some .bool
  | "int" => some .int
  | "float" => some .float
  | "string" => some .string
  | name =>
    match ContentKind.ofName? name with
    | some .text => none
    | some kind => some (.sanitized kind)
    | none => none

end Ty

theorem Ty.kept_union_nil : ∀ e ∈ ([] : List (List Ty × Ty)), e.2 = .union e.1 :=
  List.forall_mem_nil _

/-- Protos by name, the latest first, and the unions asked for so far under their members. -/
structure TypeRegistry where
  protos : List (String × Ty) := []
  kept : List (List Ty × Ty) := []
  kept_union : ∀ e ∈ kept, e.2 = .union e.1 := by exact Ty.kept_union_nil

namespace TypeRegistry

instance : Inhabited TypeRegistry := ⟨{}⟩

/-- The registry with a proto added; it takes the place of one of that name. -/
def register (registry : TypeRegistry) (name : String) (fields : Fields) : TypeRegistry :=
  { registry with protos := (name, .proto name fields) :: registry.protos }

/-- The type with a name: a simple type, or else a proto. -/
def find? (registry : TypeRegistry) (name : String) : Option Ty :=
  match Ty.builtin? name with
  | some ty => some ty
  | none => registry.protos.lookup name

/-- The union that is kept under some members, or else a new one, and the registry that
    keeps it. -/
def intern (registry : TypeRegistry) (ms : List Ty) : Ty × TypeRegistry :=
  match registry.kept.lookup ms with
  | some ty => (ty, registry)
  | none =>
    (.union ms,
      { registry with
        kept := (ms, .union ms) :: registry.kept
        kept_union := List.forall_mem_cons.2 ⟨rfl, registry.kept_union⟩ })

/-- The union of some types, and the registry that keeps it. -/
def union (registry : TypeRegistry) (types : List Ty) : Ty × TypeRegistry :=
  match Ty.join types with
  | .union ms => registry.intern ms
  | ty => (ty, registry)

/-- The member lists of the unions asked for so far. -/
def unions (registry : TypeRegistry) : List (List Ty) := registry.kept.map (·.1)

/-- The number of distinct unions asked for so far. -/
def unionCount (registry : TypeRegistry) : Nat := registry.kept.length

end TypeRegistry

end Stencil
