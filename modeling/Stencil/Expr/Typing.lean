/-
  Stencil/Expr/Typing.lean
  ========================
  **Types of expressions.**

  A literal has the type of its value.  A reference to a parameter has the
  type that its keys lead to from the declared type.  Of injected data, of
  parameters that are not declared and of other expressions nothing is known.

  Types are resolved in a walk through the statements of a template, at each
  statement for the expressions that it holds itself.
-/
import Stencil.Expr.Basic
import Stencil.Template.Basic
import Stencil.Tree.Revision

namespace Stencil

namespace Expr

/-- The type of an expression under declared parameters. -/
def infer (params : List Param) (e : Expr) : Ty :=
  match e.kind with
  | .null => .null
  | .bool _ => .bool
  | .int _ => .int
  | .float _ => .float
  | .str _ => .string
  | .ref ref =>
    if ref.injected then .unknown
    else match params.find? (·.name == ref.head) with
      | some param => ref.keys.foldl Ty.fieldType param.ty
      | none => .unknown
  | .other => .unknown

def resolve (params : List Param) (e : Expr) : Expr := { e with ty := some (e.infer params) }

end Expr

/-- The template with the types of its expressions resolved. -/
def Template.resolveTypes {α : Type} (t : Template α) : Template α :=
  let visit (n : Tree α) : Id (Tree α) := pure (n.mapOwnExprs (Expr.resolve t.info.params))
  { t with body := (Tree.reviseM visit (Tree.heightAll t.body) t.body).run }

/-- The file set with the types of all expressions resolved. -/
def FileSet.resolveTypes (set : FileSet) : FileSet := set.mapTemplates Template.resolveTypes

end Stencil
