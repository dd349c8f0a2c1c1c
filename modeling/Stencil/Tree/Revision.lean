/-
  Stencil/Tree/Revision.lean
  ==========================
  **Walking through the statements of a template and changing them.**

  A revision comes by the statements of a block as a walk does.  Each statement
  is changed by a visit, and then the child blocks that the visit left are
  revised.  The expressions of a statement are those that it holds itself, in
  its own content, its branches, its parameters or the plurals and selects of
  its messages; those in its child blocks belong to the statements there.
-/
import Stencil.Tree.Walk

namespace Stencil.Tree

variable {α : Type} {m : Type → Type} [Monad m]

/-! ### Child blocks -/

mutual

/-- A part of a message with `f` applied to the blocks in it. -/
def mapPartBlocksM (f : List (Tree α) → m (List (Tree α))) : Tree α → m (Tree α)
  | node mark content children =>
    match content with
    | .placeholder _ _ => node mark content <$> f children
    | .msg _ _ _ | .plural _ _ _ | .select _ _ | .case _ =>
      node mark content <$> mapPartBlocksAllM f children
    | _ => pure (node mark content children)

/-- Several parts of messages with `f` applied to the blocks in them. -/
def mapPartBlocksAllM (f : List (Tree α) → m (List (Tree α))) : List (Tree α) → m (List (Tree α))
  | [] => pure []
  | t :: rest => do
    let t ← mapPartBlocksM f t
    let rest ← mapPartBlocksAllM f rest
    pure (t :: rest)

end

/-- A parameter of a call with `f` applied to the block in it. -/
def mapParamBlockM (f : List (Tree α) → m (List (Tree α))) (param : Tree α) : m (Tree α) :=
  match param.content with
  | .contentParam _ _ => param.withChildren <$> f param.children
  | _ => pure param

/-- A statement with `f` applied to its child blocks. -/
def mapChildBlocksM (f : List (Tree α) → m (List (Tree α))) (t : Tree α) : m (Tree α) :=
  match t.content with
  | .conditional =>
    t.withChildren <$> t.children.mapM fun branch => branch.withChildren <$> f branch.children
  | .call _ _ => t.withChildren <$> t.children.mapM (mapParamBlockM f)
  | .msgGroup => t.withChildren <$> mapPartBlocksAllM f t.children
  | .htmlTag _ _ _ => t.withChildren <$> f t.children
  | _ => pure t

/-! ### Revisions -/

/-- Revise the statements of a block that has at most `height` levels, each before
    the statements below it. -/
def reviseM (visit : Tree α → m (Tree α)) : Nat → List (Tree α) → m (List (Tree α))
  | 0, block => pure block
  | height + 1, block => block.mapM fun t => do mapChildBlocksM (reviseM visit height) (← visit t)

/-! ### The expressions of a statement -/

mutual

/-- A part of a message with `f` applied to the expressions of its plurals and
    selects. -/
def mapPartExprs (f : Expr → Expr) : Tree α → Tree α
  | node mark content children =>
    match content with
    | .msg _ _ _ | .case _ => node mark content (mapPartExprsAll f children)
    | .plural _ _ _ | .select _ _ => node mark (content.mapExpr f) (mapPartExprsAll f children)
    | _ => node mark content children

/-- Several parts of messages with `f` applied to the expressions of their plurals
    and selects. -/
def mapPartExprsAll (f : Expr → Expr) : List (Tree α) → List (Tree α)
  | [] => []
  | t :: rest => mapPartExprs f t :: mapPartExprsAll f rest

end

/-- A statement with `f` applied to the expressions that it holds itself. -/
def mapOwnExprs (f : Expr → Expr) (t : Tree α) : Tree α :=
  match t.content with
  | .print _ _ _ => t.withContent (t.content.mapExpr f)
  | .conditional =>
    t.withChildren (t.children.map fun branch => branch.withContent (branch.content.mapExpr f))
  | .call _ _ =>
    (t.withContent (t.content.mapExpr f)).withChildren
      (t.children.map fun param => param.withContent (param.content.mapExpr f))
  | .msgGroup => t.withChildren (mapPartExprsAll f t.children)
  | _ => t

end Stencil.Tree
