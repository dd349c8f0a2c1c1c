/-
  Stencil/Tree/Call.lean
  ======================
  **Calls** as nodes of a tree.
-/
import Stencil.Tree.Walk

namespace Stencil.Tree

variable {α : Type}

/-- What a call calls. -/
def target? (call : Tree α) : Option CallTarget :=
  match call.content with
  | .call target _ => some target
  | _ => none

/-- A call passes data besides its parameters. -/
def passesData (call : Tree α) : Bool :=
  match call.content with
  | .call _ data => data != .nothing
  | _ => false

/-- A call passes all the data of its template. -/
def passesAll (call : Tree α) : Bool :=
  match call.content with
  | .call _ data => data == .all
  | _ => false

/-- The keys of a call's parameters in order. -/
def paramKeys (call : Tree α) : List String := call.children.filterMap (·.content.paramKey?)

end Stencil.Tree
