/-
  Stencil/Tree/Copy.lean
  ======================
  **Copies with new identities.**

  A copy takes its identities from one free identity on, each node before those
  below it, and its nodes are listed by each other as those of the original are.
-/
import Stencil.Tree.Basic

namespace Stencil.Tree

mutual

/-- A placed tree with new identities from `next` on, each node before those
    below it, listed by `parent`. -/
def renumber (parent : Option NodeId) (next : NodeId) : Node → Node × NodeId
  | node mark content children =>
    let (children, free) := renumberAll (some next) (next + 1) children
    (node { mark with handle := next, parent } content children, free)

/-- Several placed trees with new identities, one after the other. -/
def renumberAll (parent : Option NodeId) (next : NodeId) : List Node → List Node × NodeId
  | [] => ([], next)
  | t :: rest =>
    let (t, next) := renumber parent next t
    let (rest, next) := renumberAll parent next rest
    (t :: rest, next)

end

/-- A copy of a placed tree with new identities from `next` on, and the next
    free one; the root keeps its parent. -/
def copy (next : NodeId) (n : Node) : Node × NodeId := renumber n.parent next n

end Stencil.Tree
