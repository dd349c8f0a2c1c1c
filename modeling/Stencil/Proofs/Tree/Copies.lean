/-
  Stencil/Proofs/Tree/Copies.lean
  ===============================
  **Copies differ in who their nodes are.**

  A copy has the contents, places and order of what it is a copy of.  All that
  is new is who its nodes are: the identities are the next free ones in the
  order of the nodes, none left out and none used for a second node, and every
  node below the root is listed by the copy of the node that listed it.  Only
  the root is still listed by the parent of the original.
-/
import Stencil.Proofs.Tree.Links

namespace Stencil.Tree

/-! ### What a copy keeps -/

mutual

/-- A copy has the contents and places of the original, in the same shape. -/
theorem map_loc_renumber (parent : Option NodeId) (next : NodeId) :
    (n : Node) → (renumber parent next n).1.map Mark.loc = n.map Mark.loc
  | node mark content children => by
    rw [renumber, map, map, mapAll_loc_renumberAll (some next) (next + 1) children]

theorem mapAll_loc_renumberAll (parent : Option NodeId) (next : NodeId) :
    (ns : List Node) → mapAll Mark.loc (renumberAll parent next ns).1 = mapAll Mark.loc ns
  | [] => rfl
  | n :: rest => by
    rw [renumberAll, mapAll, mapAll, map_loc_renumber parent next n,
      mapAll_loc_renumberAll parent _ rest]

end

theorem parent_renumber (parent : Option NodeId) (next : NodeId) (n : Node) :
    (renumber parent next n).1.parent = parent := by
  cases n
  rfl

/-! ### Copies -/

/-- A copy is the original but for identities, owners and parents: its
    identities are consecutive from the next free one in preorder, the next one
    after them is free, every node in it owns its children and is their parent,
    and its root has the parent of the original. -/
theorem copy_renews (n : Node) (next : NodeId) :
    (n.copy next).1.map Mark.loc = n.map Mark.loc ∧
      (n.copy next).1.ids = List.range' next n.size ∧
      (n.copy next).2 = next + n.size ∧
      Linked (n.copy next).1 ∧
      (n.copy next).1.parent = n.parent := by
  refine ⟨?_, ?_, ?_, ?_, ?_⟩
  · exact map_loc_renumber n.parent next n
  · exact ids_renumber n.parent next n
  · exact renumber_free n.parent next n
  · exact linked_renumber n.parent next n
  · exact parent_renumber n.parent next n

end Stencil.Tree
