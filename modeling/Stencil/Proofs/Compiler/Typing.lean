/-
  Stencil/Proofs/Compiler/Typing.lean
  ===================================
  **Resolving types changes expressions only.**

  A node keeps its identity, its links and the kind of its content when the
  types of its expressions are resolved, so a file set whose bodies have their
  shape stays well-formed (`WellFormed.resolveTypes`), and its bodies keep their
  shape (`shapedBody_of_mem_resolveTypes`).
-/
import Stencil.Expr.Typing
import Stencil.Proofs.Compiler.FileSets
import Stencil.Proofs.Message.Formed
import Stencil.Proofs.Tree.Revision

namespace Stencil

open Stencil.Tree (Linked ListedBy Shaped ShapedBody idsAll)

/-! ### Trees -/

namespace Tree

variable (f : Expr → Expr)

theorem preorder_mapExprs {α : Type} (t : Tree α) :
    (t.mapExprs f).preorder = t.preorder.map (mapExprs f) := preorder_mapContent _ t

theorem shaped_mapExprs {α : Type} (t : Tree α) : Shaped (t.mapExprs f) ↔ Shaped t := by
  refine each_map_iff (preorder_mapExprs f t) fun n => ?_
  simp only [ShapedAt, children_mapExprs, content_mapExprs, List.forall_mem_map,
    Content.holds_mapExpr]

theorem shapedBody_map_mapExprs {α : Type} (body : List (Tree α)) :
    ShapedBody (body.map (mapExprs f)) ↔ ShapedBody body := by
  rw [ShapedBody, List.forall_mem_map]
  refine forall₂_congr fun n _ => ?_
  rw [shaped_mapExprs, content_mapExprs, Content.isStatement_mapExpr]

theorem linked_mapExprs (n : Node) : Linked (n.mapExprs f) ↔ Linked n := by
  refine each_map_iff (preorder_mapExprs f n) fun n => ?_
  simp only [LinkedAt, owner, id, parent, children_mapExprs, mark_mapExprs, List.forall_mem_map]

theorem listedBy_map_mapExprs {holder : NodeId} {ns : List Node} (h : ListedBy holder ns) :
    ListedBy holder (ns.map (mapExprs f)) := by
  rw [ListedBy, List.forall_mem_map]
  intro n hn
  obtain ⟨hparent, hlinked⟩ := h n hn
  refine ⟨?_, (linked_mapExprs f n).2 hlinked⟩
  rw [parent, mark_mapExprs]
  exact hparent

theorem idsAll_map_mapExprs (ns : List Node) : idsAll (ns.map (mapExprs f)) = idsAll ns := by
  rw [idsAll, preorderAll_map_mapExprs, List.map_map, idsAll]
  exact List.map_congr_left fun n _ => by rw [Function.comp_apply, id, mark_mapExprs, id]

end Tree

/-! ### Templates -/

namespace Template

/-- The template with `f` applied to the expressions of all nodes of its body. -/
def mapExprs {α : Type} (f : Expr → Expr) (t : Template α) : Template α :=
  { t with body := t.body.map (Tree.mapExprs f) }

/-- In a body that has its shape all expressions are resolved, and nothing else is
    changed. -/
theorem resolveTypes_eq {α : Type} {t : Template α} (h : ShapedBody t.body) :
    t.resolveTypes = t.mapExprs (Expr.resolve t.info.params) :=
  congrArg (fun body : Id (List (Tree α)) => { t with body := body.run })
    (Tree.reviseM_mapOwnExprs h (Nat.le_refl _))

theorem ids_resolveTypes {t : Template Mark} (h : ShapedBody t.body) :
    t.resolveTypes.ids = t.ids := by
  rw [resolveTypes_eq h, ids, mapExprs, Tree.idsAll_map_mapExprs, ids]

theorem LinkedIn.resolveTypes {holder : NodeId} {t : Template Mark} (h : t.LinkedIn holder)
    (hshaped : ShapedBody t.body) : t.resolveTypes.LinkedIn holder := by
  rw [resolveTypes_eq hshaped]
  exact ⟨h.1, h.2.1, Tree.listedBy_map_mapExprs _ h.2.2⟩

theorem shapedBody_resolveTypes {α : Type} {t : Template α} (h : ShapedBody t.body) :
    ShapedBody t.resolveTypes.body := by
  rw [resolveTypes_eq h]
  exact (Tree.shapedBody_map_mapExprs _ _).2 h

end Template

/-! ### File sets -/

namespace FileSet

theorem templates_resolveTypes (set : FileSet) :
    set.resolveTypes.templates = set.templates.map Template.resolveTypes := by
  rw [templates, resolveTypes, mapTemplates, List.flatMap_map, templates, List.map_flatMap]

section Shaped

variable {set : FileSet} (h : ∀ t ∈ set.templates, ShapedBody t.body)
include h

theorem ids_resolveTypes : set.resolveTypes.ids = set.ids := by
  rw [ids, resolveTypes, mapTemplates, List.flatMap_map, ids]
  refine congrArg (set.id :: ·) (List.flatMap_congr fun file hfile => ?_)
  rw [SourceFile.ids, List.flatMap_map, SourceFile.ids]
  refine congrArg (file.mark.id :: ·) (List.flatMap_congr fun t ht => ?_)
  exact Template.ids_resolveTypes (h t (List.mem_flatMap.2 ⟨file, hfile, ht⟩))

theorem WellFormed.resolveTypes (hwell : set.WellFormed) : set.resolveTypes.WellFormed := by
  refine ⟨ids_resolveTypes h ▸ hwell.ids_nodup, ids_resolveTypes h ▸ hwell.ids_lt, hwell.owner_eq, ?_⟩
  intro resolved hresolved
  obtain ⟨file, hfile, rfl⟩ := List.mem_map.1 hresolved
  obtain ⟨hparent, howner, htemplates⟩ := hwell.files file hfile
  refine ⟨hparent, howner, ?_⟩
  rw [List.forall_mem_map]
  exact fun t ht =>
    (htemplates t ht).resolveTypes (h t (List.mem_flatMap.2 ⟨file, hfile, ht⟩))

theorem shapedBody_of_mem_resolveTypes :
    ∀ t ∈ set.resolveTypes.templates, ShapedBody t.body := by
  rw [templates_resolveTypes, List.forall_mem_map]
  exact fun t ht => Template.shapedBody_resolveTypes (h t ht)

end Shaped

/-- The bodies of a file set that is read have their shape. -/
theorem shapedBody_of_parse {c : Compiler} {sources : List Source} {set : FileSet}
    (hparse : (c.parse sources).1 = .ok set) : ∀ t ∈ set.templates, ShapedBody t.body := by
  intro t ht n hn
  obtain ⟨hformed, hstatement⟩ :=
    Message.formed_of_isPlacedBody (Compiler.isPlacedBody_of_parse hparse t ht) n hn
  exact ⟨hformed.shaped, hstatement⟩

end FileSet

end Stencil
