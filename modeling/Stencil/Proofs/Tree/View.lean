/-
  Stencil/Proofs/Tree/View.lean
  =============================
  **Trees with other marks and without identities.**

  A view of a tree keeps of each mark what is looked at, and nothing of the
  identities; the bare tree is the view that looks at no mark.  A placed tree,
  looked at by places, is its draft looked at by the places of the lines: which
  identities it has does not show (`map_view_placed`).
-/
import Stencil.Proofs.Tree.Bare
import Stencil.Proofs.Tree.Numbering

namespace Stencil

theorem Content.bare_mapExpr (f : Expr → Expr) (content : Content) :
    (content.mapExpr f).bare = content.bare.mapExpr f := by
  cases content with
  | placeholder name key => cases key <;> rfl
  | call target data => cases data <;> rfl
  | _ => rfl

namespace Tree

variable {α β γ : Type}

/-- The tree with `f` applied to every mark, and without identities. -/
def view (f : α → β) (t : Tree α) : Tree β := (t.mapContent Content.bare).map f

section View

variable (f : α → β)

@[simp] theorem content_view (t : Tree α) : (t.view f).content = t.content.bare := by
  rw [view, content_map, content_mapContent]

@[simp] theorem children_view (t : Tree α) : (t.view f).children = t.children.map (view f) := by
  rw [view, children_map, children_mapContent, List.map_map]
  rfl

@[simp] theorem mark_view (t : Tree α) : (t.view f).mark = f t.mark := by
  cases t; rfl

theorem view_node (mark : α) (content : Content) (children : List (Tree α)) :
    (node mark content children).view f = node (f mark) content.bare (children.map (view f)) := by
  rw [view, mapContent, map, mapContentAll_eq_map, mapAll_eq_map, List.map_map]
  rfl

theorem preorderAll_map_view (ts : List (Tree α)) :
    preorderAll (ts.map (view f)) = (preorderAll ts).map (view f) := by
  have hmap : ∀ ts : List (Tree α), ts.map (view f) = mapAll f (mapContentAll Content.bare ts) := by
    intro ts
    rw [mapAll_eq_map, mapContentAll_eq_map, List.map_map]
    rfl
  rw [hmap, preorderAll_mapAll, preorderAll_mapContentAll, List.map_map]
  rfl

mutual

theorem bare_view : (t : Tree α) → (t.view f).bare = t.bare
  | node mark content children => by
    rw [view_node, bare_node, bare_node, Content.bare_bare, map_bare_map_view children]

theorem map_bare_map_view : (ts : List (Tree α)) → (ts.map (view f)).map bare = ts.map bare
  | [] => rfl
  | t :: rest => by
    rw [List.map_cons, List.map_cons, List.map_cons, bare_view t, map_bare_map_view rest]

end

theorem shapedBody_map_view (body : List (Tree α)) :
    ShapedBody (body.map (view f)) ↔ ShapedBody body := by
  rw [ShapedBody, List.forall_mem_map]
  refine forall₂_congr fun t _ => ?_
  rw [← shaped_bare, bare_view, shaped_bare, content_view, Content.isStatement_bare]

mutual

/-- Changing contents without looking at identities is changing the view. -/
theorem view_mapContent {g : Content → Content} (hg : ∀ content, (g content).bare = g content.bare) :
    (t : Tree α) → (t.mapContent g).view f = (t.view f).mapContent g
  | node mark content children => by
    rw [mapContent, view_node, view_node, mapContent, hg, mapContentAll_eq_map,
      mapContentAll_eq_map, map_view_mapContent hg children]

theorem map_view_mapContent {g : Content → Content}
    (hg : ∀ content, (g content).bare = g content.bare) : (ts : List (Tree α)) →
      (ts.map (mapContent g)).map (view f) = (ts.map (view f)).map (mapContent g)
  | [] => rfl
  | t :: rest => by
    rw [List.map_cons, List.map_cons, List.map_cons, List.map_cons, view_mapContent hg t,
      map_view_mapContent hg rest]

end

end View

mutual

theorem view_map (f : β → γ) (g : α → β) : (t : Tree α) → (t.map g).view f = t.view (f ∘ g)
  | node mark content children => by
    rw [map, view_node, view_node, mapAll_eq_map, map_view_map f g children]
    rfl

theorem map_view_map (f : β → γ) (g : α → β) :
    (ts : List (Tree α)) → (ts.map (map g)).map (view f) = ts.map (view (f ∘ g))
  | [] => rfl
  | t :: rest => by
    rw [List.map_cons, List.map_cons, List.map_cons, view_map f g t, map_view_map f g rest]

end

/-! ### Placed trees -/

theorem bare_claimKey (content : Content) (children : List Numbered) :
    (claimKey content children).bare = content.bare := by
  cases content with
  | placeholder name key => cases key <;> cases children <;> rfl
  | _ => rfl

mutual

theorem view_link (loc : Nat → Location) (parent : Option NodeId) :
    (t : Numbered) → (link loc parent t).view Mark.loc = t.view (loc ∘ Prod.snd)
  | node (id, line) content children => by
    rw [link, view_node, view_node, bare_claimKey, map_view_linkAll loc (some id) children]
    rfl

theorem map_view_linkAll (loc : Nat → Location) (parent : Option NodeId) :
    (ts : List Numbered) → (linkAll loc parent ts).map (view Mark.loc) = ts.map (view (loc ∘ Prod.snd))
  | [] => rfl
  | t :: rest => by
    rw [linkAll, List.map_cons, List.map_cons, view_link loc parent t, map_view_linkAll loc parent rest]

end

/-- Placed trees look like their drafts, whatever identities they have. -/
theorem map_view_placed (loc : Nat → Location) (parent : Option NodeId) (next : NodeId)
    (ts : List Draft) :
    (linkAll loc parent (numberAll next ts).1).map (view Mark.loc) = ts.map (view loc) := by
  rw [map_view_linkAll, ← map_view_map, ← mapAll_eq_map, mapAll_numberAll]

end Tree

end Stencil
