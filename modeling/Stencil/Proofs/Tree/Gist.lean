/-
  Stencil/Proofs/Tree/Gist.lean
  =============================
  **What a tree says apart from where it stands.**

  Reading marks nodes with lines, placing marks them with identities, and the
  own key of a placeholder is the identity of a call.  The gist of a tree is
  what is left without all of these; whether a print was written as a tag or as
  an expression is left out too.  Numbering and linking keep the gist.
-/
import Stencil.Tree.Basic

namespace Stencil

/-- The content without identities, and without the form of a print. -/
def Content.gist : Content → Content
  | .print expr directives _ => .print expr directives false
  | .placeholder name (.own _) => .placeholder name (.own 0)
  | content => content

namespace Tree

variable {α β : Type}

mutual

/-- The tree without marks and identities. -/
def gist : Tree α → Tree Unit
  | node _ content children => node () content.gist (gistAll children)

/-- The trees without marks and identities. -/
def gistAll : List (Tree α) → List (Tree Unit)
  | [] => []
  | t :: rest => gist t :: gistAll rest

end

theorem gistAll_eq_map (ts : List (Tree α)) : gistAll ts = ts.map gist := by
  induction ts with
  | nil => rfl
  | cons t rest ih => rw [gistAll, ih, List.map_cons]

@[simp] theorem content_gist (t : Tree α) : t.gist.content = t.content.gist := by
  cases t; rfl

@[simp] theorem children_gist (t : Tree α) : t.gist.children = t.children.map gist := by
  cases t
  exact gistAll_eq_map _

/-! ### Marks do not matter -/

mutual

theorem gist_map (f : α → β) : (t : Tree α) → (t.map f).gist = t.gist
  | node mark content children => by rw [map, gist, gist, gistAll_mapAll f children]

theorem gistAll_mapAll (f : α → β) : (ts : List (Tree α)) → gistAll (mapAll f ts) = gistAll ts
  | [] => rfl
  | t :: rest => by rw [mapAll, gistAll, gistAll, gist_map f t, gistAll_mapAll f rest]

end

/-! ### Nodes below a node -/

theorem preorderAll_eq_flatMap (ts : List (Tree α)) : preorderAll ts = ts.flatMap preorder := by
  induction ts with
  | nil => rfl
  | cons t rest ih => rw [preorderAll, ih, List.flatMap_cons]

theorem mem_preorderAll {n : Tree α} {ts : List (Tree α)} :
    n ∈ preorderAll ts ↔ ∃ t ∈ ts, n ∈ t.preorder := by
  rw [preorderAll_eq_flatMap, List.mem_flatMap]

theorem mem_preorder_iff {n t : Tree α} : n ∈ t.preorder ↔ n = t ∨ n ∈ preorderAll t.children := by
  cases t
  rw [preorder, List.mem_cons, children_node]

theorem mem_preorder_self (t : Tree α) : t ∈ t.preorder := mem_preorder_iff.2 (.inl rfl)

mutual

theorem mem_preorder_trans {k n : Tree α} (hk : k ∈ n.preorder) :
    (t : Tree α) → n ∈ t.preorder → k ∈ t.preorder
  | node mark content children, hn => by
    rcases mem_preorder_iff.1 hn with rfl | hn
    · exact hk
    · exact mem_preorder_iff.2 (.inr (mem_preorderAll_trans hk children hn))

theorem mem_preorderAll_trans {k n : Tree α} (hk : k ∈ n.preorder) :
    (ts : List (Tree α)) → n ∈ preorderAll ts → k ∈ preorderAll ts
  | t :: rest, hn => by
    rw [preorderAll, List.mem_append] at hn ⊢
    rcases hn with hn | hn
    · exact .inl (mem_preorder_trans hk t hn)
    · exact .inr (mem_preorderAll_trans hk rest hn)

end

theorem mem_preorder_of_mem_children {k t : Tree α} (hk : k ∈ t.children) : k ∈ t.preorder :=
  mem_preorder_iff.2 (.inr (mem_preorderAll.2 ⟨k, hk, mem_preorder_self k⟩))

mutual

theorem preorder_gist : (t : Tree α) → t.gist.preorder = t.preorder.map gist
  | node mark content children => by
    rw [preorder, List.map_cons, gist, preorder, preorderAll_gistAll children]

theorem preorderAll_gistAll :
    (ts : List (Tree α)) → preorderAll (gistAll ts) = (preorderAll ts).map gist
  | [] => rfl
  | t :: rest => by
    rw [gistAll, preorderAll, preorderAll, List.map_append, preorder_gist t,
      preorderAll_gistAll rest]

end

end Tree

end Stencil
