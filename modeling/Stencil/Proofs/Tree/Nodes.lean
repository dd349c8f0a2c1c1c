/-
  Stencil/Proofs/Tree/Nodes.lean
  ==============================
  **What holds of every node of a tree.**

  Most of what is known about a tree is known node by node: each node fits its
  children, and nothing is said about nodes further away.  Such a property holds
  of a tree if it holds of the root and of the trees below it.  Maps of marks and
  contents take the nodes of a tree to those of its image, in the same order.
-/
import Stencil.Proofs.Tree.Gist

namespace Stencil.Tree

variable {α β : Type}

/-- Every node of a tree has the property. -/
def Each (P : Tree α → Prop) (t : Tree α) : Prop := ∀ n ∈ t.preorder, P n

section Each

variable {P Q : Tree α → Prop} {t k n : Tree α}

theorem each_iff : Each P t ↔ P t ∧ ∀ k ∈ t.children, Each P k := by
  constructor
  · intro h
    refine ⟨h t (mem_preorder_self t), fun k hk n hn => h n ?_⟩
    exact mem_preorder_iff.2 (.inr (mem_preorderAll.2 ⟨k, hk, hn⟩))
  · rintro ⟨ht, hchildren⟩ n hn
    rcases mem_preorder_iff.1 hn with rfl | hn
    · exact ht
    · obtain ⟨k, hk, hn⟩ := mem_preorderAll.1 hn
      exact hchildren k hk n hn

theorem Each.root (h : Each P t) : P t := (each_iff.1 h).1

theorem Each.child (h : Each P t) (hk : k ∈ t.children) : Each P k := (each_iff.1 h).2 k hk

theorem Each.below (h : Each P t) (hn : n ∈ t.preorder) : Each P n :=
  fun k hk => h k (mem_preorder_trans hk t hn)

theorem Each.imp (h : Each P t) (hPQ : ∀ n, P n → Q n) : Each Q t := fun n hn => hPQ n (h n hn)

theorem each_leaf {mark : α} {content : Content} (h : P (.leaf mark content)) :
    Each P (.leaf mark content) := each_iff.2 ⟨h, fun _ hk => (nomatch hk)⟩

theorem each_node {mark : α} {content : Content} {children : List (Tree α)}
    (h : P (.node mark content children)) (hchildren : ∀ k ∈ children, Each P k) :
    Each P (.node mark content children) := each_iff.2 ⟨h, hchildren⟩

/-- A map that keeps the order of the nodes keeps what holds of each of them. -/
theorem each_map_iff {P : Tree α → Prop} {Q : Tree β → Prop} {f : Tree α → Tree β} {t : Tree α}
    (hf : (f t).preorder = t.preorder.map f) (hPQ : ∀ n, Q (f n) ↔ P n) :
    Each Q (f t) ↔ Each P t := by
  rw [Each, hf, List.forall_mem_map]
  exact forall₂_congr fun n _ => hPQ n

end Each

theorem each_gist {P : Tree α → Prop} {Q : Tree Unit → Prop} (hPQ : ∀ n, Q n.gist ↔ P n)
    (t : Tree α) : Each Q t.gist ↔ Each P t := each_map_iff (preorder_gist t) hPQ

/-- Trees of the same gists have the same properties of gists. -/
theorem each_of_gistAll_eq {P : Tree α → Prop} {P' : Tree β → Prop} {Q : Tree Unit → Prop}
    (hPQ : ∀ n, Q n.gist ↔ P n) (hPQ' : ∀ n, Q n.gist ↔ P' n) {ts : List (Tree α)}
    {ts' : List (Tree β)} (h : gistAll ts = gistAll ts') (hts : ∀ t ∈ ts, Each P t) :
    ∀ t ∈ ts', Each P' t := by
  intro t ht
  have hmem : t.gist ∈ ts.map gist := by
    rw [← gistAll_eq_map, h, gistAll_eq_map]
    exact List.mem_map_of_mem ht
  obtain ⟨s, hs, hgist⟩ := List.mem_map.1 hmem
  rw [← each_gist hPQ', ← hgist, each_gist hPQ]
  exact hts s hs

/-! ### Maps -/

theorem mapAll_eq_map (f : α → β) (ts : List (Tree α)) : mapAll f ts = ts.map (map f) := by
  induction ts with
  | nil => rfl
  | cons t rest ih => rw [mapAll, ih, List.map_cons]

@[simp] theorem content_map (f : α → β) (t : Tree α) : (t.map f).content = t.content := by
  cases t; rfl

@[simp] theorem children_map (f : α → β) (t : Tree α) :
    (t.map f).children = t.children.map (map f) := by
  cases t
  exact mapAll_eq_map f _

mutual

theorem preorder_map (f : α → β) : (t : Tree α) → (t.map f).preorder = t.preorder.map (map f)
  | node mark content children => by
    rw [preorder, List.map_cons, map, preorder, preorderAll_mapAll f children]

theorem preorderAll_mapAll (f : α → β) :
    (ts : List (Tree α)) → preorderAll (mapAll f ts) = (preorderAll ts).map (map f)
  | [] => rfl
  | t :: rest => by
    rw [mapAll, preorderAll, preorderAll, List.map_append, preorder_map f t,
      preorderAll_mapAll f rest]

end

variable (f : Content → Content)

theorem mapContentAll_eq_map (ts : List (Tree α)) :
    mapContentAll f ts = ts.map (mapContent f) := by
  induction ts with
  | nil => rfl
  | cons t rest ih => rw [mapContentAll, ih, List.map_cons]

@[simp] theorem content_mapContent (t : Tree α) : (t.mapContent f).content = f t.content := by
  cases t; rfl

@[simp] theorem children_mapContent (t : Tree α) :
    (t.mapContent f).children = t.children.map (mapContent f) := by
  cases t
  exact mapContentAll_eq_map f _

mutual

theorem preorder_mapContent :
    (t : Tree α) → (t.mapContent f).preorder = t.preorder.map (mapContent f)
  | node mark content children => by
    rw [preorder, List.map_cons, mapContent, preorder, preorderAll_mapContentAll children]

theorem preorderAll_mapContentAll :
    (ts : List (Tree α)) → preorderAll (mapContentAll f ts) = (preorderAll ts).map (mapContent f)
  | [] => rfl
  | t :: rest => by
    rw [mapContentAll, preorderAll, preorderAll, List.map_append, preorder_mapContent t,
      preorderAll_mapContentAll rest]

end

/-! ### Changed nodes -/

@[simp] theorem content_withChildren (n : Tree α) (children : List (Tree α)) :
    (n.withChildren children).content = n.content := by
  cases n; rfl

@[simp] theorem children_withChildren (n : Tree α) (children : List (Tree α)) :
    (n.withChildren children).children = children := by
  cases n; rfl

@[simp] theorem withChildren_children (n : Tree α) : n.withChildren n.children = n := by
  cases n; rfl

@[simp] theorem mark_withChildren (n : Tree α) (children : List (Tree α)) :
    (n.withChildren children).mark = n.mark := by
  cases n; rfl

@[simp] theorem id_withChildren (n : Node) (children : List Node) :
    (n.withChildren children).id = n.id := by
  cases n; rfl

@[simp] theorem owner_withChildren (n : Node) (children : List Node) :
    (n.withChildren children).owner = n.owner := by
  cases n; rfl

@[simp] theorem content_withParent (n : Node) (parent : Option NodeId) :
    (n.withParent parent).content = n.content := by
  cases n; rfl

@[simp] theorem children_withParent (n : Node) (parent : Option NodeId) :
    (n.withParent parent).children = n.children := by
  cases n; rfl

end Stencil.Tree
