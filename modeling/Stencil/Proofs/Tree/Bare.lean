/-
  Stencil/Proofs/Tree/Bare.lean
  =============================
  **Trees up to identities and places.**

  The bare tree of a tree has no marks, and its own keys, which are identities,
  are all the same.  Trees with one bare tree differ in identities and places
  only.  Copying a tree, giving it to another parent and placing it keep the
  bare tree.
-/
import Mathlib.Data.List.Forall2
import Stencil.Proofs.Tree.Shape
import Stencil.Tree.Copy

namespace Stencil

/-- The content without identities. -/
def Content.bare : Content → Content
  | .placeholder name (.own _) => .placeholder name (.own 0)
  | content => content

namespace Content

theorem bare_bare (content : Content) : content.bare.bare = content.bare := by
  cases content with
  | placeholder name key => cases key <;> rfl
  | _ => rfl

theorem gist_bare (content : Content) : content.bare.gist = content.gist := by
  cases content with
  | placeholder name key => cases key <;> rfl
  | _ => rfl

theorem form_bare (content : Content) : content.bare.form = content.form := by
  rw [← form_gist, gist_bare, form_gist]

theorem holds_bare (content child : Content) :
    content.bare.holds child.bare = content.holds child := by
  rw [← holds_form, form_bare, form_bare, holds_form]

@[simp] theorem isStatement_bare (content : Content) :
    content.bare.isStatement = content.isStatement := by
  rw [← isStatement_form, form_bare, isStatement_form]

@[simp] theorem isMsgGroup_bare (content : Content) :
    content.bare.isMsgGroup = content.isMsgGroup := by
  rw [← isMsgGroup_form, form_bare, isMsgGroup_form]

@[simp] theorem isChoice_bare (content : Content) : content.bare.isChoice = content.isChoice := by
  rw [← isChoice_form, form_bare, isChoice_form]

/-- Only the own keys of placeholders are left out of bare contents. -/
theorem eq_of_bare_eq {content content' : Content} (h : content.bare = content'.bare)
    (hcontent : ∀ name key, content' ≠ placeholder name key) : content = content' := by
  have hbare : content'.bare = content' := by
    cases content' with
    | placeholder name key => exact absurd rfl (hcontent name key)
    | _ => rfl
  rw [hbare] at h
  cases content with
  | placeholder name key => cases key <;> exact absurd h.symm (hcontent _ _)
  | _ => exact h

theorem exists_call {content : Content} (h : content.isCall) :
    ∃ target data, content = call target data := by
  cases content <;> first | exact ⟨_, _, rfl⟩ | cases h

end Content

namespace Tree

variable {α β : Type}

/-- The tree without marks and identities. -/
def bare (t : Tree α) : Tree Unit := (t.mapContent Content.bare).map fun _ => ()

@[simp] theorem content_bare (t : Tree α) : t.bare.content = t.content.bare := by
  rw [bare, content_map, content_mapContent]

@[simp] theorem children_bare (t : Tree α) : t.bare.children = t.children.map bare := by
  rw [bare, children_map, children_mapContent, List.map_map]
  rfl

theorem preorder_bare (t : Tree α) : t.bare.preorder = t.preorder.map bare := by
  rw [bare, preorder_map, preorder_mapContent, List.map_map]
  rfl

theorem eq_of_content_eq {t t' : Tree Unit} (hcontent : t.content = t'.content)
    (hchildren : t.children = t'.children) : t = t' := by
  cases t
  cases t'
  rw [content_node] at hcontent
  rw [children_node] at hchildren
  rw [hcontent, hchildren]
  rfl

theorem bare_eq_iff {t : Tree α} {t' : Tree β} : t.bare = t'.bare ↔
    t.content.bare = t'.content.bare ∧ t.children.map bare = t'.children.map bare := by
  constructor
  · intro h
    rw [← content_bare, ← content_bare, ← children_bare, ← children_bare, h]
    exact ⟨rfl, rfl⟩
  · rintro ⟨hcontent, hchildren⟩
    apply eq_of_content_eq
    · rw [content_bare, content_bare, hcontent]
    · rw [children_bare, children_bare, hchildren]

theorem bare_node (mark : α) (content : Content) (children : List (Tree α)) :
    (node mark content children).bare = node () content.bare (children.map bare) :=
  eq_of_content_eq (content_bare _) (children_bare _)

theorem bare_leaf (mark : α) (content : Content) :
    (leaf mark content).bare = leaf () content.bare := bare_node mark content []

mutual

theorem gist_bare : (t : Tree α) → t.bare.gist = t.gist
  | node mark content children => by
    rw [bare_node, gist, gist, Content.gist_bare, gistAll_map_bare children]

theorem gistAll_map_bare : (ts : List (Tree α)) → gistAll (ts.map bare) = gistAll ts
  | [] => rfl
  | t :: rest => by rw [List.map_cons, gistAll, gistAll, gist_bare t, gistAll_map_bare rest]

end

mutual

theorem bare_bare : (t : Tree α) → t.bare.bare = t.bare
  | node mark content children => by
    rw [bare_node, bare_node, Content.bare_bare, map_bare_map_bare children]

theorem map_bare_map_bare : (ts : List (Tree α)) → (ts.map bare).map bare = ts.map bare
  | [] => rfl
  | t :: rest => by
    rw [List.map_cons, List.map_cons, bare_bare t, map_bare_map_bare rest]

end

/-- Properties of a node that do not look at marks and identities hold of a tree
    just in case they hold of its bare tree. -/
theorem each_bare {P : Tree α → Prop} {Q : Tree Unit → Prop} (hPQ : ∀ n, Q n.bare ↔ P n)
    (t : Tree α) : Each Q t.bare ↔ Each P t := each_map_iff (preorder_bare t) hPQ

theorem shaped_bare (t : Tree α) : Shaped t.bare ↔ Shaped t := by
  apply each_bare
  intro n
  simp only [ShapedAt, children_bare, content_bare, List.forall_mem_map, Content.holds_bare]

/-- Lists with one list of bare trees have, element by element, one bare tree. -/
theorem map_bare_eq_iff {ts : List (Tree α)} {ts' : List (Tree β)} : ts.map bare = ts'.map bare ↔
    List.Forall₂ (fun t t' => t.bare = t'.bare) ts ts' := by
  rw [← List.forall₂_eq_eq_eq, List.forall₂_map_left_iff, List.forall₂_map_right_iff]

theorem map_content_eq_of_map_bare_eq {ts : List (Tree α)} {ts' : List (Tree β)}
    (hts' : ∀ t ∈ ts', ∀ name key, t.content ≠ .placeholder name key)
    (h : ts.map bare = ts'.map bare) : ts.map content = ts'.map content := by
  rw [map_bare_eq_iff] at h
  induction h with
  | nil => rfl
  | cons ht _ ih =>
    rw [List.map_cons, List.map_cons, ih fun t ht => hts' t (List.mem_cons_of_mem _ ht),
      Content.eq_of_bare_eq (bare_eq_iff.1 ht).1 (hts' _ List.mem_cons_self)]

theorem not_placeholder_of_param {param : Tree α}
    (h : (∃ key value, param.content = .valueParam key value) ∨
      ∃ key kind, param.content = .contentParam key kind) (name : String) (key : PlaceholderKey) :
    param.content ≠ .placeholder name key := by
  rcases h with ⟨_, _, h⟩ | ⟨_, _, h⟩ <;> rw [h] <;> exact fun heq => (nomatch heq)

/-! ### Height -/

theorem height_eq (t : Tree α) : t.height = heightAll t.children + 1 := by
  cases t; rfl

theorem heightAll_le_iff {ts : List (Tree α)} {height : Nat} :
    heightAll ts ≤ height ↔ ∀ t ∈ ts, t.height ≤ height := by
  induction ts with
  | nil => simp [heightAll]
  | cons t rest ih => rw [heightAll, Nat.max_le, ih, List.forall_mem_cons]

mutual

theorem height_bare : (t : Tree α) → t.bare.height = t.height
  | node mark content children => by rw [bare_node, height, height, heightAll_map_bare children]

theorem heightAll_map_bare : (ts : List (Tree α)) → heightAll (ts.map bare) = heightAll ts
  | [] => rfl
  | t :: rest => by
    rw [List.map_cons, heightAll, heightAll, height_bare t, heightAll_map_bare rest]

end

mutual

theorem height_le_of_mem_preorder {n : Tree α} :
    (t : Tree α) → n ∈ t.preorder → n.height ≤ t.height
  | node mark content children, hn => by
    rcases mem_preorder_iff.1 hn with rfl | hn
    · exact Nat.le_refl _
    · rw [children_node] at hn
      have hle := height_le_of_mem_preorderAll children hn
      rw [height]
      omega

theorem height_le_of_mem_preorderAll {n : Tree α} :
    (ts : List (Tree α)) → n ∈ preorderAll ts → n.height ≤ heightAll ts
  | t :: rest, hn => by
    rw [preorderAll, List.mem_append] at hn
    rw [heightAll]
    rcases hn with hn | hn
    · exact Nat.le_trans (height_le_of_mem_preorder t hn) (Nat.le_max_left _ _)
    · exact Nat.le_trans (height_le_of_mem_preorderAll rest hn) (Nat.le_max_right _ _)

end

/-! ### Copies -/

@[simp] theorem bare_withParent (n : Node) (parent : Option NodeId) :
    (n.withParent parent).bare = n.bare := by
  rw [bare_eq_iff]
  simp

mutual

theorem bare_renumber (parent : Option NodeId) (next : NodeId) :
    (n : Node) → (renumber parent next n).1.bare = n.bare
  | node mark content children => by
    rw [renumber, bare_node, bare_node, map_bare_renumberAll]

theorem map_bare_renumberAll (parent : Option NodeId) (next : NodeId) :
    (ns : List Node) → (renumberAll parent next ns).1.map bare = ns.map bare
  | [] => rfl
  | n :: rest => by
    rw [renumberAll, List.map_cons, List.map_cons, bare_renumber, map_bare_renumberAll]

end

theorem bare_copy (next : NodeId) (n : Node) : (n.copy next).1.bare = n.bare :=
  bare_renumber n.parent next n

end Tree

end Stencil
