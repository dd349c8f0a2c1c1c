/-
  Stencil/Tree/Basic.lean
  =======================
  **The tree of a template body.**

  A node has a mark, a content and its children in order.  The reader marks
  nodes with lines only, which makes a `Draft`; a placed tree marks each node
  with its identity, its parent's identity and its place, which makes a
  `Node`.  What does not look at marks works on both.
-/
import Stencil.Location
import Stencil.Tree.Content

namespace Stencil

/-- A tree whose nodes are marked by values of a type. -/
inductive Tree (α : Type) where
  | node (mark : α) (content : Content) (children : List (Tree α))
deriving Repr

namespace Tree

variable {α β : Type}

def mark : Tree α → α
  | node mark _ _ => mark

def content : Tree α → Content
  | node _ content _ => content

def children : Tree α → List (Tree α)
  | node _ _ children => children

@[simp] theorem mark_node (m : α) (c : Content) (kids : List (Tree α)) :
    (node m c kids).mark = m := rfl

@[simp] theorem content_node (m : α) (c : Content) (kids : List (Tree α)) :
    (node m c kids).content = c := rfl

@[simp] theorem children_node (m : α) (c : Content) (kids : List (Tree α)) :
    (node m c kids).children = kids := rfl

def leaf (mark : α) (content : Content) : Tree α := node mark content []

/-- The node with other children. -/
def withChildren : Tree α → List (Tree α) → Tree α
  | node mark content _, children => node mark content children

def withContent : Tree α → Content → Tree α
  | node mark _ children, content => node mark content children

/-! ### Comparing trees -/

mutual

/-- Trees can be compared if their marks can. -/
def decEq [DecidableEq α] : (t t' : Tree α) → Decidable (t = t')
  | node mark content children, node mark' content' children' =>
    have := decEqAll children children'
    decidable_of_iff (mark = mark' ∧ content = content' ∧ children = children') (by simp)

/-- Lists of trees can be compared if the marks can. -/
def decEqAll [DecidableEq α] : (ts ts' : List (Tree α)) → Decidable (ts = ts')
  | [], [] => .isTrue rfl
  | [], _ :: _ | _ :: _, [] => .isFalse (by simp)
  | t :: rest, t' :: rest' =>
    have := decEq t t'
    have := decEqAll rest rest'
    decidable_of_iff (t = t' ∧ rest = rest') (by simp)

end

instance [DecidableEq α] : DecidableEq (Tree α) := decEq

/-! ### Size and height -/

mutual

/-- The number of nodes of a tree. -/
def size : Tree α → Nat
  | node _ _ children => sizeAll children + 1

/-- The number of nodes of several trees. -/
def sizeAll : List (Tree α) → Nat
  | [] => 0
  | t :: rest => size t + sizeAll rest

end

mutual

/-- The number of levels of a tree. -/
def height : Tree α → Nat
  | node _ _ children => heightAll children + 1

/-- The number of levels of the highest of several trees. -/
def heightAll : List (Tree α) → Nat
  | [] => 0
  | t :: rest => max (height t) (heightAll rest)

end

theorem size_le_sizeAll {t : Tree α} {ts : List (Tree α)} (h : t ∈ ts) : t.size ≤ sizeAll ts := by
  induction ts with
  | nil => simp at h
  | cons s ts ih =>
    rcases List.mem_cons.1 h with rfl | h
    · simp [sizeAll]
    · have := ih h
      simp only [sizeAll]
      omega

theorem size_eq (t : Tree α) : t.size = sizeAll t.children + 1 := by
  cases t; rfl

theorem size_lt_of_mem_children {t s : Tree α} (h : s ∈ t.children) : s.size < t.size := by
  have := size_le_sizeAll h
  rw [t.size_eq]
  omega

/-! ### Maps -/

mutual

/-- The tree with `f` applied to every mark. -/
def map (f : α → β) : Tree α → Tree β
  | node mark content children => node (f mark) content (mapAll f children)

/-- The trees with `f` applied to every mark. -/
def mapAll (f : α → β) : List (Tree α) → List (Tree β)
  | [] => []
  | t :: rest => map f t :: mapAll f rest

end

mutual

/-- The tree with `f` applied to every content. -/
def mapContent (f : Content → Content) : Tree α → Tree α
  | node mark content children => node mark (f content) (mapContentAll f children)

/-- The trees with `f` applied to every content. -/
def mapContentAll (f : Content → Content) : List (Tree α) → List (Tree α)
  | [] => []
  | t :: rest => mapContent f t :: mapContentAll f rest

end

mutual

/-- All nodes of a tree, each before those below it. -/
def preorder : Tree α → List (Tree α)
  | node mark content children => node mark content children :: preorderAll children

/-- All nodes of several trees, each before those below it. -/
def preorderAll : List (Tree α) → List (Tree α)
  | [] => []
  | t :: rest => preorder t ++ preorderAll rest

end

end Tree

/-! ### Drafts and placed nodes -/

/-- A tree as it is read: nodes are marked with lines. -/
abbrev Draft := Tree Nat

/-- What a node goes by: its identity, and the identity that its list of children
    has as its owner. -/
structure Handle where
  id : NodeId
  owner : NodeId
deriving DecidableEq, Repr

/-- A new node owns its list of children. -/
instance : Coe NodeId Handle := ⟨fun id => ⟨id, id⟩⟩

/-- Who a placed node is: what it goes by, the identity of the node that lists it
    as a child, and its place. -/
structure Mark where
  handle : Handle
  parent : Option NodeId
  loc : Location
deriving DecidableEq, Repr

namespace Mark

def id (m : Mark) : NodeId := m.handle.id

/-- The owner of the list of children of what is marked. -/
def owner (m : Mark) : NodeId := m.handle.owner

end Mark

/-- A placed tree. -/
abbrev Node := Tree Mark

namespace Tree

def id (n : Node) : NodeId := n.mark.id

/-- The owner of the list of children of a placed node. -/
def owner (n : Node) : NodeId := n.mark.owner

/-- The identity of the node that lists this one. -/
def parent (n : Node) : Option NodeId := n.mark.parent

def loc (n : Node) : Location := n.mark.loc

/-- The node listed by another one, or by none. -/
def withParent (n : Node) (parent : Option NodeId) : Node :=
  match n with
  | node mark content children => node { mark with parent } content children

/-- The identities of all nodes of a tree, each before those below it. -/
def ids (n : Node) : List NodeId := n.preorder.map id

end Tree

end Stencil
