/-
  Stencil/Tree/ChildList.lean
  ===========================
  **Lists of children that know their owner.**

  A child list is owned by a node, and every node on it has the owner as its
  parent.  A node that leaves the list loses its parent.  An operation outside
  the list's bounds is refused.
-/
import Stencil.Tree.Basic

namespace Stencil

/-- The children of a node. -/
structure ChildList where
  owner : NodeId
  nodes : List Node := []

def Tree.childList (n : Node) : ChildList := ⟨n.owner, n.children⟩

namespace ChildList

/-- The nodes as children of an owner. -/
def adopt (owner : NodeId) (nodes : List Node) : List Node :=
  nodes.map (·.withParent (some owner))

/-- The nodes as children of nobody. -/
def release (nodes : List Node) : List Node := nodes.map (·.withParent none)

def size (list : ChildList) : Nat := list.nodes.length

def get? (list : ChildList) (index : Nat) : Option Node := list.nodes[index]?

def first? (list : ChildList) : Option Node := list.nodes.head?

/-- The index of the child with an identity. -/
def indexOf? (list : ChildList) (id : NodeId) : Option Nat :=
  list.nodes.findIdx? (·.id == id)

/-- The nodes from `start` up to `stop` replaced by others, and those that
    left; refused unless `start ≤ stop ≤ size`. -/
def replace? (list : ChildList) (start stop : Nat) (nodes : List Node) :
    Option (ChildList × List Node) :=
  if start ≤ stop ∧ stop ≤ list.size then
    some ({ list with nodes :=
              list.nodes.take start ++ adopt list.owner nodes ++ list.nodes.drop stop },
          release ((list.nodes.take stop).drop start))
  else none

/-- The list with a node at the end. -/
def push (list : ChildList) (node : Node) : ChildList :=
  { list with nodes := list.nodes ++ adopt list.owner [node] }

/-- The list with nodes at the end, one after the other. -/
def pushAll (list : ChildList) (nodes : List Node) : ChildList := nodes.foldl push list

/-- The list with a node before the one at an index; refused past the end. -/
def insert? (list : ChildList) (index : Nat) (node : Node) : Option ChildList :=
  (list.replace? index index [node]).map (·.1)

/-- The list without the child at an index, and that child; refused where there
    is none. -/
def remove? (list : ChildList) (index : Nat) : Option (ChildList × Node) :=
  (list.replace? index (index + 1) []).bind fun (rest, removed) =>
    removed.head?.map fun node => (rest, node)

/-- The list with `f` applied to the child at an index; refused where there is
    none. -/
def modify? (list : ChildList) (index : Nat) (f : Node → Node) : Option ChildList :=
  if index < list.size then some { list with nodes := list.nodes.modify index f } else none

end ChildList

/-! ### Nodes under construction -/

namespace Tree

/-- A new node, listed by nobody and without children. -/
def new (id : NodeId) (loc : Location) (content : Content) : Node := leaf ⟨id, none, loc⟩ content

/-- The node with a child at the end of its list. -/
def push (n child : Node) : Node := n.withChildren (n.childList.push child).nodes

/-- The node with children at the end of its list, one after the other. -/
def pushAll (n : Node) (children : List Node) : Node :=
  n.withChildren (n.childList.pushAll children).nodes

end Tree

end Stencil
