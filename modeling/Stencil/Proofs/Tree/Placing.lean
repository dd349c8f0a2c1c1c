/-
  Stencil/Proofs/Tree/Placing.lean
  ================================
  **From a draft to a placed tree.**

  Nodes draw their identities while a body is read.  Which identity a node gets
  can be told from the draft of the body, in two steps.  Numbering gives every node
  an identity: consecutive numbers in the order in which the nodes are recognised.
  Linking then gives every node its parent's identity and its place, and a call's
  placeholder the call's identity as its key.

  A node is recognised when it opens, before the nodes in it; only what a
  message is assembled from is recognised when the message is complete.  So the
  statements that a message holds come first, and the text, tags and
  placeholders around them after all of them, each wrapping after what it
  wraps.
-/
import Stencil.Tree.Basic

namespace Stencil

/-- The contents that wrap the statements of a message: its text, its HTML tags
    and their text, and its placeholders. -/
def Content.wraps : Content → Bool
  | .msgText _ | .placeholder _ _ | .htmlTag _ _ _ | .rawText _ => true
  | _ => false

/-- The contents whose children are the parts of a message. -/
def Content.holdsParts : Content → Bool
  | .msg _ _ _ | .case _ => true
  | _ => false

namespace Tree

/-! ### Numbering -/

mutual

/-- The number of nodes in a part of a message that do not belong to its
    wrapping. -/
def wrapped {α : Type} : Tree α → Nat
  | node _ content children =>
    if content.wraps then wrappedAll children else sizeAll children + 1

/-- The number of nodes in several parts of a message that do not belong to the
    wrapping. -/
def wrappedAll {α : Type} : List (Tree α) → Nat
  | [] => 0
  | t :: rest => wrapped t + wrappedAll rest

end

/-- A numbered draft: nodes are marked with their identity and line. -/
abbrev Numbered := Tree (NodeId × Nat)

mutual

/-- Number a statement and what it holds, from `next` on; the result ends with
    the next free number. -/
def number (next : NodeId) : Draft → Numbered × NodeId
  | node line content children =>
    if content.holdsParts then
      let (parts, _, free) := numberParts (next + 1) (next + 1 + wrappedAll children) children
      (node (next, line) content parts, free)
    else
      let (children, free) := numberAll (next + 1) children
      (node (next, line) content children, free)

/-- Number statements one after the other. -/
def numberAll (next : NodeId) : List Draft → List Numbered × NodeId
  | [] => ([], next)
  | t :: rest =>
    let (t, next) := number next t
    let (rest, next) := numberAll next rest
    (t :: rest, next)

/-- Number a part of a message: statements from `inner` on and the wrapping
    from `outer` on. -/
def numberPart (inner outer : NodeId) : Draft → Numbered × NodeId × NodeId
  | node line content children =>
    if content.wraps then
      let (children, inner, outer) := numberParts inner outer children
      (node (outer, line) content children, inner, outer + 1)
    else
      let (children, free) := numberAll (inner + 1) children
      (node (inner, line) content children, free, outer)

/-- Number the parts of a message one after the other. -/
def numberParts (inner outer : NodeId) : List Draft → List Numbered × NodeId × NodeId
  | [] => ([], inner, outer)
  | t :: rest =>
    let (t, inner, outer) := numberPart inner outer t
    let (rest, inner, outer) := numberParts inner outer rest
    (t :: rest, inner, outer)

end

/-! ### Linking -/

/-- The content of a numbered node: the own key of a placeholder is the
    identity of the call in it. -/
def claimKey (content : Content) (children : List Numbered) : Content :=
  match content, children with
  | .placeholder name (.own _), call :: _ => .placeholder name (.own call.mark.1)
  | content, _ => content

mutual

/-- The placed tree for a numbered draft: `loc` gives the place of a line. -/
def link (loc : Nat → Location) (parent : Option NodeId) : Numbered → Node
  | node (id, line) content children =>
    node ⟨id, parent, loc line⟩ (claimKey content children) (linkAll loc (some id) children)

/-- The placed trees for several numbered drafts with one parent. -/
def linkAll (loc : Nat → Location) (parent : Option NodeId) : List Numbered → List Node
  | [] => []
  | t :: rest => link loc parent t :: linkAll loc parent rest

end

/-! ### Placing -/

variable (loc : Nat → Location) (parent : Option NodeId)

/-- The placed tree for a statement, with identities from `next` on. -/
def place (next : NodeId) (t : Draft) : Node := link loc parent (number next t).1

/-- The placed trees for statements, one after the other. -/
def placeAll (next : NodeId) (ts : List Draft) : List Node :=
  linkAll loc parent (numberAll next ts).1

/-- The placed tree for a part of a message. -/
def placePart (inner outer : NodeId) (t : Draft) : Node :=
  link loc parent (numberPart inner outer t).1

/-- The placed trees for the parts of a message, one after the other. -/
def placeParts (inner outer : NodeId) (ts : List Draft) : List Node :=
  linkAll loc parent (numberParts inner outer ts).1

end Tree

end Stencil
