/-
  Stencil/Tree/Editing.lean
  =========================
  **Editing a child list step by step.**

  An editor holds a child list of text nodes, the nodes that left it, the latest
  first, and the next free identity.  A step may bring new nodes; they take
  their identities also when the list refuses them.
-/
import Stencil.Tree.ChildList

namespace Stencil

/-- A child list, the nodes that left it, and the next free identity. -/
structure ListEditor where
  list : ChildList
  detached : List Node := []
  next : NodeId

/-- A step of editing a child list. -/
inductive ListEdit where
  | push (text : String)
  | insert (index : Nat) (text : String)
  | remove (index : Nat)
  | replace (start stop : Nat) (texts : List String)
  | attach
  | setText (index : Nat) (text : String)
deriving DecidableEq, Repr

/-- What a step gives: the nodes that left the list, or that it did or did not
    do anything, or that the list refused it. -/
inductive ListEditResult where
  | done
  | refused
  | removed (nodes : List Node)
  | changed (yes : Bool)

namespace ListEditor

/-- An editor of an empty list owned by the first identity. -/
def empty : ListEditor := { list := ⟨0, []⟩, next := 1 }

/-- New text nodes with identities from `next` on, listed by nobody. -/
def newNodes (next : NodeId) : List String → List Node
  | [] => []
  | text :: rest => .leaf ⟨next, none, .unknown⟩ (.rawText text) :: newNodes (next + 1) rest

/-- The editor after a step on its list that may be refused. -/
def update (e : ListEditor) (list? : Option ChildList) (result : ListEditResult) :
    ListEditResult × ListEditor :=
  match list? with
  | some list => (result, { e with list })
  | none => (.refused, e)

/-- The editor after nodes left its list, if it did not refuse. -/
def release (e : ListEditor) : Option (ChildList × List Node) → ListEditResult × ListEditor
  | some (list, removed) =>
    (.removed removed, { e with list, detached := removed.reverse ++ e.detached })
  | none => (.refused, e)

def step (e : ListEditor) : ListEdit → ListEditResult × ListEditor
  | .push text =>
    let node : Node := .leaf ⟨e.next, none, .unknown⟩ (.rawText text)
    (.done, { e with list := e.list.push node, next := e.next + 1 })
  | .insert index text =>
    let node : Node := .leaf ⟨e.next, none, .unknown⟩ (.rawText text)
    { e with next := e.next + 1 }.update (e.list.insert? index node) .done
  | .remove index =>
    e.release ((e.list.remove? index).map fun (list, node) => (list, [node]))
  | .replace start stop texts =>
    { e with next := e.next + texts.length }.release
      (e.list.replace? start stop (newNodes e.next texts))
  | .attach =>
    match e.detached with
    | node :: detached => (.changed true, { e with list := e.list.push node, detached })
    | [] => (.changed false, e)
  | .setText index text =>
    match e.list.modify? index (·.withContent (.rawText text)) with
    | some list => (.changed true, { e with list })
    | none => (.changed false, e)

end ListEditor

end Stencil
