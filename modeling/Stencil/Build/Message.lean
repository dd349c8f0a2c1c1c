/-
  Stencil/Build/Message.lean
  ==========================
  **Assembling the nodes of a message.**

  A message is assembled as `Message.assemble` says, from statements that are
  nodes already.  Texts, tags and placeholders are made on the way: each takes the
  next free identity when it is made, and gets its children pushed.  So a tag
  comes after its last text and before its placeholder, and a placeholder comes
  after the statement in it.
-/
import Stencil.Message.Assembly
import Stencil.Tree.ChildList

namespace Stencil.Build

open Message (AssemblyCause)

/-- A piece of a message as it is written: text, or a statement and its line. -/
inductive Item where
  | text (chars : List Char) (line : Nat)
  | statement (node : Node) (line : Nat)

/-- White space only. -/
def Item.isBlank : Item → Bool
  | text chars _ => Text.allBlank chars
  | statement _ _ => false

/-- An HTML tag that is not closed yet.  `raw` is its text since the last print
    and `source` the whole tag as it is written, both backwards, as are the
    `parts` before `raw`. -/
structure OpenTag where
  line : Nat
  raw : List Char
  source : List Char
  parts : List Node

/-- The state of an assembly: the parts so far and the text after them, both
    backwards, the line where that text starts, the open tag, and the next free
    identity. -/
structure Assembly where
  parts : List Node := []
  text : List Char := []
  textLine : Nat := 0
  tag : Option OpenTag := none
  next : NodeId

section

variable (loc : Nat → Location)

/-- Backward text as a list of at most one node, and the next free identity. -/
def textNode (content : String → Content) (next : NodeId) (line : Nat) (backwards : List Char) :
    List Node × NodeId :=
  if backwards.isEmpty then ([], next)
  else ([.new next (loc line) (content (String.ofList backwards.reverse))], next + 1)

namespace OpenTag

/-- The tag with its last text among its parts, and the next free identity. -/
def flush (next : NodeId) (tag : OpenTag) : OpenTag × NodeId :=
  let (text, next) := textNode loc .rawText next tag.line tag.raw
  ({ tag with parts := text ++ tag.parts, raw := [] }, next)

def addChar (tag : OpenTag) (c : Char) : OpenTag :=
  { tag with raw := c :: tag.raw, source := c :: tag.source }

/-- The tag after a print, and the next free identity. -/
def addPrint (next : NodeId) (tag : OpenTag) (expr : Expr) (print : Node) : OpenTag × NodeId :=
  let (tag, next) := tag.flush loc next
  ({ tag with
     parts := print :: tag.parts
     source := '}' :: expr.text.toList.reverse ++ '{' :: tag.source }, next)

/-- The placeholder that a closed tag becomes, and the next free identity. -/
def toPlaceholder (next : NodeId) (tag : OpenTag) : Node × NodeId :=
  let (tag, next) := tag.flush loc next
  let source := tag.source.reverse
  let name := Message.OpenTag.element source
  let isEnd := Text.startsWith "</" source
  let selfEnding := Text.endsWith "/>" source
  let element :=
    (Tree.new next (loc tag.line) (.htmlTag name isEnd selfEnding)).pushAll tag.parts.reverse
  let placeholder := Tree.new (next + 1) (loc tag.line)
    (.placeholder (Message.tagName name isEnd selfEnding)
      (Message.tagKey (String.ofList source)))
  (placeholder.push element, next + 2)

end OpenTag

namespace Assembly

/-- The assembly with its last text among its parts. -/
def flush (a : Assembly) : Assembly :=
  let (text, next) := textNode loc .msgText a.next a.textLine a.text
  { a with parts := text ++ a.parts, text := [], next }

/-- Take in a character of an item's text; `following` is the one after it. -/
def addChar (a : Assembly) (line : Nat) (c : Char) (following : Option Char) : Assembly :=
  match a.tag with
  | some tag =>
    let tag := tag.addChar c
    if c = '>' then
      let (placeholder, next) := tag.toPlaceholder loc a.next
      { a with parts := placeholder :: a.parts, tag := none, next }
    else { a with tag := some tag }
  | none =>
    if Message.Assembly.opensTag c following then
      { a.flush loc with tag := some { line, raw := [c], source := [c], parts := [] } }
    else
      { a with text := c :: a.text, textLine := if a.text.isEmpty then line else a.textLine }

/-- Take in the text of an item. -/
def addText (a : Assembly) (line : Nat) : List Char → Assembly
  | [] => a
  | c :: cs => addText (a.addChar loc line c cs.head?) line cs

/-- Take in a statement outside of tags: it becomes a placeholder.  A call has its
    identity as its key. -/
def addStatement (a : Assembly) (node : Node) : Assembly :=
  let a := a.flush loc
  let (name, key) := match node.content with
    | .print expr directives _ =>
      (Message.exprName Message.anonymousName expr, Message.printKey expr directives)
    | _ => (Message.anonymousName, .own node.id)
  let placeholder := Tree.new a.next node.loc (.placeholder name key)
  { a with parts := placeholder.push node :: a.parts, next := a.next + 1 }

def addItem (a : Assembly) : Item → Except (Fault AssemblyCause) Assembly
  | .text chars line => .ok (a.addText loc line chars)
  | .statement node line =>
    match a.tag with
    | none => .ok (a.addStatement loc node)
    | some tag =>
      match node.content with
      | .print expr _ _ =>
        let (tag, next) := tag.addPrint loc a.next expr node
        .ok { a with tag := some tag, next }
      | _ => .error ⟨.onlyPrintsInTag, line⟩

/-- The parts once all items are in, and the next free identity. -/
def finish (a : Assembly) : Except (Fault AssemblyCause) (List Node × NodeId) :=
  match a.tag with
  | some tag => .error ⟨.unterminatedTag (String.ofList tag.source.reverse), tag.line⟩
  | none =>
    let a := a.flush loc
    .ok (a.parts.reverse, a.next)

end Assembly

/-- The parts that items make, with identities from `next` on, and the next free
    one. -/
def assemble (next : NodeId) (items : List Item) :
    Except (Fault AssemblyCause) (List Node × NodeId) := do
  (← items.foldlM (Assembly.addItem loc) { next }).finish loc

end

end Stencil.Build
