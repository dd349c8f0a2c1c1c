/-
  Stencil/Message/Assembly.lean
  =============================
  **From what a message is written as to what a translator sees.**

  A message is written as a sequence of items, text and statements.  Text
  outside HTML tags stays text; an HTML tag, with the prints inside it, and
  every statement outside of tags becomes a placeholder.  Items are taken in
  one after the other by an `Assembly`, which knows the parts so far, the
  text that is not yet a part, and the tag that is open.
-/
import Stencil.Message.Placeholder
import Stencil.ParseError
import Stencil.Text.Blank

namespace Stencil.Message

/-- A piece of a message as it is written. -/
inductive Item where
  | text (chars : List Char) (line : Nat)
  | statement (draft : Draft)

/-- White space only. -/
def Item.isBlank : Item → Bool
  | text chars _ => Stencil.Text.allBlank chars
  | statement _ => false

inductive AssemblyCause where
  | onlyPrintsInTag
  | unterminatedTag (source : String)
deriving DecidableEq, Repr

def AssemblyCause.message : AssemblyCause → String
  | onlyPrintsInTag => "Only print commands may appear inside an HTML tag in a message"
  | unterminatedTag source =>
    "HTML tag '" ++ source ++ "' is not terminated within the message"

/-- An HTML tag that is not closed yet.  `raw` is its text since the last print
    and `source` the whole tag as it is written, both backwards, as are the
    `parts` before `raw`. -/
structure OpenTag where
  line : Nat
  raw : List Char
  source : List Char
  parts : List Draft

/-- The state of an assembly: the parts so far and the text after them, both
    backwards, the line where that text starts, the open tag, and the number
    of calls so far. -/
structure Assembly where
  parts : List Draft := []
  text : List Char := []
  textLine : Nat := 0
  tag : Option OpenTag := none
  calls : Nat := 0

/-- Backward text as a list of at most one draft. -/
def textDraft (content : String → Content) (line : Nat) (backwards : List Char) : List Draft :=
  if backwards.isEmpty then []
  else [.leaf line (content (String.ofList backwards.reverse))]

namespace OpenTag

/-- The tag with its last text among its parts. -/
def flush (tag : OpenTag) : OpenTag :=
  { tag with parts := textDraft .rawText tag.line tag.raw ++ tag.parts, raw := [] }

def addChar (tag : OpenTag) (c : Char) : OpenTag :=
  { tag with raw := c :: tag.raw, source := c :: tag.source }

/-- The tag after a print. -/
def addPrint (tag : OpenTag) (expr : Expr) (print : Draft) : OpenTag :=
  let tag := tag.flush
  { tag with
    parts := print :: tag.parts
    source := '}' :: expr.text.toList.reverse ++ '{' :: tag.source }

/-- The element that a tag names: its letters and digits after the opening
    brackets and slashes, in small letters. -/
def element (source : List Char) : String :=
  let name := (source.dropWhile (· == '<')).dropWhile (· == '/')
  String.ofList ((name.takeWhile Char.isAlphanum).map Char.toLower)

/-- The placeholder that a closed tag becomes. -/
def toPlaceholder (tag : OpenTag) : Draft :=
  let source := tag.source.reverse
  let name := element source
  let isEnd := Stencil.Text.startsWith "</" source
  let selfEnding := Stencil.Text.endsWith "/>" source
  .node tag.line (.placeholder (tagName name isEnd selfEnding) (tagKey (String.ofList source)))
    [.node tag.line (.htmlTag name isEnd selfEnding) tag.flush.parts.reverse]

end OpenTag

namespace Assembly

/-- The assembly with its last text among its parts. -/
def flush (a : Assembly) : Assembly :=
  { a with parts := textDraft .msgText a.textLine a.text ++ a.parts, text := [] }

/-- A `<` opens a tag unless the next character of its item shows otherwise: a
    tag goes on with a letter, a slash or an exclamation mark. -/
def opensTag (c : Char) (next : Option Char) : Bool :=
  c == '<' && next.all fun n => n.isAlpha || n == '/' || n == '!'

/-- Take in a character of an item's text; `next` is the one after it. -/
def addChar (a : Assembly) (line : Nat) (c : Char) (next : Option Char) : Assembly :=
  match a.tag with
  | some tag =>
    let tag := tag.addChar c
    if c = '>' then { a with parts := tag.toPlaceholder :: a.parts, tag := none }
    else { a with tag := some tag }
  | none =>
    if opensTag c next then
      { a.flush with tag := some { line, raw := [c], source := [c], parts := [] } }
    else
      { a with text := c :: a.text, textLine := if a.text.isEmpty then line else a.textLine }

/-- Take in the text of an item. -/
def addText (a : Assembly) (line : Nat) : List Char → Assembly
  | [] => a
  | c :: cs => addText (a.addChar line c cs.head?) line cs

/-- Take in a statement outside of tags: it becomes a placeholder. -/
def addStatement (a : Assembly) (draft : Draft) : Assembly :=
  let a := a.flush
  let place name key := Tree.node draft.mark (.placeholder name key) [draft]
  match draft.content with
  | .print expr directives _ =>
    let name := exprName anonymousName expr
    { a with parts := place name (printKey expr directives) :: a.parts }
  | _ =>
    { a with parts := place anonymousName (.own a.calls) :: a.parts, calls := a.calls + 1 }

def addItem (a : Assembly) : Item → Except (Fault AssemblyCause) Assembly
  | .text chars line => .ok (a.addText line chars)
  | .statement draft =>
    match a.tag with
    | none => .ok (a.addStatement draft)
    | some tag =>
      match draft.content with
      | .print expr _ _ => .ok { a with tag := some (tag.addPrint expr draft) }
      | _ => .error ⟨.onlyPrintsInTag, draft.mark⟩

/-- The parts once all items are in. -/
def finish (a : Assembly) : Except (Fault AssemblyCause) (List Draft) :=
  match a.tag with
  | some tag => .error ⟨.unterminatedTag (String.ofList tag.source.reverse), tag.line⟩
  | none => .ok a.flush.parts.reverse

end Assembly

/-- The parts that items make, and the number of calls up to their end;
    `calls` is the number of calls before them in the message. -/
def assemble (calls : Nat) (items : List Item) :
    Except (Fault AssemblyCause) (List Draft × Nat) := do
  let a ← items.foldlM Assembly.addItem { calls }
  pure (← a.finish, a.calls)

end Stencil.Message
