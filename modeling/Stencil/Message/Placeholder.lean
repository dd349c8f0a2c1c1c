/-
  Stencil/Message/Placeholder.lean
  ================================
  **Names of placeholders.**

  A placeholder first gets a base name from what it stands for: the last key of
  a printed reference, or the meaning of an HTML tag.  Where placeholders of a
  message share a base name but not their key, the keys are numbered in the
  order of appearance and the number is added to the name, so that
  placeholders with one key keep sharing a name.
-/
import Stencil.Message.Part
import Stencil.Text.UpperSnake

namespace Stencil.Message

/-! ### Base names -/

/-- The name for the value of an expression: the last key of a reference, and
    `fallback` for any other expression. -/
def exprName (fallback : String) (expr : Expr) : String :=
  match expr.ref? with
  | some ref => Text.upperSnake ref.lastKey
  | none => fallback

/-- The base name of a print that is no reference, and of a call. -/
def anonymousName : String := "XXX"

/-- What a tag is called in translations; a tag without a name of its own is
    called by its element in capitals. -/
def tagWord : String → String
  | "a" => "LINK"
  | "b" => "BOLD"
  | "br" => "BREAK"
  | "em" => "EMPHASIS"
  | "hr" => "HORIZONTAL_RULE"
  | "i" => "ITALIC"
  | "img" => "IMAGE"
  | "li" => "LIST_ITEM"
  | "ol" => "ORDERED_LIST"
  | "p" => "PARAGRAPH"
  | "td" => "TABLE_CELL"
  | "th" => "TABLE_HEADER_CELL"
  | "tr" => "TABLE_ROW"
  | "ul" => "UNORDERED_LIST"
  | "" => "TAG"
  | element => String.ofList (element.toList.map Char.toUpper)

/-- The elements that have no end tag. -/
def voidElements : List String := ["br", "hr", "img", "input", "meta", "link"]

/-- The base name of a tag: its word, after `END_` or `START_` if it is one of a
    pair. -/
def tagName (element : String) (isEnd selfEnding : Bool) : String :=
  if isEnd then "END_" ++ tagWord element
  else if selfEnding || voidElements.contains element then tagWord element
  else "START_" ++ tagWord element

/-! ### Keys -/

/-- The key of a print: its expression and the names of its directives. -/
def printKey (expr : Expr) (directives : List PrintDirective) : PlaceholderKey :=
  .shared ("print:" ++ expr.text ++ "|" ++ "|".intercalate (directives.map (·.name)))

/-- The key of a tag: the tag as it is written. -/
def tagKey (source : String) : PlaceholderKey := .shared ("tag:" ++ source)

/-! ### Final names -/

/-- The base name and key of each placeholder in order. -/
def labels {α : Type} (body : List (Tree α)) : List (String × PlaceholderKey) :=
  (placeholders body).filterMap fun part =>
    match part.content with
    | .placeholder name key => some (name, key)
    | _ => none

/-- The keys under a base name in the order of first appearance, each once. -/
def keysOf (all : List (String × PlaceholderKey)) (base : String) : List PlaceholderKey :=
  ((all.filter (·.1 == base)).map (·.2)).eraseDups

/-- The name of a placeholder among all those of its message. -/
def finalName (all : List (String × PlaceholderKey)) (base : String) (key : PlaceholderKey) :
    String :=
  let keys := keysOf all base
  if 1 < keys.length then base ++ "_" ++ toString (keys.idxOf key + 1) else base

/-- A message body in which every placeholder has its final name. -/
def nameAll {α : Type} (body : List (Tree α)) : List (Tree α) :=
  let all := labels body
  mapPlaceholders (fun content =>
    match content with
    | .placeholder base key => .placeholder (finalName all base key) key
    | other => other) body

end Stencil.Message
