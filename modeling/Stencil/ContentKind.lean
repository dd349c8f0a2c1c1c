/-
  Stencil/ContentKind.lean
  ========================
  **Kinds of content, and how output is escaped.**

  Both are written as attribute values.  `Autoescape` has spellings of its
  own: `true` and `false` stand for the two modes without a context.
-/

namespace Stencil

/-- What a piece of output is written in. -/
inductive ContentKind where
  | html | attributes | css | uri | js | text
deriving DecidableEq, Repr

namespace ContentKind

def name : ContentKind → String
  | html => "html"
  | attributes => "attributes"
  | css => "css"
  | uri => "uri"
  | js => "js"
  | text => "text"

def all : List ContentKind := [html, attributes, css, uri, js, text]

def ofName? (value : String) : Option ContentKind := all.find? (·.name == value)

/-- The place of a kind in `all`. -/
def rank : ContentKind → Nat
  | html => 0
  | attributes => 1
  | css => 2
  | uri => 3
  | js => 4
  | text => 5

end ContentKind

/-- How a template's output is escaped. -/
inductive Autoescape where
  | strict | contextual | nonContextual | disabled
deriving DecidableEq, Repr

namespace Autoescape

def ofAttribute? : String → Option Autoescape
  | "strict" => some strict
  | "contextual" => some contextual
  | "true" => some nonContextual
  | "false" => some disabled
  | _ => none

end Autoescape

end Stencil
