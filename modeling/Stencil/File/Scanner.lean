/-
  Stencil/File/Scanner.lean
  =========================
  **From the text of a file to its declarations.**

  A file consists of declarations in braces, comments and templates, with
  white space between them.  The scanner is a machine that is fed one
  character at a time; when it meets something it cannot take, it is stuck
  and keeps what it found before.  The tag of a declaration is on one line, and
  all but templates start their line.

  A template reaches up to the first end tag of either kind, and no opening tag
  may stand in it.
-/
import Stencil.Template.Header

namespace Stencil.File

open Text (isBlank trim cut?)

/-! ### Items -/

/-- What a file is made of, with the text of each declaration. -/
inductive Item where
  | package (text : List Char)
  | namespaceDecl (text : List Char)
  | aliasDecl (text : List Char)
  | doc (chars : List Char)
  | comment
  | template (raw : RawTemplate)
deriving DecidableEq, Repr

/-- An item and the line it starts at. -/
structure Placed where
  item : Item
  line : Nat
deriving DecidableEq, Repr

/-- Why a text does not split into items. -/
inductive ScanCause where
  | unterminatedDoc
  | unterminatedComment
  | strayText
  | unterminatedTag
  | notAtLineStart (name : String)
  | strayTag (name : String)
  | strayEndTag (name : String)
  | missingEnd (name : String)
  | mismatchedEnd (name closing : String)
deriving DecidableEq, Repr

namespace ScanCause

open Body.Cause (tag)

def message : ScanCause → String
  | unterminatedDoc => "Unterminated doc comment"
  | unterminatedComment => "Unterminated comment"
  | strayText => "Unexpected text outside of templates"
  | unterminatedTag => "Unterminated tag"
  | notAtLineStart name => tag name ++ " must appear at the start of a line"
  | strayTag name => "Unexpected tag " ++ tag name ++ " outside of templates"
  | strayEndTag name => "Unexpected end tag " ++ tag name ++ " outside of templates"
  | missingEnd name => "Missing end tag " ++ tag ("/" ++ name)
  | mismatchedEnd name closing =>
    "Mismatched end tag: " ++ tag name ++ " closed by " ++ tag ("/" ++ closing)

/-- A comment without an end is a lexical error, all else one of structure. -/
def errorClass : ScanCause → ErrorClass
  | unterminatedDoc | unterminatedComment => .lexical
  | _ => .structural

end ScanCause

/-! ### The machine -/

/-- What the next character belongs to.  Characters read so far stand
    backwards. -/
inductive Mode where
  | between
  | slash
  | slashStar
  | slashStarStar
  | comment (line : Nat) (afterStar : Bool)
  | lineComment
  | doc (line : Nat) (chars : List Char)
  | tag (line : Nat) (lineStart : Bool) (quoted : Bool) (chars : List Char)
  | template (line : Nat) (isDelegate : Bool) (text chars : List Char)
  | stuck (fault : Fault ScanCause)
deriving DecidableEq, Repr

/-- The state of the scanner: its mode, the current line, whether the next
    character is the first of its line, and the items so far (backwards). -/
structure Scanner where
  mode : Mode := .between
  line : Nat := 1
  lineStart : Bool := true
  items : List Placed := []
deriving DecidableEq, Repr

def templateName (isDelegate : Bool) : String := if isDelegate then "deltemplate" else "template"

/-- The text of a template up to an end tag without its last brace, and whether
    that is the end tag of a delegate; all backwards. -/
def endTag? (chars : List Char) : Option (Bool × List Char) :=
  match Text.dropPrefix? "\x7b/template".toList.reverse chars with
  | some body => some (false, body)
  | none =>
    (Text.dropPrefix? "\x7b/deltemplate".toList.reverse chars).map fun body => (true, body)

/-- The opening tag of a template stands in a text. -/
def opensTemplate (text : List Char) : Bool :=
  Text.contains "\x7btemplate " text || Text.contains "\x7bdeltemplate " text

namespace Scanner

/-- The scanner between items after an item that started at a line. -/
def emit (s : Scanner) (item : Item) (line : Nat) : Scanner :=
  { s with mode := .between, items := ⟨item, line⟩ :: s.items }

/-- The scanner that cannot go on for a reason at a line. -/
def fail (s : Scanner) (cause : ScanCause) (line : Nat) : Scanner :=
  { s with mode := .stuck ⟨cause, line⟩ }

/-- Take the first character of an item, or white space. -/
def stepBetween (s : Scanner) (c : Char) : Scanner :=
  if isBlank c then { s with mode := .between }
  else if c = '/' then { s with mode := .slash }
  else if c = '\x7b' then { s with mode := .tag s.line s.lineStart false [] }
  else s.fail .strayText s.line

/-- The scanner after a tag: a declaration is made, or a template opens. -/
def closeTag (s : Scanner) (line : Nat) (lineStart : Bool) (inside : List Char) : Scanner :=
  let (name, text) := match cut? isBlank inside with
    | some (name, text) => (String.ofList name, trim text)
    | none => (String.ofList inside, [])
  let declare (item : Item) : Scanner :=
    if lineStart then s.emit item line else s.fail (.notAtLineStart name) line
  match name with
  | "delpackage" => declare (.package text)
  | "namespace" => declare (.namespaceDecl text)
  | "alias" => declare (.aliasDecl text)
  | "template" => { s with mode := .template line false text [] }
  | "deltemplate" => { s with mode := .template line true text [] }
  | name =>
    if Text.startsWith "/" name.toList then s.fail (.strayEndTag name) line
    else s.fail (.strayTag name) line

/-- The scanner after the end tag of a template. -/
def closeTemplate (s : Scanner) (line : Nat) (isDelegate : Bool) (text : List Char)
    (closesDelegate : Bool) (body : List Char) : Scanner :=
  if opensTemplate body then s.fail (.missingEnd (templateName isDelegate)) line
  else if isDelegate != closesDelegate then
    s.fail (.mismatchedEnd (templateName isDelegate) (templateName closesDelegate)) line
  else s.emit (.template { isDelegate, text, body, doc := none, line }) line

/-- Take a character, the line aside. -/
def stepChar (s : Scanner) (c : Char) : Scanner :=
  match s.mode with
  | .between => s.stepBetween c
  | .slash =>
    if c = '*' then { s with mode := .slashStar }
    else if c = '/' then { s.emit .comment s.line with mode := .lineComment }
    else s.fail .strayText s.line
  | .slashStar =>
    if c = '*' then { s with mode := .slashStarStar }
    else { s with mode := .comment s.line false }
  | .slashStarStar =>
    if c = '/' then s.emit .comment s.line else { s with mode := .doc s.line [c] }
  | .comment line afterStar =>
    if afterStar && c == '/' then s.emit .comment line
    else { s with mode := .comment line (c == '*') }
  | .lineComment => if c = '\n' then s.stepBetween c else s
  | .doc line chars =>
    if c = '/' && chars.head? == some '*' then
      s.emit (.doc ("/**".toList ++ (c :: chars).reverse)) line
    else { s with mode := .doc line (c :: chars) }
  | .tag line lineStart quoted chars =>
    if c = '\n' then s.fail .unterminatedTag line
    else if c = '\x7d' && !quoted then s.closeTag line lineStart chars.reverse
    else { s with mode := .tag line lineStart (quoted != (c == '"')) (c :: chars) }
  | .template line isDelegate text chars =>
    match c, endTag? chars with
    | '\x7d', some (closesDelegate, body) =>
      s.closeTemplate line isDelegate text closesDelegate body.reverse
    | _, _ => { s with mode := .template line isDelegate text (c :: chars) }
  | .stuck _ => s

def step (s : Scanner) (c : Char) : Scanner :=
  let s := s.stepChar c
  { s with line := if c = '\n' then s.line + 1 else s.line, lineStart := c == '\n' }

/-- Why the items are not all of the file, if the text ends here. -/
def fault? (s : Scanner) : Option (Fault ScanCause) :=
  match s.mode with
  | .between | .lineComment => none
  | .slash => some ⟨.strayText, s.line⟩
  | .slashStar => some ⟨.unterminatedComment, s.line⟩
  | .slashStarStar => some ⟨.unterminatedDoc, s.line⟩
  | .comment line _ => some ⟨.unterminatedComment, line⟩
  | .doc line _ => some ⟨.unterminatedDoc, line⟩
  | .tag line _ _ _ => some ⟨.unterminatedTag, line⟩
  | .template line isDelegate _ _ => some ⟨.missingEnd (templateName isDelegate), line⟩
  | .stuck fault => some fault

end Scanner

/-- The items of a text, and why they end before it does. -/
def scan (text : List Char) : List Placed × Option (Fault ScanCause) :=
  let s := text.foldl Scanner.step {}
  (s.items.reverse, s.fault?)

end Stencil.File
