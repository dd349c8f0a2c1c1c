/-
  Stencil/Body/Scanner.lean
  =========================
  **From the text of a template body to its tokens.**

  The scanner is a machine that is fed one character at a time.  Its mode says
  what the character belongs to: text, a comment, a doc comment, a command or
  a literal block.  Text is collected across comments and becomes a token
  when another token follows or the body ends.

  A comment starts only at the start of the body or after white space, so the
  slashes of a web address are text.
-/
import Stencil.Body.Lines
import Stencil.Body.Token
import Stencil.ParseError

namespace Stencil.Body

open Text (isBlank trim trimEnd)

/-! ### Complaints -/

/-- Why a text does not split into tokens. -/
inductive ScanCause where
  | unterminatedLiteral
  | unterminatedDoc
  | unterminatedComment
  | unterminatedCommand
  | braceInCommand
  | strayBrace
  | emptyEndTag
  | emptyCommand
  | unknownCommand (name : String)
deriving DecidableEq, Repr

def ScanCause.message : ScanCause → String
  | unterminatedLiteral => "Unterminated \x7bliteral\x7d block"
  | unterminatedDoc => "Unterminated doc comment"
  | unterminatedComment => "Unterminated comment"
  | unterminatedCommand => "Unterminated command tag"
  | braceInCommand => "Unexpected '\x7b' inside command tag"
  | strayBrace => "Unexpected '\x7d' in template text; use \x7brb\x7d"
  | emptyEndTag => "Empty end tag"
  | emptyCommand => "Empty command tag"
  | unknownCommand name => "Unknown command '\x7b" ++ name ++ "\x7d'"

/-! ### The inside of a tag -/

/-- The text that a tag stands for by itself. -/
def specialText? (content : List Char) : Option (List Char) :=
  match String.ofList content with
  | "sp" => some [' ']
  | "nil" => some []
  | "\\n" => some ['\n']
  | "\\r" => some ['\r']
  | "\\t" => some ['\t']
  | "lb" => some ['\x7b']
  | "rb" => some ['\x7d']
  | _ => none

/-- An expression to print starts with a reference, a string, a parenthesis, a
    minus sign or a digit. -/
def startsExpression : List Char → Bool
  | [] => false
  | c :: _ => c == '$' || c == '\'' || c == '(' || c == '-' || c.isDigit

/-- The token of a tag that is no end tag, from what stands between its braces
    without white space at the ends and without a closing slash. -/
def commandToken (content : List Char) (selfClosing : Bool) : Except ScanCause Token :=
  if content.isEmpty then .error .emptyCommand
  else match specialText? content with
    | some text => .ok (.literal text)
    | none =>
      let name := String.ofList (content.takeWhile fun c => !isBlank c)
      match Keyword.ofName? name with
      | some keyword =>
        .ok (.command keyword (trim (content.dropWhile fun c => !isBlank c)) selfClosing)
      | none =>
        if startsExpression content then .ok (.command .expression content selfClosing)
        else .error (.unknownCommand name)

/-- The token of a tag from what stands between its braces.  A slash right after
    the opening brace makes an end tag, one before the closing brace a command
    without a body. -/
def tagToken (inside : List Char) : Except ScanCause Token :=
  match inside with
  | '/' :: name =>
    let name := trim name
    if name.isEmpty then .error .emptyEndTag else .ok (.endTag (String.ofList name))
  | _ =>
    let content := trim inside
    match Text.dropSuffix? ['/'] content with
    | some content => commandToken (trimEnd content) true
    | none => commandToken content false

/-! ### The machine -/

/-- Where the scanner is inside a quoted string of a command: the quote that
    ends it, and whether the next character is taken as it is. -/
structure Quoted where
  quote : Char
  escaped : Bool := false
deriving DecidableEq, Repr

/-- What the next character belongs to.  Lines are those where a comment, a
    command or a block starts, and characters read so far stand backwards. -/
inductive Mode where
  | text
  | slash
  | slashStar
  | slashStarStar
  | comment (line : Nat) (afterStar : Bool)
  | lineComment
  | doc (line : Nat) (chars : List Char)
  | command (line : Nat) (chars : List Char) (quoted : Option Quoted)
  | literal (line : Nat) (chars : List Char)
deriving DecidableEq, Repr

/-- The state of the scanner: its mode, the current line, whether a comment may
    start here, the text not yet in a token (backwards) with the line where it
    starts, and the tokens so far (backwards). -/
structure Scanner where
  mode : Mode := .text
  line : Nat := 0
  boundary : Bool := true
  text : List Char := []
  textLine : Nat := 0
  tokens : List Placed := []
deriving DecidableEq, Repr

/-- The tokens of a body and the line it ends on. -/
structure Scanned where
  tokens : List Placed
  endLine : Nat
deriving DecidableEq, Repr

namespace Scanner

/-- The scanner with its text in a token; text whose lines join to nothing
    makes none. -/
def flush (s : Scanner) : Scanner :=
  let joined := joinLines s.text.reverse
  if joined.isEmpty then { s with text := [] }
  else { s with text := [], tokens := ⟨.text joined, s.textLine⟩ :: s.tokens }

/-- The scanner in text after a token that started at a line. -/
def emit (s : Scanner) (token : Token) (line : Nat) : Scanner :=
  let s := s.flush
  { s with mode := .text, boundary := false, tokens := ⟨token, line⟩ :: s.tokens }

/-- The scanner after one more character of text. -/
def addText (s : Scanner) (c : Char) : Scanner :=
  { s with
    mode := .text
    boundary := isBlank c
    text := c :: s.text
    textLine := if s.text.isEmpty then s.line else s.textLine }

/-- Take a character that stands in text. -/
def stepText (s : Scanner) (c : Char) : Except (Fault ScanCause) Scanner :=
  if c = '\x7b' then .ok { s with mode := .command s.line [] none }
  else if c = '\x7d' then .error ⟨.strayBrace, s.line⟩
  else if c = '/' && s.boundary then .ok { s with mode := .slash }
  else .ok (s.addText c)

/-- The scanner after a tag: a literal block opens, or a token is made.  What is
    wrong with a tag shows at its end. -/
def closeTag (s : Scanner) (line : Nat) (inside : List Char) : Except (Fault ScanCause) Scanner :=
  if inside = "literal".toList then .ok { s with mode := .literal line [] }
  else match tagToken inside with
    | .ok token => .ok (s.emit token line)
    | .error cause => .error ⟨cause, s.line⟩

/-- Take a character that stands in a command. -/
def stepCommand (s : Scanner) (line : Nat) (chars : List Char) (quoted : Option Quoted)
    (c : Char) : Except (Fault ScanCause) Scanner :=
  let goOn quoted := .ok { s with mode := .command line (c :: chars) quoted }
  match quoted with
  | some q =>
    if q.escaped then goOn (some { q with escaped := false })
    else if c = q.quote then goOn none
    else goOn (some { q with escaped := c == '\\' })
  | none =>
    if c = '\x7d' then s.closeTag line chars.reverse
    else if c = '\x7b' then .error ⟨.braceInCommand, line⟩
    else if c = '"' || c = '\'' then goOn (some { quote := c })
    else goOn none

/-- What ends a literal block, backwards and without its last brace. -/
def literalEnd : List Char := "\x7b/literal".toList.reverse

/-- Take a character, the line aside. -/
def stepChar (s : Scanner) (c : Char) : Except (Fault ScanCause) Scanner :=
  match s.mode with
  | .text => s.stepText c
  | .slash =>
    if c = '*' then .ok { s with mode := .slashStar }
    else if c = '/' then .ok { s with mode := .lineComment }
    else (s.addText '/').stepText c
  | .slashStar =>
    if c = '*' then .ok { s with mode := .slashStarStar }
    else .ok { s with mode := .comment s.line false }
  | .slashStarStar =>
    if c = '/' then .ok { s with mode := .text, boundary := false }
    else .ok { s with mode := .doc s.line [c] }
  | .comment line afterStar =>
    if afterStar && c == '/' then .ok { s with mode := .text, boundary := false }
    else .ok { s with mode := .comment line (c == '*') }
  | .lineComment =>
    if c = '\n' then { s with mode := .text }.stepText c else .ok s
  | .doc line chars =>
    if c = '/' && chars.head? == some '*' then
      .ok (s.emit (.doc ("/**".toList ++ (c :: chars).reverse)) line)
    else .ok { s with mode := .doc line (c :: chars) }
  | .command line chars quoted => s.stepCommand line chars quoted c
  | .literal line chars =>
    match c, Text.dropPrefix? literalEnd chars with
    | '\x7d', some block => .ok (s.emit (.literal block.reverse) line)
    | _, _ => .ok { s with mode := .literal line (c :: chars) }

def step (s : Scanner) (c : Char) : Except (Fault ScanCause) Scanner :=
  (s.stepChar c).map fun s => if c = '\n' then { s with line := s.line + 1 } else s

/-- The tokens once all characters are taken. -/
def finish (s : Scanner) : Except (Fault ScanCause) Scanned :=
  let done (s : Scanner) : Except (Fault ScanCause) Scanned :=
    .ok ⟨s.flush.tokens.reverse, s.line⟩
  match s.mode with
  | .text => done s
  | .slash => done (s.addText '/')
  | .lineComment => done s
  | .slashStar => .error ⟨.unterminatedComment, s.line⟩
  | .slashStarStar => .error ⟨.unterminatedDoc, s.line⟩
  | .comment line _ => .error ⟨.unterminatedComment, line⟩
  | .doc line _ => .error ⟨.unterminatedDoc, line⟩
  | .command line _ _ => .error ⟨.unterminatedCommand, line⟩
  | .literal line _ => .error ⟨.unterminatedLiteral, line⟩

end Scanner

/-- The tokens of a template body. -/
def scan (body : List Char) : Except (Fault ScanCause) Scanned := do
  (← body.foldlM Scanner.step {}).finish

end Stencil.Body
