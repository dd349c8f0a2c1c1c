/-
  Stencil/Body/Token.lean
  =======================
  **Tokens of a template body**: text, commands, end tags and doc comments.

  A command is a tag in braces.  Its name is a keyword, or it has no name and
  prints an expression.
-/
import Stencil.Text.Blank

namespace Stencil.Body

/-- What a command does.  `expression` is the command without a name. -/
inductive Keyword where
  | expression
  | headerParam
  | optionalHeaderParam
  | print
  | xid
  | ifTag
  | elseifTag
  | elseTag
  | call
  | delcall
  | param
  | msg
  | fallbackmsg
  | plural
  | select
  | case
  | default
deriving DecidableEq, Repr

namespace Keyword

/-- The keyword as it is written; the command without a name has none. -/
def name : Keyword → String
  | expression => ""
  | headerParam => "@param"
  | optionalHeaderParam => "@param?"
  | print => "print"
  | xid => "xid"
  | ifTag => "if"
  | elseifTag => "elseif"
  | elseTag => "else"
  | call => "call"
  | delcall => "delcall"
  | param => "param"
  | msg => "msg"
  | fallbackmsg => "fallbackmsg"
  | plural => "plural"
  | select => "select"
  | case => "case"
  | default => "default"

/-- The keywords that are written. -/
def written : List Keyword :=
  [headerParam, optionalHeaderParam, print, xid, ifTag, elseifTag, elseTag, call, delcall,
   param, msg, fallbackmsg, plural, select, case, default]

def ofName? (name : String) : Option Keyword := written.find? (·.name == name)

/-- A command that declares a parameter of the template. -/
def declaresParam : Keyword → Bool
  | headerParam | optionalHeaderParam => true
  | _ => false

end Keyword

/-- A piece of a template body.  Literal text is kept as it is written; other
    text has its lines joined. -/
inductive Token where
  | text (chars : List Char)
  | literal (chars : List Char)
  | command (keyword : Keyword) (text : List Char) (selfClosing : Bool)
  | endTag (name : String)
  | doc (chars : List Char)
deriving DecidableEq, Repr

/-- Text of white space only, other than literal text. -/
def Token.isBlankText : Token → Bool
  | text chars => Text.allBlank chars
  | _ => false

/-- A token and the line it starts at, counted from the start of the body. -/
structure Placed where
  token : Token
  line : Nat
deriving DecidableEq, Repr

end Stencil.Body
