/-
  Stencil/Tree/Content.lean
  =========================
  **What a node of a template's tree is.**

  Apart from its children a node has a content, which says what it stands for.
  Statements are what a template body is made of: text, prints, identifiers to
  be renamed, conditionals, calls, message groups and the HTML tags inside
  messages.  The other contents are parts of statements: branches, parameters
  of calls, messages and what messages are made of.
-/
import Stencil.Expr.Basic

namespace Stencil

/-- The identity of a node: no two nodes of a file set have the same. -/
abbrev NodeId := Nat

/-- A print directive with its arguments as they are written. -/
structure PrintDirective where
  name : String
  args : Option String
deriving DecidableEq, Repr

/-- What a call calls.  A template is called by its full name, and the call
    keeps the name as written; a delegate is called by name and variant. -/
inductive CallTarget where
  | basic (name written : String)
  | delegate (name variant : String)
deriving DecidableEq, Repr

def CallTarget.name : CallTarget → String
  | basic name _ => name
  | delegate name _ => name

/-- The data that a call passes besides its parameters. -/
inductive CallData where
  | nothing
  | all
  | value (expr : Expr)
deriving DecidableEq, Repr

/-- The label of a case. -/
inductive CaseLabel where
  | count (n : Int)
  | value (text : String)
  | default
deriving DecidableEq, Repr

/-- What makes placeholders of one message the same.  Prints and tags share a
    key with others that read the same; a call has a key of its own, a number
    that no other call of the message has.  In a placed tree it is the identity
    that the call was first placed under. -/
inductive PlaceholderKey where
  | shared (text : String)
  | own (call : Nat)
deriving DecidableEq, Repr

def PlaceholderKey.text : PlaceholderKey → String
  | shared text => text
  | own call => "node:#" ++ toString call

/-- What a node stands for. -/
inductive Content where
  | rawText (text : String)
  | print (expr : Expr) (directives : List PrintDirective) (implicit : Bool)
  | xid (text : String)
  | conditional
  | branch (condition : Option Expr)
  | call (target : CallTarget) (data : CallData)
  | valueParam (key : String) (value : Expr)
  | contentParam (key : String) (kind : Option ContentKind)
  | msgGroup
  | msg (desc meaning : Option String) (hidden : Bool)
  | msgText (text : String)
  | placeholder (name : String) (key : PlaceholderKey)
  | htmlTag (name : String) (isEnd selfEnding : Bool)
  | plural (expr : Expr) (offset : Int) (choiceName : String)
  | select (expr : Expr) (choiceName : String)
  | case (label : CaseLabel)
deriving DecidableEq, Repr

namespace Content

/-- The contents that stand in a block on their own. -/
def isStatement : Content → Bool
  | rawText _ | print _ _ _ | xid _ | conditional | call _ _ | msgGroup | htmlTag _ _ _ => true
  | _ => false

def isCall : Content → Bool
  | call _ _ => true
  | _ => false

def isMsgGroup : Content → Bool
  | msgGroup => true
  | _ => false

/-- A plural or a select. -/
def isChoice : Content → Bool
  | plural _ _ _ | select _ _ => true
  | _ => false

/-- The key of a parameter of a call. -/
def paramKey? : Content → Option String
  | valueParam key _ => some key
  | contentParam key _ => some key
  | _ => none

/-- The content with `f` applied to each of its expressions. -/
def mapExpr (f : Expr → Expr) : Content → Content
  | print expr directives implicit => print (f expr) directives implicit
  | branch condition => branch (condition.map f)
  | call target (.value expr) => call target (.value (f expr))
  | valueParam key value => valueParam key (f value)
  | plural expr offset name => plural (f expr) offset name
  | select expr name => select (f expr) name
  | content => content

end Content

end Stencil
