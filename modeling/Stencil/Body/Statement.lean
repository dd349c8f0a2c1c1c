/-
  Stencil/Body/Statement.lean
  ===========================
  **What single tags of a template body say.**

  Each function here reads the text of one tag, white space and attributes
  included, and gives what the tag stands for or why it stands for nothing.
  How tags nest is the business of the body reader.
-/
import Stencil.Body.Attribute
import Stencil.Body.Scope
import Stencil.Body.Token
import Stencil.Message.Assembly
import Stencil.ParseError

namespace Stencil.Body

open Text (trim allBlank cut? isIdentifier isDottedName isDashedName)

/-! ### Complaints -/

inductive Cause where
  | commandText (cause : CommandTextCause)
  | attrValue (cause : AttrCause)
  | unexpectedEnd (name : String)
  | unexpectedTag (name : String)
  | missingEnd (name : String)
  | lateParam
  | emptyPrint
  | invalidXid (text : String)
  | missingCondition (command : String)
  | invalidDelegate (name : String)
  | invalidCallee (name : String)
  | onlyParams (command : String)
  | duplicateParam (key command : String)
  | openValueParam (key : String)
  | missingValue (key : String)
  | invalidParamKey (key : String)
  | closedContentParam (key : String)
  | msgHead (head : String)
  | msgWithoutDesc
  | notInMessage (command : String)
  | choiceNotAlone
  | secondFallback
  | missingExpression (command : String)
  | invalidOffset (value : String)
  | invalidLabel (text command : String)
  | missingDefault (command : String)
  | expectedCase (command : String)
  | assembly (cause : Message.AssemblyCause)
deriving DecidableEq, Repr

namespace Cause

/-- A name in braces. -/
def tag (name : String) : String := "\x7b" ++ name ++ "\x7d"

def message : Cause → String
  | commandText cause => cause.message
  | attrValue cause => cause.message
  | unexpectedEnd name => "Unexpected " ++ tag ("/" ++ name)
  | unexpectedTag name => "Unexpected " ++ tag name ++ " tag"
  | missingEnd name => "Missing " ++ tag ("/" ++ name)
  | lateParam => "Param declarations must come before the template body"
  | emptyPrint => "Empty print expression"
  | invalidXid text => "Invalid xid '" ++ text ++ "'"
  | missingCondition command => "Missing condition in " ++ tag command
  | invalidDelegate name => "Invalid delegate name '" ++ name ++ "'"
  | invalidCallee name => "Invalid callee name '" ++ name ++ "'"
  | onlyParams command => "Only " ++ tag "param" ++ " tags may appear inside " ++ tag command
  | duplicateParam key command => "Duplicate param '" ++ key ++ "' in " ++ tag command
  | openValueParam key => "Value param '" ++ key ++ "' must be self-closing"
  | missingValue key => "Missing value for param '" ++ key ++ "'"
  | invalidParamKey key => "Invalid param key '" ++ key ++ "'"
  | closedContentParam key => "Content param '" ++ key ++ "' must have a body"
  | msgHead head => "Unexpected '" ++ head ++ "' in " ++ tag "msg"
  | msgWithoutDesc => "Tag " ++ tag "msg" ++ " must have a 'desc' attribute"
  | notInMessage command => "Command " ++ tag command ++ " is not allowed inside a message"
  | choiceNotAlone =>
    "A " ++ tag "plural" ++ " or " ++ tag "select" ++ " must be the only content of its message"
  | secondFallback => "A " ++ tag "msg" ++ " may have at most one " ++ tag "fallbackmsg"
  | missingExpression command => "Missing expression in " ++ tag command
  | invalidOffset value => "Invalid plural offset '" ++ value ++ "'"
  | invalidLabel text command => "Invalid case label '" ++ text ++ "' in " ++ tag command
  | missingDefault command => tag command ++ " requires a " ++ tag "default" ++ " case"
  | expectedCase command =>
    "Expected " ++ tag "case" ++ ", " ++ tag "default" ++ " or " ++ tag ("/" ++ command) ++
      " in " ++ tag command
  | assembly cause => cause.message

/-- A declaration in the wrong place is an error of declaration, all else one of
    structure. -/
def errorClass : Cause → ErrorClass
  | lateParam => .declaration
  | _ => .structural

end Cause

/-- The command text of a command that allows some attributes. -/
def commandText (command : String) (allowed : List String) (text : List Char) :
    Except Cause CommandText :=
  (CommandText.readFor command allowed text).mapError .commandText

/-! ### Prints -/

/-- The pieces of a text between bars that stand outside of quotes, parentheses
    and square brackets; `quote` is the quote that is open and `depth` the
    number of open brackets. -/
def splitBars (quote : Option Char) (depth : Nat) : List Char → List (List Char)
  | [] => [[]]
  | c :: cs =>
    let extend := fun
      | [] => [[c]]
      | piece :: pieces => (c :: piece) :: pieces
    match quote with
    | some q => extend (splitBars (if c = q then none else quote) depth cs)
    | none =>
      if c = '\'' || c = '"' then extend (splitBars (some c) depth cs)
      else if c = '(' || c = '[' then extend (splitBars none (depth + 1) cs)
      else if c = ')' || c = ']' then extend (splitBars none (depth - 1) cs)
      else if c = '|' && depth = 0 then [] :: splitBars none depth cs
      else extend (splitBars none depth cs)

/-- A print directive: its name, and its arguments after a colon. -/
def directive (text : List Char) : PrintDirective :=
  match cut? (· == ':') (trim text) with
  | some (name, args) => ⟨String.ofList (trim name), some (String.ofList (trim args))⟩
  | none => ⟨String.ofList (trim text), none⟩

/-- A print: an expression and directives after bars. -/
def print (implicit : Bool) (text : List Char) : Except Cause Content :=
  match splitBars none 0 text with
  | [] => .error .emptyPrint
  | expr :: directives =>
    if allBlank expr then .error .emptyPrint
    else .ok (.print (Expr.ofText expr) (directives.map directive) implicit)

def xid (text : List Char) : Except Cause Content :=
  if isDashedName (trim text) then .ok (.xid (String.ofList (trim text)))
  else .error (.invalidXid (String.ofList (trim text)))

def condition (command : String) (text : List Char) : Except Cause Expr :=
  if allBlank text then .error (.missingCondition command) else .ok (Expr.ofText text)

/-! ### Calls -/

/-- The data that a call passes by its attribute. -/
def callData (cmd : CommandText) : CallData :=
  match cmd.attr? "data" with
  | none => .nothing
  | some "all" => .all
  | some text => .value (Expr.ofText text.toList)

/-- A call of a template, with an alias or the namespace resolved. -/
def basicCall (scope : Scope) (text : List Char) : Except Cause Content := do
  let cmd ← commandText "call" ["data"] text
  match scope.callee? cmd.head with
  | some name => pure (.call (.basic name cmd.headText) (callData cmd))
  | none => throw (.invalidCallee cmd.headText)

def delegateCall (text : List Char) : Except Cause Content := do
  let cmd ← commandText "delcall" ["data", "variant"] text
  unless isDottedName cmd.head do throw (.invalidDelegate cmd.headText)
  let variant ← cmd.variant.mapError .attrValue
  pure (.call (.delegate cmd.headText variant) (callData cmd))

/-- A parameter of a call: a value, or content that follows. -/
inductive CallParam where
  | value (key : String) (expr : Expr)
  | content (key : String) (kind : Option ContentKind)
deriving DecidableEq, Repr

/-- The key and value of a value parameter: an identifier and what follows a
    colon. -/
def keyAndValue? (text : List Char) : Option (List Char × List Char) :=
  match cut? (· == ':') text with
  | some (key, value) => if isIdentifier (trim key) then some (trim key, value) else none
  | none => none

/-- A parameter of a call.  A value parameter has no body, a content parameter
    must have one. -/
def callParam (text : List Char) (selfClosing : Bool) : Except Cause CallParam :=
  match keyAndValue? text with
  | some (key, value) =>
    if !selfClosing then .error (.openValueParam (String.ofList key))
    else if allBlank value then .error (.missingValue (String.ofList key))
    else .ok (.value (String.ofList key) (Expr.ofText value))
  | none => do
    let cmd ← commandText "param" ["kind"] text
    if !isIdentifier cmd.head then throw (.invalidParamKey cmd.headText)
    if selfClosing then throw (.closedContentParam cmd.headText)
    pure (.content cmd.headText (← cmd.kind.mapError .attrValue))

/-! ### Messages -/

/-- A message: it has a description for translators, and perhaps a meaning that
    tells it apart from messages of the same text. -/
def msg (text : List Char) : Except Cause Content := do
  let cmd ← commandText "msg" ["desc", "meaning", "hidden"] text
  unless cmd.head.isEmpty do throw (.msgHead cmd.headText)
  match cmd.attr? "desc" with
  | none => throw .msgWithoutDesc
  | some desc => pure (.msg (some desc) (cmd.attr? "meaning") (cmd.attr? "hidden" == some "true"))

/-- The offset of a plural by its attribute: a number that is not negative. -/
def offsetAttr (cmd : CommandText) : Except Cause Int :=
  match cmd.attr? "offset" with
  | none => .ok 0
  | some value =>
    match (Text.readInt64? 10 (trim value.toList)).filter (0 ≤ ·) with
    | some offset => .ok offset
    | none => .error (.invalidOffset value)

/-- A plural over the value of an expression. -/
def plural (text : List Char) : Except Cause Content := do
  let cmd ← commandText "plural" ["offset"] text
  if cmd.head.isEmpty then throw (.missingExpression "plural")
  let offset ← offsetAttr cmd
  let expr := Expr.ofText cmd.head
  pure (.plural expr offset (Message.exprName "NUM" expr))

/-- A select over the value of an expression. -/
def select (text : List Char) : Except Cause Content :=
  if allBlank text then .error (.missingExpression "select")
  else
    let expr := Expr.ofText text
    .ok (.select expr (Message.exprName "STATUS" expr))

/-- The label of a case: a number in a plural, a string literal in a select. -/
def caseLabel? (choice : Keyword) (text : List Char) : Option CaseLabel :=
  match choice with
  | .plural => (Text.readInt64? 10 (trim text)).map .count
  | _ => (Expr.ofText text).string?.map .value

end Stencil.Body
