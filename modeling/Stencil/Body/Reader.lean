/-
  Stencil/Body/Reader.lean
  ========================
  **From the tokens of a template body to its drafts.**

  The reader is a machine that is fed one token at a time.  It keeps what is
  open: its focus is the innermost open construct, and around it stand the
  open constructs that hold statements.  A tag adds a statement to what is
  open, opens a construct, or closes the focus; a closed construct becomes a
  statement of what is open around it.

  Nodes that are not complete keep what they hold backwards.
-/
import Stencil.Body.Scanner
import Stencil.Body.Statement

namespace Stencil.Body

/-! ### What can be open -/

/-- An open conditional: the branches before, and the branch that is read.  A
    branch without a condition is the last. -/
structure OpenIf where
  line : Nat
  branches : List Draft := []
  branchLine : Nat
  condition : Option Expr
  body : List Draft := []

/-- An open call and its parameters so far. -/
structure OpenCall where
  line : Nat
  command : String
  content : Content
  params : List Draft := []

/-- An open content parameter of a call. -/
structure OpenParam where
  line : Nat
  key : String
  kind : Option ContentKind
  body : List Draft := []

/-- An open message group: the messages before, and the message that is read
    with its items and its plurals and selects so far. -/
structure OpenMsg where
  groupLine : Nat
  messages : List Draft := []
  line : Nat
  content : Content
  items : List Message.Item := []
  choices : List Draft := []

/-- An open plural or select, the cases so far, whether the default case is one
    of them, and the number of calls in them. -/
structure OpenChoice where
  line : Nat
  command : Keyword
  content : Content
  cases : List Draft := []
  hasDefault : Bool := false
  calls : Nat := 0

/-- An open case and its items so far. -/
structure OpenCase where
  line : Nat
  label : CaseLabel
  items : List Message.Item := []

/-- An open construct that holds statements, inside the open constructs it is a
    part of. -/
inductive Frame where
  | branch (conditional : OpenIf)
  | param (call : OpenCall) (param : OpenParam)
  | message (msg : OpenMsg)
  | case (msg : OpenMsg) (choice : OpenChoice) (case : OpenCase)

/-- The innermost open construct: none at all, a frame, or a construct that
    holds parts but no statements. -/
inductive Focus where
  | root
  | frame (frame : Frame)
  | call (call : OpenCall)
  | choice (msg : OpenMsg) (choice : OpenChoice)

/-- The state of the reader: the statements of the body itself (backwards), the
    frames around the focus from the inside out, and the focus. -/
structure Reader where
  root : List Draft := []
  outer : List Frame := []
  focus : Focus := .root

/-- Reading ends with a complaint at a line, or well. -/
abbrev Outcome := Except (Fault Cause)

/-- The outcome of a tag at a line. -/
def atLine {α : Type} (line : Nat) (result : Except Cause α) : Outcome α :=
  result.mapError fun cause => ⟨cause, line⟩

/-! ### Closing constructs -/

namespace OpenIf

/-- The branches up to the one that is read. -/
def closeBranch (o : OpenIf) : List Draft :=
  .node o.branchLine (.branch o.condition) o.body.reverse :: o.branches

/-- The conditional that all branches make. -/
def close (o : OpenIf) : Draft := .node o.line .conditional o.closeBranch.reverse

def nextBranch (o : OpenIf) (line : Nat) (condition : Option Expr) : OpenIf :=
  { line := o.line, branches := o.closeBranch, branchLine := line, condition }

end OpenIf

namespace OpenCall

/-- The call that the parameters make. -/
def close (o : OpenCall) : Draft := .node o.line o.content o.params.reverse

/-- The call with a parameter added, whose key must be new. -/
def addParam (o : OpenCall) (key : String) (param : Draft) : Outcome OpenCall :=
  if o.params.any (·.content.paramKey? == some key) then
    .error ⟨.duplicateParam key o.command, param.mark⟩
  else .ok { o with params := param :: o.params }

/-- The call with an open content parameter added. -/
def addOpenParam (o : OpenCall) (p : OpenParam) : Outcome OpenCall :=
  o.addParam p.key (.node p.line (.contentParam p.key p.kind) p.body.reverse)

end OpenCall

/-- The parts that items make, with the number of calls up to their end. -/
def assembled (calls : Nat) (items : List Message.Item) : Outcome (List Draft × Nat) :=
  (Message.assemble calls items.reverse).mapError (Fault.map .assembly)

namespace OpenChoice

/-- The plural or select with an open case added. -/
def addCase (o : OpenChoice) (case : OpenCase) : Outcome OpenChoice := do
  let (parts, calls) ← assembled o.calls case.items
  pure { o with cases := .node case.line (.case case.label) parts :: o.cases, calls }

/-- The plural or select that the cases make; one of them must be the default
    case. -/
def close (o : OpenChoice) : Outcome Draft :=
  if o.hasDefault then .ok (.node o.line o.content o.cases.reverse)
  else .error ⟨.missingDefault o.command.name, o.line⟩

end OpenChoice

namespace OpenMsg

/-- The body of the message: its parts, or its one plural or select. -/
def body (o : OpenMsg) : Outcome (List Draft) :=
  match o.choices with
  | [] => do
    let (parts, _) ← assembled 0 o.items
    pure parts
  | [choice] =>
    if o.items.all (·.isBlank) then .ok [choice] else .error ⟨.choiceNotAlone, o.line⟩
  | _ => .error ⟨.choiceNotAlone, o.line⟩

/-- The messages up to the one that is read; its placeholders get their names. -/
def closeMessage (o : OpenMsg) : Outcome (List Draft) := do
  pure (.node o.line o.content (Message.nameAll (← o.body)) :: o.messages)

/-- The group that the messages make. -/
def close (o : OpenMsg) : Outcome Draft := do
  pure (.node o.groupLine .msgGroup (← o.closeMessage).reverse)

end OpenMsg

/-! ### Statements in frames -/

namespace Frame

def addStatement : Frame → Draft → Frame
  | branch o, d => branch { o with body := d :: o.body }
  | param call o, d => param call { o with body := d :: o.body }
  | message o, d => message { o with items := .statement d :: o.items }
  | case msg choice o, d => case msg choice { o with items := .statement d :: o.items }

/-- The frame with text added: in a message it is an item, elsewhere a
    statement unless it is empty. -/
def addText (frame : Frame) (chars : List Char) (line : Nat) : Frame :=
  match frame with
  | message o => message { o with items := .text chars line :: o.items }
  | case msg choice o => case msg choice { o with items := .text chars line :: o.items }
  | frame =>
    if chars.isEmpty then frame
    else frame.addStatement (.leaf line (.rawText (String.ofList chars)))

end Frame

namespace Reader

/-- The reader with a complete statement added where the focus is. -/
def addStatement (r : Reader) (d : Draft) : Reader :=
  match r.focus with
  | .frame frame => { r with focus := .frame (frame.addStatement d) }
  | _ => { r with root := d :: r.root }

/-- The reader with another focus inside the present one. -/
def enter (r : Reader) (focus : Focus) : Reader :=
  match r.focus with
  | .frame frame => { r with outer := frame :: r.outer, focus }
  | _ => { r with focus }

/-- The reader after the focus became a statement of what is around it. -/
def leave (r : Reader) (d : Draft) : Reader :=
  match r.outer with
  | [] => { r with root := d :: r.root, focus := .root }
  | frame :: outer => { r with outer, focus := .frame (frame.addStatement d) }

/-! ### Opening statements -/

/-- A call is complete with a closing slash and open without. -/
def openCall (r : Reader) (command : String) (line : Nat) (selfClosing : Bool)
    (content : Content) : Reader :=
  if selfClosing then r.addStatement (.leaf line content)
  else r.enter (.call { line, command, content })

/-- Take a command that starts a statement. -/
def stepStatement (scope : Scope) (r : Reader) (keyword : Keyword) (text : List Char)
    (selfClosing : Bool) (line : Nat) : Except Cause Reader :=
  match keyword with
  | .expression => do pure (r.addStatement (.leaf line (← print true text)))
  | .print => do pure (r.addStatement (.leaf line (← print false text)))
  | .xid => do pure (r.addStatement (.leaf line (← xid text)))
  | .ifTag => do
    let condition ← condition "if" text
    pure (r.enter (.frame (.branch { line, branchLine := line, condition := some condition })))
  | .call => do pure (r.openCall "call" line selfClosing (← basicCall scope text))
  | .delcall => do pure (r.openCall "delcall" line selfClosing (← delegateCall text))
  | .msg => do
    pure (r.enter (.frame (.message { groupLine := line, line, content := ← msg text })))
  | .headerParam => throw .lateParam
  | .optionalHeaderParam => throw .lateParam
  | other => throw (.unexpectedTag other.name)

/-- Take a command inside a message: a print or a call. -/
def stepItem (scope : Scope) (r : Reader) (keyword : Keyword) (text : List Char)
    (selfClosing : Bool) (line : Nat) : Except Cause Reader :=
  match keyword with
  | .expression | .print | .call | .delcall =>
    r.stepStatement scope keyword text selfClosing line
  | other => throw (.notInMessage other.name)

/-! ### Tokens between parts -/

/-- Take a token between the parameters of a call. -/
def stepCall (r : Reader) (o : OpenCall) (t : Placed) : Outcome Reader :=
  match t.token with
  | .doc _ => .ok r
  | .command .param text selfClosing => do
    match ← atLine t.line (callParam text selfClosing) with
    | .value key expr =>
      let o ← o.addParam key (.leaf t.line (.valueParam key expr))
      pure { r with focus := .call o }
    | .content key kind =>
      pure { r with focus := .frame (.param o { line := t.line, key, kind }) }
  | .endTag name =>
    if name = o.command then .ok (r.leave o.close)
    else .error ⟨.onlyParams o.command, t.line⟩
  | token =>
    if token.isBlankText then .ok r else .error ⟨.onlyParams o.command, t.line⟩

/-- Take a token between the cases of a plural or select.  No case follows the
    default case. -/
def stepChoice (r : Reader) (msg : OpenMsg) (o : OpenChoice) (t : Placed) : Outcome Reader :=
  let unexpected : Outcome Reader := .error ⟨.expectedCase o.command.name, t.line⟩
  match t.token with
  | .doc _ => .ok r
  | .command .case text _ =>
    if o.hasDefault then unexpected
    else match caseLabel? o.command text with
      | some label => .ok { r with focus := .frame (.case msg o { line := t.line, label }) }
      | none => .error ⟨.invalidLabel (String.ofList text) o.command.name, t.line⟩
  | .command .default _ _ =>
    if o.hasDefault then unexpected
    else
      let o := { o with hasDefault := true }
      .ok { r with focus := .frame (.case msg o { line := t.line, label := .default }) }
  | .endTag name =>
    if name = o.command.name then do
      let choice ← o.close
      pure { r with focus := .frame (.message { msg with choices := choice :: msg.choices }) }
    else unexpected
  | token => if token.isBlankText then .ok r else unexpected

/-! ### Tokens in frames -/

def stepCommand (scope : Scope) (r : Reader) (frame : Frame) (t : Placed) (keyword : Keyword)
    (text : List Char) (selfClosing : Bool) : Outcome Reader :=
  let statement := atLine t.line (r.stepStatement scope keyword text selfClosing t.line)
  let item := atLine t.line (r.stepItem scope keyword text selfClosing t.line)
  match frame with
  | .branch o =>
    match keyword, o.condition with
    | .elseifTag, some _ => do
      let condition ← atLine t.line (condition "elseif" text)
      pure { r with focus := .frame (.branch (o.nextBranch t.line (some condition))) }
    | .elseTag, some _ =>
      .ok { r with focus := .frame (.branch (o.nextBranch t.line none)) }
    | _, _ => statement
  | .param _ _ => statement
  | .message o =>
    match keyword with
    | .fallbackmsg => do
      let messages ← o.closeMessage
      if o.messages.isEmpty then
        let content ← atLine t.line (msg text)
        pure { r with
               focus := .frame (.message
                 { groupLine := o.groupLine, messages, line := t.line, content }) }
      else throw ⟨.secondFallback, t.line⟩
    | .plural => do
      let content ← atLine t.line (plural text)
      pure { r with focus := .choice o { line := t.line, command := .plural, content } }
    | .select => do
      let content ← atLine t.line (select text)
      pure { r with focus := .choice o { line := t.line, command := .select, content } }
    | _ => item
  | .case msg choice o =>
    match keyword with
    | .case | .default => do r.stepChoice msg (← choice.addCase o) t
    | _ => item

/-- Take an end tag in a frame; it must be that of the frame's construct. -/
def stepEnd (r : Reader) (frame : Frame) (t : Placed) (name : String) : Outcome Reader :=
  let unexpected : Outcome Reader := .error ⟨.unexpectedEnd name, t.line⟩
  match frame with
  | .branch o => if name = "if" then .ok (r.leave o.close) else unexpected
  | .param call o =>
    if name = "param" then do pure { r with focus := .call (← call.addOpenParam o) }
    else unexpected
  | .message o => if name = "msg" then do pure (r.leave (← o.close)) else unexpected
  | .case msg choice o =>
    if name = choice.command.name then do r.stepChoice msg (← choice.addCase o) t
    else unexpected

def step (scope : Scope) (r : Reader) (t : Placed) : Outcome Reader :=
  match r.focus with
  | .call o => r.stepCall o t
  | .choice msg o => r.stepChoice msg o t
  | .root =>
    match t.token with
    | .doc _ => .ok r
    | .text chars | .literal chars =>
      if chars.isEmpty then .ok r
      else .ok (r.addStatement (.leaf t.line (.rawText (String.ofList chars))))
    | .endTag name => .error ⟨.unexpectedEnd name, t.line⟩
    | .command keyword text selfClosing =>
      atLine t.line (r.stepStatement scope keyword text selfClosing t.line)
  | .frame frame =>
    match t.token with
    | .doc _ => .ok r
    | .text chars | .literal chars =>
      .ok { r with focus := .frame (frame.addText chars t.line) }
    | .endTag name => r.stepEnd frame t name
    | .command keyword text selfClosing => r.stepCommand scope frame t keyword text selfClosing

/-- The statements of the body once all tokens are taken; nothing may be open at
    the end, which is at `endLine`. -/
def finish (r : Reader) (endLine : Nat) : Outcome (List Draft) :=
  match r.focus with
  | .root => .ok r.root.reverse
  | .call o => .error ⟨.missingEnd o.command, o.line⟩
  | .choice _ o => .error ⟨.missingEnd o.command.name, o.line⟩
  | .frame (.branch o) => .error ⟨.missingEnd "if", o.line⟩
  | .frame (.param _ o) => .error ⟨.missingEnd "param", o.line⟩
  | .frame (.message _) => .error ⟨.missingEnd "msg", endLine⟩
  | .frame (.case _ choice _) => .error ⟨.missingEnd choice.command.name, endLine⟩

end Reader

/-- The statements that the tokens of a body make. -/
def read (scope : Scope) (tokens : List Placed) (endLine : Nat) : Outcome (List Draft) := do
  (← tokens.foldlM (Reader.step scope) {}).finish endLine

end Stencil.Body
