/-
  Stencil/Build/Body.lean
  =======================
  **From the tokens of a template body to its nodes.**

  This reader takes the same steps as `Body.Reader`, and what is open is a node
  under construction: it took the next free identity when its tag was met, and what
  is read in it is pushed to it.  Statements of a block are pushed when the block
  ends, the parts of a message when they are assembled.
-/
import Stencil.Body.Reader
import Stencil.Build.Message

namespace Stencil.Build

open Body (Cause Keyword Outcome Placed atLine)

/-! ### What can be open -/

/-- An open conditional with the branches before, the branch that is read, and
    the statements in it so far (backwards). -/
structure OpenIf where
  line : Nat
  node : Node
  branch : Node
  body : List Node := []

/-- An open call with its parameters so far. -/
structure OpenCall where
  line : Nat
  command : String
  node : Node

/-- An open content parameter of a call and the statements in it so far
    (backwards). -/
structure OpenParam where
  line : Nat
  key : String
  node : Node
  body : List Node := []

/-- An open message group with the messages before, and the message that is read
    with its items and its plurals and selects so far (backwards). -/
structure OpenMsg where
  groupLine : Nat
  group : Node
  line : Nat
  msg : Node
  items : List Item := []
  choices : List Node := []

/-- An open plural or select with its cases so far; the default case may be one of
    them. -/
structure OpenChoice where
  line : Nat
  command : Keyword
  node : Node
  hasDefault : Bool := false

/-- An open case and its items so far (backwards). -/
structure OpenCase where
  node : Node
  items : List Item := []

/-- An open construct that holds statements, inside the open constructs it is a
    part of. -/
inductive Frame where
  | branch (conditional : OpenIf)
  | param (call : OpenCall) (param : OpenParam)
  | message (msg : OpenMsg)
  | case (msg : OpenMsg) (choice : OpenChoice) (case : OpenCase)

/-- The innermost open construct: none at all, a frame, or a construct that
    holds parts but no statements. -/
inductive Focus where
  | root
  | frame (frame : Frame)
  | call (call : OpenCall)
  | choice (msg : OpenMsg) (choice : OpenChoice)

/-- The state of the reader: the statements of the body itself (backwards), the
    frames around the focus from the inside out, the focus, and the next free
    identity. -/
structure Reader where
  root : List Node := []
  outer : List Frame := []
  focus : Focus := .root
  next : NodeId

variable (loc : Nat → Location)

/-! ### Closing constructs -/

/-- The conditional with the branch that is read. -/
def OpenIf.close (o : OpenIf) : Node := o.node.push (o.branch.pushAll o.body.reverse)

/-- The conditional with a new branch open. -/
def OpenIf.nextBranch (o : OpenIf) (next : NodeId) (line : Nat) (condition : Option Expr) :
    OpenIf :=
  { line := o.line, node := o.close, branch := .new next (loc line) (.branch condition) }

namespace OpenCall

/-- The call with a parameter added, whose key must be new. -/
def addParam (o : OpenCall) (key : String) (param : Node) (line : Nat) : Outcome OpenCall :=
  if o.node.children.any (·.content.paramKey? == some key) then
    .error ⟨.duplicateParam key o.command, line⟩
  else .ok { o with node := o.node.push param }

/-- The call with an open content parameter added. -/
def addOpenParam (o : OpenCall) (p : OpenParam) : Outcome OpenCall :=
  o.addParam p.key (p.node.pushAll p.body.reverse) p.line

end OpenCall

/-- The parts that items make, and the next free identity. -/
def assembled (next : NodeId) (items : List Item) : Outcome (List Node × NodeId) :=
  (assemble loc next items.reverse).mapError (Fault.map .assembly)

namespace OpenChoice

/-- The plural or select with an open case added, and the next free identity. -/
def addCase (next : NodeId) (o : OpenChoice) (case : OpenCase) : Outcome (OpenChoice × NodeId) := do
  let (parts, next) ← assembled loc next case.items
  pure ({ o with node := o.node.push (case.node.pushAll parts) }, next)

/-- The plural or select that the cases make; one of them must be the default
    case. -/
def close (o : OpenChoice) : Outcome Node :=
  if o.hasDefault then .ok o.node else .error ⟨.missingDefault o.command.name, o.line⟩

end OpenChoice

namespace OpenMsg

/-- The body of the message, its parts or its one plural or select, and the next
    free identity. -/
def body (next : NodeId) (o : OpenMsg) : Outcome (List Node × NodeId) :=
  match o.choices with
  | [] => assembled loc next o.items
  | [choice] =>
    if o.items.all (·.isBlank) then .ok ([choice], next) else .error ⟨.choiceNotAlone, o.line⟩
  | _ => .error ⟨.choiceNotAlone, o.line⟩

/-- The group with the message that is read, whose placeholders get their names, and
    the next free identity. -/
def close (next : NodeId) (o : OpenMsg) : Outcome (Node × NodeId) := do
  let (body, next) ← o.body loc next
  let msg := o.msg.pushAll body
  pure (o.group.push (msg.withChildren (Message.nameAll msg.children)), next)

end OpenMsg

/-! ### Statements in frames -/

namespace Frame

/-- The frame with a statement that starts at a line. -/
def addStatement (frame : Frame) (node : Node) (line : Nat) : Frame :=
  match frame with
  | branch o => branch { o with body := node :: o.body }
  | param call o => param call { o with body := node :: o.body }
  | message o => message { o with items := .statement node line :: o.items }
  | case msg choice o => case msg choice { o with items := .statement node line :: o.items }

/-- The frame with text added, and the next free identity: in a message text is an
    item, elsewhere a statement unless it is empty. -/
def addText (next : NodeId) (frame : Frame) (chars : List Char) (line : Nat) : Frame × NodeId :=
  match frame with
  | message o => (message { o with items := .text chars line :: o.items }, next)
  | case msg choice o =>
    (case msg choice { o with items := .text chars line :: o.items }, next)
  | frame =>
    if chars.isEmpty then (frame, next)
    else
      let text := Tree.new next (loc line) (.rawText (String.ofList chars))
      (frame.addStatement text line, next + 1)

end Frame

namespace Reader

/-- The reader with a complete statement added where the focus is. -/
def addStatement (r : Reader) (node : Node) (line : Nat) : Reader :=
  match r.focus with
  | .frame frame => { r with focus := .frame (frame.addStatement node line) }
  | _ => { r with root := node :: r.root }

/-- The reader with a statement without children, which takes the next free identity. -/
def addLeaf (r : Reader) (line : Nat) (content : Content) : Reader :=
  { r with next := r.next + 1 }.addStatement (.new r.next (loc line) content) line

/-- The reader with another focus inside the present one. -/
def enter (r : Reader) (focus : Focus) : Reader :=
  match r.focus with
  | .frame frame => { r with outer := frame :: r.outer, focus }
  | _ => { r with focus }

/-- The reader after the focus became a statement of what is around it. -/
def leave (r : Reader) (node : Node) (line : Nat) : Reader :=
  match r.outer with
  | [] => { r with root := node :: r.root, focus := .root }
  | frame :: outer => { r with outer, focus := .frame (frame.addStatement node line) }

/-! ### Opening statements -/

/-- A call is complete with a closing slash and open without. -/
def openCall (r : Reader) (command : String) (line : Nat) (selfClosing : Bool)
    (content : Content) : Reader :=
  if selfClosing then r.addLeaf loc line content
  else
    { r with next := r.next + 1 }.enter
      (.call { line, command, node := .new r.next (loc line) content })

/-- Take a command that starts a statement. -/
def stepStatement (scope : Scope) (r : Reader) (keyword : Keyword) (text : List Char)
    (selfClosing : Bool) (line : Nat) : Except Cause Reader :=
  match keyword with
  | .expression => do pure (r.addLeaf loc line (← Body.print true text))
  | .print => do pure (r.addLeaf loc line (← Body.print false text))
  | .xid => do pure (r.addLeaf loc line (← Body.xid text))
  | .ifTag => do
    let condition ← Body.condition "if" text
    let node := Tree.new r.next (loc line) .conditional
    let branch := Tree.new (r.next + 1) (loc line) (.branch (some condition))
    pure ({ r with next := r.next + 2 }.enter (.frame (.branch { line, node, branch })))
  | .call => do pure (r.openCall loc "call" line selfClosing (← Body.basicCall scope text))
  | .delcall => do pure (r.openCall loc "delcall" line selfClosing (← Body.delegateCall text))
  | .msg => do
    let content ← Body.msg text
    let group := Tree.new r.next (loc line) .msgGroup
    let msg := Tree.new (r.next + 1) (loc line) content
    pure ({ r with next := r.next + 2 }.enter
      (.frame (.message { groupLine := line, group, line, msg })))
  | .headerParam => throw .lateParam
  | .optionalHeaderParam => throw .lateParam
  | other => throw (.unexpectedTag other.name)

/-- Take a command inside a message: a print or a call. -/
def stepItem (scope : Scope) (r : Reader) (keyword : Keyword) (text : List Char)
    (selfClosing : Bool) (line : Nat) : Except Cause Reader :=
  match keyword with
  | .expression | .print | .call | .delcall =>
    r.stepStatement loc scope keyword text selfClosing line
  | other => throw (.notInMessage other.name)

/-! ### Tokens between parts -/

/-- Take a token between the parameters of a call. -/
def stepCall (r : Reader) (o : OpenCall) (t : Placed) : Outcome Reader :=
  match t.token with
  | .doc _ => .ok r
  | .command .param text selfClosing => do
    match ← atLine t.line (Body.callParam text selfClosing) with
    | .value key expr =>
      let o ← o.addParam key (.new r.next (loc t.line) (.valueParam key expr)) t.line
      pure { r with focus := .call o, next := r.next + 1 }
    | .content key kind =>
      let node := Tree.new r.next (loc t.line) (.contentParam key kind)
      pure { r with
             focus := .frame (.param o { line := t.line, key, node })
             next := r.next + 1 }
  | .endTag name =>
    if name = o.command then .ok (r.leave o.node o.line)
    else .error ⟨.onlyParams o.command, t.line⟩
  | token =>
    if token.isBlankText then .ok r else .error ⟨.onlyParams o.command, t.line⟩

/-- The reader in a new case with a label. -/
def openCase (r : Reader) (msg : OpenMsg) (o : OpenChoice) (line : Nat) (label : CaseLabel) :
    Reader :=
  let node := Tree.new r.next (loc line) (.case label)
  { r with focus := .frame (.case msg o { node }), next := r.next + 1 }

/-- Take a token between the cases of a plural or select.  No case follows the
    default case. -/
def stepChoice (r : Reader) (msg : OpenMsg) (o : OpenChoice) (t : Placed) : Outcome Reader :=
  let unexpected : Outcome Reader := .error ⟨.expectedCase o.command.name, t.line⟩
  match t.token with
  | .doc _ => .ok r
  | .command .case text _ =>
    if o.hasDefault then unexpected
    else match Body.caseLabel? o.command text with
      | some label => .ok (r.openCase loc msg o t.line label)
      | none => .error ⟨.invalidLabel (String.ofList text) o.command.name, t.line⟩
  | .command .default _ _ =>
    if o.hasDefault then unexpected
    else .ok (r.openCase loc msg { o with hasDefault := true } t.line .default)
  | .endTag name =>
    if name = o.command.name then do
      let choice ← o.close
      pure { r with focus := .frame (.message { msg with choices := choice :: msg.choices }) }
    else unexpected
  | token => if token.isBlankText then .ok r else unexpected

/-! ### Tokens in frames -/

/-- Close the open case and take the token that ends it. -/
def closeCase (r : Reader) (msg : OpenMsg) (choice : OpenChoice) (o : OpenCase) (t : Placed) :
    Outcome Reader := do
  let (choice, next) ← choice.addCase loc r.next o
  { r with next }.stepChoice loc msg choice t

def stepCommand (scope : Scope) (r : Reader) (frame : Frame) (t : Placed) (keyword : Keyword)
    (text : List Char) (selfClosing : Bool) : Outcome Reader :=
  let statement := atLine t.line (r.stepStatement loc scope keyword text selfClosing t.line)
  let item := atLine t.line (r.stepItem loc scope keyword text selfClosing t.line)
  match frame with
  | .branch o =>
    match keyword, o.branch.content with
    | .elseifTag, .branch (some _) => do
      let condition ← atLine t.line (Body.condition "elseif" text)
      let o := o.nextBranch loc r.next t.line (some condition)
      pure { r with focus := .frame (.branch o), next := r.next + 1 }
    | .elseTag, .branch (some _) =>
      let o := o.nextBranch loc r.next t.line none
      .ok { r with focus := .frame (.branch o), next := r.next + 1 }
    | _, _ => statement
  | .param _ _ => statement
  | .message o =>
    match keyword with
    | .fallbackmsg => do
      let (group, next) ← o.close loc r.next
      if o.group.children.isEmpty then
        let content ← atLine t.line (Body.msg text)
        let msg := Tree.new next (loc t.line) content
        pure { r with
               focus := .frame (.message { groupLine := o.groupLine, group, line := t.line, msg })
               next := next + 1 }
      else throw ⟨.secondFallback, t.line⟩
    | .plural => do
      let content ← atLine t.line (Body.plural text)
      let node := Tree.new r.next (loc t.line) content
      pure { r with
             focus := .choice o { line := t.line, command := .plural, node }
             next := r.next + 1 }
    | .select => do
      let content ← atLine t.line (Body.select text)
      let node := Tree.new r.next (loc t.line) content
      pure { r with
             focus := .choice o { line := t.line, command := .select, node }
             next := r.next + 1 }
    | _ => item
  | .case msg choice o =>
    match keyword with
    | .case | .default => r.closeCase loc msg choice o t
    | _ => item

/-- Take an end tag in a frame; it must be that of the frame's construct. -/
def stepEnd (r : Reader) (frame : Frame) (t : Placed) (name : String) : Outcome Reader :=
  let unexpected : Outcome Reader := .error ⟨.unexpectedEnd name, t.line⟩
  match frame with
  | .branch o => if name = "if" then .ok (r.leave o.close o.line) else unexpected
  | .param call o =>
    if name = "param" then do pure { r with focus := .call (← call.addOpenParam o) }
    else unexpected
  | .message o =>
    if name = "msg" then do
      let (group, next) ← o.close loc r.next
      pure ({ r with next }.leave group o.groupLine)
    else unexpected
  | .case msg choice o =>
    if name = choice.command.name then r.closeCase loc msg choice o t else unexpected

def step (scope : Scope) (r : Reader) (t : Placed) : Outcome Reader :=
  match r.focus with
  | .call o => r.stepCall loc o t
  | .choice msg o => r.stepChoice loc msg o t
  | .root =>
    match t.token with
    | .doc _ => .ok r
    | .text chars | .literal chars =>
      if chars.isEmpty then .ok r
      else .ok (r.addLeaf loc t.line (.rawText (String.ofList chars)))
    | .endTag name => .error ⟨.unexpectedEnd name, t.line⟩
    | .command keyword text selfClosing =>
      atLine t.line (r.stepStatement loc scope keyword text selfClosing t.line)
  | .frame frame =>
    match t.token with
    | .doc _ => .ok r
    | .text chars | .literal chars =>
      let (frame, next) := frame.addText loc r.next chars t.line
      .ok { r with focus := .frame frame, next }
    | .endTag name => r.stepEnd loc frame t name
    | .command keyword text selfClosing => r.stepCommand loc scope frame t keyword text selfClosing

/-- The statements of the body once all tokens are taken, and the next free identity;
    nothing may be open at the end, which is at `endLine`. -/
def finish (r : Reader) (endLine : Nat) : Outcome (List Node × NodeId) :=
  match r.focus with
  | .root => .ok (r.root.reverse, r.next)
  | .call o => .error ⟨.missingEnd o.command, o.line⟩
  | .choice _ o => .error ⟨.missingEnd o.command.name, o.line⟩
  | .frame (.branch o) => .error ⟨.missingEnd "if", o.line⟩
  | .frame (.param _ o) => .error ⟨.missingEnd "param", o.line⟩
  | .frame (.message _) => .error ⟨.missingEnd "msg", endLine⟩
  | .frame (.case _ choice _) => .error ⟨.missingEnd choice.command.name, endLine⟩

end Reader

/-- The statements that the tokens of a body make, listed by nobody yet, with
    identities from `next` on, and the next free one. -/
def read (scope : Scope) (next : NodeId) (tokens : List Placed) (endLine : Nat) :
    Outcome (List Node × NodeId) := do
  (← tokens.foldlM (Reader.step loc scope) { next }).finish endLine

end Stencil.Build
