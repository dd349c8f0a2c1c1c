/-
  Stencil/Proofs/Build/Body.lean
  ==============================
  **Built nodes are placed drafts.**

  The reader that builds nodes and the reader that makes drafts take the same
  tokens step by step.  All along, what the one has built are the drafts of the other,
  placed one after the other from the outside in.  So either both readers refuse a
  body, with one complaint, or the nodes are the placed drafts.
-/
import Stencil.Proofs.Build.Constructs

namespace Stencil.Build

open Stencil.Tree (place placeAll placeBack sizeAll)
open Body (Cause Keyword Outcome Placed atLine)

variable (loc : Nat → Location)

/-! ### Frames -/

/-- An open frame has placed drafts, from `start` up to the next free identity. -/
inductive FrameBuilt (start : Nat) : Body.Frame → Frame → Nat → Prop
  | branch (o : Body.OpenIf) :
      FrameBuilt start (.branch o) (.branch (.place loc start o)) (OpenIf.free start o)
  | param {call : Body.OpenCall} (hcall : call.content.inOrder) (o : Body.OpenParam) :
      FrameBuilt start (.param call o)
        (.param (.place loc start call) (.place loc (OpenCall.free start call) o))
        (OpenParam.free (OpenCall.free start call) o)
  | message {o : Body.OpenMsg} {b : OpenMsg} {next : Nat} (h : MsgBuilt loc start o b next) :
      FrameBuilt start (.message o) (.message b) next
  | case {msg : Body.OpenMsg} {choice : Body.OpenChoice} {o : Body.OpenCase} {builtMsg : OpenMsg}
      {builtChoice : OpenChoice} {b : OpenCase} {mid next : Nat}
      (hmsg : MsgBuilt loc start msg builtMsg mid) (hchoice : ChoiceBuilt loc mid choice builtChoice)
      (h : CaseBuilt loc (OpenChoice.free mid choice) o b next) :
      FrameBuilt start (.case msg choice o) (.case builtMsg builtChoice b) next

namespace FrameBuilt

variable {loc} {start : Nat}

theorem branchAdd (o : Body.OpenIf) (d : Draft) (line : Nat) :
    FrameBuilt loc start (Body.Frame.addStatement (.branch o) d)
      (Frame.addStatement (.branch (.place loc start o)) (.place loc none (OpenIf.free start o) d)
        line)
      (OpenIf.free start o + d.size) := by
  have hfree : OpenIf.free start { o with body := d :: o.body } = OpenIf.free start o + d.size := by
    rw [OpenIf.free, Tree.add_sizeAll_cons]
    rfl
  have hbuilt : FrameBuilt loc start _ _ _ := .branch { o with body := d :: o.body }
  rw [hfree, OpenIf.place, Tree.placeBack_cons] at hbuilt
  exact hbuilt

theorem paramAdd {call : Body.OpenCall} (hcall : call.content.inOrder) (o : Body.OpenParam)
    (d : Draft) (line : Nat) :
    FrameBuilt loc start (Body.Frame.addStatement (.param call o) d)
      (Frame.addStatement (.param (.place loc start call) (.place loc (OpenCall.free start call) o))
        (.place loc none (OpenParam.free (OpenCall.free start call) o) d) line)
      (OpenParam.free (OpenCall.free start call) o + d.size) := by
  have hfree : OpenParam.free (OpenCall.free start call) { o with body := d :: o.body } =
      OpenParam.free (OpenCall.free start call) o + d.size := Tree.add_sizeAll_cons _ d o.body
  have hbuilt : FrameBuilt loc start _ _ _ := .param hcall { o with body := d :: o.body }
  rw [hfree, OpenParam.place, Tree.placeBack_cons] at hbuilt
  exact hbuilt

variable {frame : Body.Frame} {built : Frame} {next : Nat}
  (h : FrameBuilt loc start frame built next)
include h

theorem addStatement {d : Draft} (hd : d.content.inOrder) :
    FrameBuilt loc start (frame.addStatement d)
      (built.addStatement (.place loc none next d) d.mark) (next + d.size) := by
  cases h with
  | branch o => exact branchAdd o d d.mark
  | param hcall o => exact paramAdd hcall o d d.mark
  | message h => exact .message (h.withItems (h.contents.statement hd))
  | case hmsg hchoice h => exact .case hmsg hchoice ⟨h.node, .statement h.items hd⟩

theorem addText (chars : List Char) (line : Nat) :
    FrameBuilt loc start (frame.addText chars line) (built.addText loc next chars line).1
      (built.addText loc next chars line).2 := by
  cases h with
  | branch o =>
    cases chars with
    | nil => exact .branch o
    | cons c cs =>
      have hadd : FrameBuilt loc start _ _ _ := branchAdd o
        (.leaf line (.rawText (String.ofList (c :: cs)))) line
      rw [← Tree.new_eq_place] at hadd
      exact hadd
  | param hcall o =>
    cases chars with
    | nil => exact .param hcall o
    | cons c cs =>
      have hadd : FrameBuilt loc start _ _ _ := paramAdd hcall o
        (.leaf line (.rawText (String.ofList (c :: cs)))) line
      rw [← Tree.new_eq_place] at hadd
      exact hadd
  | message h => exact .message (h.withItems (h.contents.text chars line))
  | case hmsg hchoice h => exact .case hmsg hchoice ⟨h.node, .text chars line h.items⟩

end FrameBuilt

/-! ### Readers -/

variable (first : Nat)

/-- What stands around the focus has placed drafts: the statements of the body from
    `first` on, then the open frames from the outside in, up to the next free identity. -/
inductive OuterBuilt : List Draft → List Body.Frame → List Node → List Frame → Nat → Prop
  | nil (root : List Draft) :
      OuterBuilt root [] (placeBack loc none first root) [] (first + sizeAll root)
  | cons {root : List Draft} {outer : List Body.Frame} {frame : Body.Frame} {nodes : List Node}
      {frames : List Frame} {built : Frame} {mid next : Nat}
      (h : OuterBuilt root outer nodes frames mid) (hframe : FrameBuilt loc mid frame built next) :
      OuterBuilt root (frame :: outer) nodes (built :: frames) next

/-- The two readers are where statements can stand, and the one has placed what the other
    has read. -/
inductive HolderBuilt : Body.Reader → Reader → Prop
  | root (root : List Draft) :
      HolderBuilt ⟨root, [], .root⟩
        ⟨placeBack loc none first root, [], .root, first + sizeAll root⟩
  | frame {root : List Draft} {outer : List Body.Frame} {frame : Body.Frame} {nodes : List Node}
      {frames : List Frame} {built : Frame} {mid next : Nat}
      (h : OuterBuilt loc first root outer nodes frames mid)
      (hframe : FrameBuilt loc mid frame built next) :
      HolderBuilt ⟨root, outer, .frame frame⟩ ⟨nodes, frames, .frame built, next⟩

/-- The one reader has placed what the other has read. -/
inductive ReaderBuilt : Body.Reader → Reader → Prop
  | holder {r : Body.Reader} {b : Reader} (h : HolderBuilt loc first r b) : ReaderBuilt r b
  | call {root : List Draft} {outer : List Body.Frame} {o : Body.OpenCall} {nodes : List Node}
      {frames : List Frame} {mid : Nat} (h : OuterBuilt loc first root outer nodes frames mid)
      (ho : o.content.inOrder) :
      ReaderBuilt ⟨root, outer, .call o⟩
        ⟨nodes, frames, .call (.place loc mid o), OpenCall.free mid o⟩
  | choice {root : List Draft} {outer : List Body.Frame} {msg : Body.OpenMsg}
      {o : Body.OpenChoice} {nodes : List Node} {frames : List Frame} {builtMsg : OpenMsg}
      {b : OpenChoice} {mid mid' : Nat} (h : OuterBuilt loc first root outer nodes frames mid)
      (hmsg : MsgBuilt loc mid msg builtMsg mid') (hchoice : ChoiceBuilt loc mid' o b) :
      ReaderBuilt ⟨root, outer, .choice msg o⟩
        ⟨nodes, frames, .choice builtMsg b, OpenChoice.free mid' o⟩

section

variable {loc first}

theorem HolderBuilt.rootAdd (root : List Draft) (d : Draft) :
    HolderBuilt loc first ⟨d :: root, [], .root⟩
      ⟨place loc none (first + sizeAll root) d :: placeBack loc none first root, [], .root,
        first + sizeAll root + d.size⟩ := by
  rw [← Tree.placeBack_cons, ← Tree.add_sizeAll_cons]
  exact .root (d :: root)

/-- A closed construct becomes a placed statement of what is around it. -/
theorem OuterBuilt.leave {root : List Draft} {outer : List Body.Frame} {nodes : List Node}
    {frames : List Frame} {mid : Nat} (h : OuterBuilt loc first root outer nodes frames mid)
    (focus : Body.Focus) (focus' : Focus) {d : Draft} (hd : d.content.inOrder) :
    HolderBuilt loc first (Body.Reader.leave ⟨root, outer, focus⟩ d)
      (Reader.leave ⟨nodes, frames, focus', mid + d.size⟩ (place loc none mid d) d.mark) := by
  cases h with
  | nil => exact .rootAdd root d
  | cons h hframe => exact .frame h (hframe.addStatement hd)

namespace HolderBuilt

variable {r : Body.Reader} {b : Reader} (h : HolderBuilt loc first r b)
include h

/-- Opening a construct leaves what was placed around it. -/
theorem enter : ∃ root outer nodes frames, OuterBuilt loc first root outer nodes frames b.next ∧
    (∀ focus, r.enter focus = ⟨root, outer, focus⟩) ∧
      ∀ focus next, { b with next }.enter focus = ⟨nodes, frames, focus, next⟩ := by
  cases h with
  | root root => exact ⟨_, _, _, _, .nil root, fun _ => rfl, fun _ _ => rfl⟩
  | frame h hframe => exact ⟨_, _, _, _, h.cons hframe, fun _ => rfl, fun _ _ => rfl⟩

/-- A new node without children is a placed statement. -/
theorem addLeaf (line : Nat) {content : Content} (hcontent : content.inOrder) :
    HolderBuilt loc first (r.addStatement (.leaf line content)) (b.addLeaf loc line content) := by
  rw [Reader.addLeaf, Tree.new_eq_place]
  cases h with
  | root root => exact .rootAdd root (.leaf line content)
  | frame h hframe => exact .frame h (hframe.addStatement hcontent)

theorem openCall (command : String) (line : Nat) (selfClosing : Bool) {content : Content}
    (hcontent : content.inOrder) :
    ReaderBuilt loc first (r.openCall command line selfClosing content)
      (b.openCall loc command line selfClosing content) := by
  rw [Body.Reader.openCall, Reader.openCall]
  split
  · exact .holder (h.addLeaf line hcontent)
  · obtain ⟨root, outer, nodes, frames, houter, hr, hb⟩ := h.enter
    rw [hr, hb, Tree.new_eq_place]
    exact .call houter hcontent

end HolderBuilt

/-! ### Opening statements -/

theorem inOrder_of_print {implicit : Bool} {text : List Char} {content : Content}
    (h : Body.print implicit text = .ok content) : content.inOrder := by
  obtain ⟨expr, directives, rfl⟩ := Body.exists_print h
  rfl

theorem inOrder_of_xid {text : List Char} {content : Content} (h : Body.xid text = .ok content) :
    content.inOrder := by
  obtain ⟨name, rfl⟩ := Body.exists_xid h
  rfl

theorem inOrder_of_isCall {scope : Scope} {content : Content} (h : Body.IsCall scope content) :
    content.inOrder := by
  have hcall := Body.isCall_of_isCall h
  cases content with
  | call target data => rfl
  | _ => cases hcall

theorem holdsParts_of_msg {text : List Char} {content : Content} (h : Body.msg text = .ok content) :
    content.holdsParts := by
  obtain ⟨desc, meaning, hidden, rfl⟩ := Body.exists_msg ⟨text, h⟩
  rfl

theorem OpenIf.place_new (start line : Nat) (condition : Expr) :
    OpenIf.place loc start { line, branchLine := line, condition := some condition } =
      { line, node := .new start (loc line) .conditional
        branch := .new (start + 1) (loc line) (.branch (some condition)) } := by
  rw [Tree.new_eq_place loc start]
  rfl

theorem MsgBuilt.new (start groupLine line : Nat) (messages : List Draft) {content : Content}
    (hcontent : content.holdsParts) :
    MsgBuilt loc start { groupLine, messages, line, content }
      { groupLine, group := .place loc none start (.node groupLine .msgGroup messages.reverse)
        line, msg := .new (start + 1 + sizeAll messages) (loc line) content }
      (start + 1 + sizeAll messages + 1) :=
  ⟨rfl, rfl, rfl, rfl, hcontent, .items .nil⟩

theorem FrameBuilt.nextBranch {start : Nat} (o : Body.OpenIf) (line : Nat)
    (condition : Option Expr) :
    FrameBuilt loc start (.branch (o.nextBranch line condition))
      (.branch ((OpenIf.place loc start o).nextBranch loc (OpenIf.free start o) line condition))
      (OpenIf.free start o + 1) := by
  rw [OpenIf.nextBranch_place, ← OpenIf.branchId_nextBranch start o line condition]
  exact .branch _

theorem ChoiceBuilt.new (start line : Nat) {command : Keyword} {content : Content}
    (hcontent : content.isChoice) :
    ChoiceBuilt loc start { line, command, content }
      { line, command, node := .new start (loc line) content } :=
  ⟨rfl, rfl, rfl, Tree.new_eq_place loc start line content, hcontent, .nil⟩

theorem MsgBuilt.close {start next : Nat} {o : Body.OpenMsg} {b : OpenMsg}
    (h : MsgBuilt loc start o b next) :
    Tallies Eq (fun messages result => result =
        (place loc none start (.node o.groupLine .msgGroup messages.reverse),
          start + 1 + sizeAll messages))
      o.closeMessage (b.close loc next) := tallies_of_eq_map h.close_eq fun _ _ => rfl

namespace HolderBuilt

variable {r : Body.Reader} {b : Reader} (h : HolderBuilt loc first r b) (scope : Scope)
  (keyword : Keyword) (text : List Char) (selfClosing : Bool) (line : Nat)
include h

theorem stepStatement :
    Tallies Eq (ReaderBuilt loc first) (r.stepStatement scope keyword text selfClosing line)
      (b.stepStatement loc scope keyword text selfClosing line) := by
  obtain ⟨root, outer, nodes, frames, houter, hr, hb⟩ := h.enter
  cases keyword with
  | expression | print =>
    exact tallies_bind_self fun content hcontent =>
      .ok (.holder (h.addLeaf line (inOrder_of_print hcontent)))
  | xid =>
    exact tallies_bind_self fun content hcontent =>
      .ok (.holder (h.addLeaf line (inOrder_of_xid hcontent)))
  | ifTag =>
    refine tallies_bind_self fun condition _ => ?_
    dsimp only
    rw [hr, hb, ← OpenIf.place_new]
    exact .ok (.holder (.frame houter (.branch _)))
  | call =>
    exact tallies_bind_self fun content hcontent =>
      .ok (h.openCall _ line selfClosing (inOrder_of_isCall ⟨text, .inl hcontent⟩))
  | delcall =>
    exact tallies_bind_self fun content hcontent =>
      .ok (h.openCall _ line selfClosing (inOrder_of_isCall (show Body.IsCall scope content from ⟨text, .inr hcontent⟩)))
  | msg =>
    refine tallies_bind_self fun content hcontent => ?_
    dsimp only
    rw [hr, hb, Tree.new_eq_place loc b.next]
    exact .ok (.holder (.frame houter (.message (.new b.next line line []
      (holdsParts_of_msg hcontent)))))
  | _ => exact .error rfl

theorem stepItem :
    Tallies Eq (ReaderBuilt loc first) (r.stepItem scope keyword text selfClosing line)
      (b.stepItem loc scope keyword text selfClosing line) := by
  cases keyword with
  | expression => exact h.stepStatement scope .expression text selfClosing line
  | print => exact h.stepStatement scope .print text selfClosing line
  | call => exact h.stepStatement scope .call text selfClosing line
  | delcall => exact h.stepStatement scope .delcall text selfClosing line
  | _ => exact .error rfl

end HolderBuilt

/-! ### Tokens between parts -/

/-- A token in braces. -/
def isTag : Body.Token → Bool
  | .command _ _ _ | .endTag _ => true
  | _ => false

section Parts

variable {root : List Draft} {outer : List Body.Frame} {nodes : List Node} {frames : List Frame}
  {mid : Nat} (h : OuterBuilt loc first root outer nodes frames mid)
include h

/-- A call with one more parameter is open in both readers, or the key is refused. -/
theorem OuterBuilt.addedParam {o : Body.OpenCall} (ho : o.content.inOrder) {added : Outcome Body.OpenCall}
    {built : Outcome OpenCall} {size next : Nat} (hbuilt : built = added.map (.place loc mid))
    (hadded : ∀ o', added = .ok o' →
      o'.content = o.content ∧ OpenCall.free mid o' = OpenCall.free mid o + size)
    (hnext : next = OpenCall.free mid o + size) :
    Tallies Eq (ReaderBuilt loc first)
      (added >>= fun o' => pure ⟨root, outer, .call o'⟩)
      (built >>= fun b' => pure ⟨nodes, frames, .call b', next⟩) := by
  refine tallies_bind (tallies_of_eq_map hbuilt (R := fun o' b' => b' = .place loc mid o' ∧
    o'.content = o.content ∧ OpenCall.free mid o' = next) fun o' ho' => ?_) ?_
  · exact ⟨rfl, (hadded o' ho').1, (hadded o' ho').2.trans hnext.symm⟩
  · rintro o' _ ⟨rfl, hcontent, rfl⟩
    exact .ok (.call h (by rwa [hcontent]))

theorem OuterBuilt.stepCall {o : Body.OpenCall} (ho : o.content.inOrder) (t : Placed) :
    Tallies Eq (ReaderBuilt loc first) (Body.Reader.stepCall ⟨root, outer, .call o⟩ o t)
      (Reader.stepCall loc ⟨nodes, frames, .call (.place loc mid o), OpenCall.free mid o⟩
        (.place loc mid o) t) := by
  have hfocus := ReaderBuilt.call h ho
  rw [Body.Reader.stepCall, Reader.stepCall]
  obtain ⟨token, line⟩ := t
  cases token with
  | doc text => exact .ok hfocus
  | text chars | literal chars =>
    dsimp only
    split
    · exact .ok hfocus
    · exact .error rfl
  | endTag name =>
    change Tallies Eq (ReaderBuilt loc first) (if name = o.command then _ else _)
      (if name = o.command then _ else _)
    split
    · have hleave := h.leave (.call o) (.call (.place loc mid o)) (d := o.close) ho
      rw [OpenCall.size_close] at hleave
      exact .ok (.holder hleave)
    · exact .error rfl
  | command keyword text selfClosing =>
    cases keyword with
    | param =>
      refine tallies_bind_self fun param _ => ?_
      cases param with
      | value key expr =>
        dsimp only
        rw [Tree.new_eq_place]
        exact h.addedParam ho (OpenCall.addParam_place loc mid ho key _)
          (fun o' ho' => OpenCall.of_addParam mid ho') rfl
      | content key kind =>
        exact .ok (.holder (.frame h (.param ho { line, key, kind })))
    | _ => exact .error rfl

/-- A token between the cases of a plural or select.  A token that is no tag leaves the
    readers as they are. -/
theorem OuterBuilt.stepChoice {focus : Body.Focus} {focus' : Focus} {msg : Body.OpenMsg}
    {builtMsg : OpenMsg} {o : Body.OpenChoice} {b : OpenChoice} {next : Nat}
    (hmsg : MsgBuilt loc mid msg builtMsg next) (ho : ChoiceBuilt loc next o b) (t : Placed)
    (hfocus : ¬ isTag t.token → ReaderBuilt loc first ⟨root, outer, focus⟩
      ⟨nodes, frames, focus', OpenChoice.free next o⟩) :
    Tallies Eq (ReaderBuilt loc first) (Body.Reader.stepChoice ⟨root, outer, focus⟩ msg o t)
      (Reader.stepChoice loc ⟨nodes, frames, focus', OpenChoice.free next o⟩ builtMsg b t) := by
  rw [Body.Reader.stepChoice, Reader.stepChoice]
  have hcommand := ho.command
  have hdefault := ho.hasDefault
  obtain ⟨line, command, node, hasDefault⟩ := b
  dsimp only at hcommand hdefault
  subst hcommand hdefault
  obtain ⟨token, line⟩ := t
  cases token with
  | doc text => exact .ok (hfocus Bool.false_ne_true)
  | text chars | literal chars =>
    dsimp only
    split
    · exact .ok (hfocus Bool.false_ne_true)
    · exact .error rfl
  | endTag name =>
    dsimp only
    split
    · refine tallies_bind ho.close ?_
      rintro d _ ⟨rfl, hd, hkeys, hfree⟩
      rw [← hfree]
      exact Tallies.ok (.holder (.frame h (.message (hmsg.addChoice hd hkeys))))
    · exact .error rfl
  | command keyword text selfClosing =>
    cases keyword with
    | case =>
      dsimp only
      split
      · exact .error rfl
      · cases Body.caseLabel? o.command text with
        | some label => exact .ok (.holder (.frame h (.case hmsg ho ⟨rfl, .nil⟩)))
        | none => exact .error rfl
    | default =>
      dsimp only
      split
      · exact .error rfl
      · exact .ok (.holder (.frame h (.case hmsg ho.withDefault ⟨rfl, .nil⟩)))
    | _ => exact .error rfl

/-- Closing a case and taking the token that ends it. -/
theorem OuterBuilt.closeCase {msg : Body.OpenMsg} {builtMsg : OpenMsg} {choice : Body.OpenChoice}
    {builtChoice : OpenChoice} {o : Body.OpenCase} {b : OpenCase} {next free : Nat}
    (hmsg : MsgBuilt loc mid msg builtMsg next) (hchoice : ChoiceBuilt loc next choice builtChoice)
    (ho : CaseBuilt loc (OpenChoice.free next choice) o b free) {t : Placed} (ht : isTag t.token) :
    Tallies Eq (ReaderBuilt loc first)
      (choice.addCase o >>= fun choice' =>
        Body.Reader.stepChoice ⟨root, outer, .frame (.case msg choice o)⟩ msg choice' t)
      (Reader.closeCase loc ⟨nodes, frames, .frame (.case builtMsg builtChoice b), free⟩ builtMsg
        builtChoice b t) := by
  refine tallies_bind (hchoice.addCase ho) ?_
  rintro choice' ⟨builtChoice', next'⟩ ⟨hchoice', -, hfree⟩
  dsimp only at hchoice' hfree ⊢
  rw [hfree]
  exact h.stepChoice hmsg hchoice' t (absurd ht)

end Parts

/-! ### Tokens in frames -/

theorem tallies_atLine {α β : Type} {R : α → β → Prop} {x : Except Cause α} {y : Except Cause β}
    (line : Nat) (h : Tallies Eq R x y) : Tallies Eq R (atLine line x) (atLine line y) :=
  tallies_mapError_self h _

section Frames

variable {root : List Draft} {outer : List Body.Frame} {frame : Body.Frame} {nodes : List Node}
  {frames : List Frame} {built : Frame} {mid next : Nat}
  (h : OuterBuilt loc first root outer nodes frames mid)
  (hframe : FrameBuilt loc mid frame built next) (t : Placed)
include h hframe

theorem OuterBuilt.stepCommand (scope : Scope) (keyword : Keyword) (text : List Char)
    (selfClosing : Bool) (ht : t.token = .command keyword text selfClosing) :
    Tallies Eq (ReaderBuilt loc first)
      (Body.Reader.stepCommand scope ⟨root, outer, .frame frame⟩ frame t keyword text selfClosing)
      (Reader.stepCommand loc scope ⟨nodes, frames, .frame built, next⟩ built t keyword text
        selfClosing) := by
  have hholder := HolderBuilt.frame h hframe
  have hstatement := tallies_atLine t.line
    (hholder.stepStatement scope keyword text selfClosing t.line)
  have hitem := tallies_atLine t.line (hholder.stepItem scope keyword text selfClosing t.line)
  cases hframe with
  | branch o =>
    obtain ⟨line, branches, branchLine, condition, body⟩ := o
    cases condition with
    | none => cases keyword <;> exact hstatement
    | some condition =>
      cases keyword with
      | elseifTag =>
        refine tallies_bind_self fun condition _ => ?_
        exact .ok (.holder (.frame h (.nextBranch _ t.line (some condition))))
      | elseTag => exact .ok (.holder (.frame h (.nextBranch _ t.line none)))
      | _ => exact hstatement
  | param hcall o => exact hstatement
  | message hmsg =>
    cases keyword with
    | fallbackmsg =>
      refine tallies_bind hmsg.close ?_
      rintro messages _ rfl
      dsimp only
      rw [hmsg.isEmpty_children, hmsg.groupLine]
      split
      · refine tallies_bind_self fun content hcontent => ?_
        have hcontent := holdsParts_of_msg (mapError_eq_ok.1 hcontent)
        exact .ok (.holder (.frame h (.message (.new mid _ t.line messages hcontent))))
      · exact .error rfl
    | plural =>
      refine tallies_bind_self fun content hcontent => .ok (.choice h hmsg (.new _ t.line ?_))
      exact Body.isChoice_of_isChoice ⟨text, .inl ⟨rfl, mapError_eq_ok.1 hcontent⟩⟩
    | select =>
      refine tallies_bind_self fun content hcontent => .ok (.choice h hmsg (.new _ t.line ?_))
      exact Body.isChoice_of_isChoice ⟨text, .inr ⟨rfl, mapError_eq_ok.1 hcontent⟩⟩
    | _ => exact hitem
  | case hmsg hchoice hcase =>
    cases keyword with
    | case | default =>
      exact h.closeCase hmsg hchoice hcase (by rw [ht]; rfl)
    | _ => exact hitem

theorem OuterBuilt.stepEnd (name : String) (ht : t.token = .endTag name) :
    Tallies Eq (ReaderBuilt loc first)
      (Body.Reader.stepEnd ⟨root, outer, .frame frame⟩ frame t name)
      (Reader.stepEnd loc ⟨nodes, frames, .frame built, next⟩ built t name) := by
  cases hframe with
  | branch o =>
    rw [Body.Reader.stepEnd, Reader.stepEnd]
    split
    · have hleave := h.leave (.frame (.branch o)) (.frame (.branch (.place loc mid o)))
        (d := o.close) rfl
      rw [OpenIf.size_close, ← OpenIf.close_place] at hleave
      exact .ok (.holder hleave)
    · exact .error rfl
  | @param call hcall o =>
    rw [Body.Reader.stepEnd, Reader.stepEnd]
    split
    · refine h.addedParam hcall (OpenCall.addOpenParam_place loc mid hcall o)
        (fun call' hcall' => OpenCall.of_addParam mid hcall') ?_
      change OpenCall.free mid call + 1 + sizeAll o.body = _
      rw [Tree.size, Tree.sizeAll_reverse]
      omega
    · exact .error rfl
  | @message o b _ hmsg =>
    rw [Body.Reader.stepEnd, Reader.stepEnd]
    split
    · rw [Body.OpenMsg.close, bind_assoc]
      refine tallies_bind hmsg.close ?_
      rintro messages _ rfl
      have hleave := h.leave (.frame (.message o)) (.frame (.message b))
        (d := .node o.groupLine .msgGroup messages.reverse) rfl
      rw [Tree.size, Tree.sizeAll_reverse, Nat.add_comm (sizeAll _), ← Nat.add_assoc] at hleave
      dsimp only
      rw [hmsg.groupLine]
      exact Tallies.ok (ReaderBuilt.holder hleave)
    · exact .error rfl
  | case hmsg hchoice hcase =>
    rw [Body.Reader.stepEnd, Reader.stepEnd, hchoice.command]
    split
    · exact h.closeCase hmsg hchoice hcase (by rw [ht]; rfl)
    · exact .error rfl

end Frames

/-! ### Bodies -/

/-- A token takes readers that correspond to such readers, or both refuse it. -/
theorem ReaderBuilt.step (scope : Scope) {r : Body.Reader} {b : Reader}
    (h : ReaderBuilt loc first r b) (t : Placed) :
    Tallies Eq (ReaderBuilt loc first) (Body.Reader.step scope r t) (Reader.step loc scope b t) := by
  cases h with
  | call h ho => exact h.stepCall ho t
  | choice h hmsg ho => exact h.stepChoice hmsg ho t fun _ => .choice h hmsg ho
  | holder hholder =>
    rw [Body.Reader.step, Reader.step]
    cases hholder with
    | root root =>
      have hholder : HolderBuilt loc first _ _ := .root root
      obtain ⟨token, line⟩ := t
      cases token with
      | doc text => exact .ok (.holder hholder)
      | text chars | literal chars =>
        dsimp only
        split
        · exact .ok (.holder hholder)
        · rw [Reader.addLeaf, Tree.new_eq_place]
          exact .ok (.holder (.rootAdd root (.leaf line (.rawText (String.ofList chars)))))
      | endTag name => exact .error rfl
      | command keyword text selfClosing =>
        exact tallies_atLine line (hholder.stepStatement scope keyword text selfClosing line)
    | frame h hframe =>
      obtain ⟨token, line⟩ := t
      cases token with
      | doc text => exact .ok (.holder (.frame h hframe))
      | text chars | literal chars => exact .ok (.holder (.frame h (hframe.addText chars line)))
      | endTag name => exact h.stepEnd hframe _ name rfl
      | command keyword text selfClosing =>
        exact h.stepCommand hframe _ scope keyword text selfClosing rfl

theorem ReaderBuilt.finish {r : Body.Reader} {b : Reader} (h : ReaderBuilt loc first r b)
    (endLine : Nat) :
    b.finish endLine = (r.finish endLine).map fun ds =>
      (placeAll loc none first ds, first + sizeAll ds) := by
  cases h with
  | call h ho => rfl
  | @choice _ _ _ o _ _ _ b _ _ h hmsg ho =>
    change Except.error (⟨.missingEnd b.command.name, b.line⟩ : Fault Cause) =
      Except.error ⟨.missingEnd o.command.name, o.line⟩
    rw [ho.command, ho.line]
  | holder h =>
    cases h with
    | root root =>
      rw [Reader.finish, Body.Reader.finish, Except.map, Tree.reverse_placeBack,
        Tree.sizeAll_reverse]
    | frame h hframe =>
      cases hframe with
      | branch o => rfl
      | param hcall o => rfl
      | message h => rfl
      | @case _ choice _ _ builtChoice _ _ _ hmsg hchoice h =>
        change Except.error (⟨.missingEnd builtChoice.command.name, endLine⟩ : Fault Cause) =
          Except.error ⟨.missingEnd choice.command.name, endLine⟩
        rw [hchoice.command]

end

/-- The nodes of a body are its drafts, placed one after the other: both readers take the
    same bodies, and refuse the others alike. -/
theorem read_eq (scope : Scope) (next : Nat) (tokens : List Placed) (endLine : Nat) :
    read loc scope next tokens endLine = (Body.read scope tokens endLine).map fun ds =>
      (placeAll loc none next ds, next + sizeAll ds) := by
  have hrun : Tallies Eq (ReaderBuilt loc next) (tokens.foldlM (Body.Reader.step scope) {}) _ :=
    tallies_foldlM (fun t _ r b h => h.step scope t) (.holder (.root []))
  refine Tallies.eq_map (tallies_bind hrun fun r b h => ?_)
  exact tallies_of_eq_map (h.finish endLine) fun ds _ => rfl

end Stencil.Build
