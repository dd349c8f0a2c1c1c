/-
  Stencil/Proofs/Body/Lockstep.lean
  =================================
  **Readers in lockstep.**

  Two readers whose open constructs are of the same kinds, with messages that
  read the same so far, take the same tokens to two such readers: it matters
  neither what their files declare nor on which lines the tokens are.  What is
  open inside of a call is of interest only as far as it says where the call
  ends.
-/
import Stencil.Proofs.Body.Reader
import Stencil.Proofs.Message.Alike

namespace Stencil.Body

open Message (Item facade facadeAll outward)

/-! ### What is open -/

structure OpenCall.Alike (o o' : OpenCall) : Prop where
  command : o.command = o'.command
  content : outward o.content = outward o'.content

structure OpenMsg.Alike (o o' : OpenMsg) : Prop where
  items : List.Forall₂ Item.Alike o.items o'.items
  choices : facadeAll o.choices = facadeAll o'.choices

structure OpenChoice.Alike (o o' : OpenChoice) : Prop where
  command : o.command = o'.command
  content : o.content = o'.content
  cases : facadeAll o.cases = facadeAll o'.cases
  hasDefault : o.hasDefault = o'.hasDefault
  calls : o.calls = o'.calls

structure OpenCase.Alike (o o' : OpenCase) : Prop where
  label : o.label = o'.label
  items : List.Forall₂ Item.Alike o.items o'.items

inductive Frame.Alike : Frame → Frame → Prop
  | branch {o o' : OpenIf} (h : o.condition = o'.condition) : Alike (.branch o) (.branch o')
  | param {call call' : OpenCall} (h : call.Alike call') (o o' : OpenParam) :
      Alike (.param call o) (.param call' o')
  | message {o o' : OpenMsg} (h : o.Alike o') : Alike (.message o) (.message o')
  | case {msg msg' : OpenMsg} {choice choice' : OpenChoice} {o o' : OpenCase}
      (hmsg : msg.Alike msg') (hchoice : choice.Alike choice') (h : o.Alike o') :
      Alike (.case msg choice o) (.case msg' choice' o')

inductive Focus.Alike : Focus → Focus → Prop
  | root : Alike .root .root
  | frame {f f' : Frame} (h : f.Alike f') : Alike (.frame f) (.frame f')
  | call {o o' : OpenCall} (h : o.Alike o') : Alike (.call o) (.call o')
  | choice {msg msg' : OpenMsg} {o o' : OpenChoice} (hmsg : msg.Alike msg') (h : o.Alike o') :
      Alike (.choice msg o) (.choice msg' o')

structure Reader.Alike (r r' : Reader) : Prop where
  outer : List.Forall₂ Frame.Alike r.outer r'.outer
  focus : r.focus.Alike r'.focus

/-! ### Closing -/

theorem OpenCall.Alike.addParam {o o' : OpenCall} (h : o.Alike o') (key key' : String)
    (param param' : Draft) :
    Agree OpenCall.Alike (o.addParam key param) (o'.addParam key' param') := by
  rw [OpenCall.addParam, OpenCall.addParam]
  split
  · exact agree_error _
  · split
    · exact agree_error_right _
    · exact agree_ok ⟨h.command, h.content⟩

theorem agree_assembled {items items' : List Item} (h : List.Forall₂ Item.Alike items items')
    (calls : Nat) : Agree (fun p p' => facadeAll p.1 = facadeAll p'.1 ∧ p.2 = p'.2)
      (assembled calls items) (assembled calls items') :=
  agree_mapError (Message.agree_assemble (List.rel_reverse h) calls)

theorem OpenChoice.Alike.addCase {o o' : OpenChoice} (h : o.Alike o') {case case' : OpenCase}
    (hcase : case.Alike case') : Agree OpenChoice.Alike (o.addCase case) (o'.addCase case') := by
  rw [OpenChoice.addCase, OpenChoice.addCase, h.calls]
  refine agree_bind (agree_assembled hcase.items _) ?_
  rintro ⟨parts, calls⟩ ⟨parts', calls'⟩ ⟨hparts, hcalls⟩
  refine agree_ok ⟨h.command, h.content, ?_, h.hasDefault, hcalls⟩
  dsimp only at hparts ⊢
  simp only [facadeAll, facade, hparts, hcase.label, h.cases]

theorem OpenChoice.Alike.close {o o' : OpenChoice} (h : o.Alike o') :
    Agree (fun d d' => facade d = facade d') o.close o'.close := by
  rw [OpenChoice.close, OpenChoice.close, h.hasDefault]
  split
  · refine agree_ok ?_
    have hcases : facadeAll o.cases.reverse = facadeAll o'.cases.reverse := by
      rw [Message.facadeAll_reverse, Message.facadeAll_reverse, h.cases]
    rw [h.content]
    cases o'.content <;> simp only [facade, hcases]
  · exact agree_error _

namespace OpenMsg.Alike

variable {o o' : OpenMsg}

theorem addChoice (h : o.Alike o') {choice choice' : Draft} (hchoice : facade choice = facade choice') :
    Alike { o with choices := choice :: o.choices } { o' with choices := choice' :: o'.choices } := by
  refine ⟨h.items, ?_⟩
  dsimp only
  rw [facadeAll, facadeAll, hchoice, h.choices]

theorem body (h : o.Alike o') : Agree (fun b b' => facadeAll b = facadeAll b') o.body o'.body := by
  have hchoices := h.choices
  rw [OpenMsg.body, OpenMsg.body]
  generalize o.choices = choices, o'.choices = choices' at hchoices
  rcases choices with _ | ⟨choice, _ | ⟨_, _⟩⟩
  · rcases choices' with _ | ⟨_, _⟩
    · exact agree_bind (agree_assembled h.items 0) fun _ _ hparts => agree_ok hparts.1
    · cases hchoices
  · rcases choices' with _ | ⟨choice', _ | ⟨_, _⟩⟩
    · cases hchoices
    · dsimp only
      split
      · split
        · exact agree_ok hchoices
        · exact agree_error_right _
      · exact agree_error _
    · exact agree_error_right _
  · exact agree_error _

/-- Messages that read the same get one canonical text. -/
theorem closeMessage (h : o.Alike o') : Agree
    (fun ms ms' => ∃ m rest m' rest', ms = m :: rest ∧ ms' = m' :: rest' ∧
      Message.canonicalBody m.children = Message.canonicalBody m'.children)
    o.closeMessage o'.closeMessage := by
  rw [OpenMsg.closeMessage, OpenMsg.closeMessage]
  refine agree_bind h.body fun b b' hb => agree_ok ?_
  exact ⟨_, _, _, _, rfl, rfl, Message.canonicalBody_nameAll_eq hb⟩

theorem close (h : o.Alike o') :
    Agree (fun d d' => outward d.content = outward d'.content) o.close o'.close :=
  agree_bind h.closeMessage fun _ _ _ => agree_ok rfl

end OpenMsg.Alike

/-! ### Statements in frames -/

theorem Frame.Alike.addStatement {f f' : Frame} (h : f.Alike f') {d d' : Draft}
    (hd : outward d.content = outward d'.content) :
    (f.addStatement d).Alike (f'.addStatement d') := by
  cases h with
  | branch h => exact .branch h
  | param h o o' => exact .param h _ _
  | message h => exact .message ⟨.cons (.statement hd) h.items, h.choices⟩
  | case hmsg hchoice h => exact .case hmsg hchoice ⟨h.label, .cons (.statement hd) h.items⟩

theorem Frame.Alike.addText {f f' : Frame} (h : f.Alike f') (chars : List Char) (line line' : Nat) :
    (f.addText chars line).Alike (f'.addText chars line') := by
  cases h with
  | branch h =>
    simp only [Frame.addText]
    split
    · exact .branch h
    · exact .branch h
  | param h o o' =>
    simp only [Frame.addText]
    split
    · exact .param h _ _
    · exact .param h _ _
  | message h => exact .message ⟨.cons (.text chars line line') h.items, h.choices⟩
  | case hmsg hchoice h =>
    exact .case hmsg hchoice ⟨h.label, .cons (.text chars line line') h.items⟩

namespace Reader.Alike

variable {r r' : Reader} {scope scope' : Scope}

theorem withFocus (h : r.Alike r') {focus focus' : Focus} (hfocus : focus.Alike focus') :
    Alike { r with focus } { r' with focus := focus' } := ⟨h.outer, hfocus⟩

theorem addStatement (h : r.Alike r') {d d' : Draft} (hd : outward d.content = outward d'.content) :
    (r.addStatement d).Alike (r'.addStatement d') := by
  obtain ⟨root, outer, focus⟩ := r
  obtain ⟨root', outer', focus'⟩ := r'
  cases h.focus with
  | frame hf => exact ⟨h.outer, .frame (hf.addStatement hd)⟩
  | root | call | choice => exact ⟨h.outer, h.focus⟩

theorem enter (h : r.Alike r') {focus focus' : Focus} (hfocus : focus.Alike focus') :
    (r.enter focus).Alike (r'.enter focus') := by
  obtain ⟨root, outer, old⟩ := r
  obtain ⟨root', outer', old'⟩ := r'
  cases h.focus with
  | frame hf => exact ⟨.cons hf h.outer, hfocus⟩
  | root | call | choice => exact ⟨h.outer, hfocus⟩

theorem leave (h : r.Alike r') {d d' : Draft} (hd : outward d.content = outward d'.content) :
    (r.leave d).Alike (r'.leave d') := by
  obtain ⟨root, outer, focus⟩ := r
  obtain ⟨root', outer', focus'⟩ := r'
  cases h.outer with
  | nil => exact ⟨.nil, .root⟩
  | cons hf houter => exact ⟨houter, .frame (hf.addStatement hd)⟩

theorem openCall (h : r.Alike r') (command : String) (line line' : Nat) (closing : Bool)
    {content content' : Content} (hcontent : outward content = outward content') :
    (r.openCall command line closing content).Alike
      (r'.openCall command line' closing content') := by
  rw [Reader.openCall, Reader.openCall]
  split
  · exact h.addStatement hcontent
  · exact h.enter (.call ⟨rfl, hcontent⟩)

/-- The scope matters for what a call calls and for nothing else. -/
theorem agree_basicCall (text : List Char) :
    Agree (fun content content' => outward content = outward content')
      (basicCall scope text) (basicCall scope' text) := by
  refine agree_bind_self fun cmd => ?_
  cases scope.callee? cmd.head with
  | none => exact agree_error _
  | some name =>
    cases scope'.callee? cmd.head with
    | none => exact agree_error_right _
    | some name' => exact agree_ok rfl

theorem stepStatement (h : r.Alike r') (keyword : Keyword) (text : List Char) (closing : Bool)
    (line line' : Nat) : Agree Alike (r.stepStatement scope keyword text closing line)
      (r'.stepStatement scope' keyword text closing line') := by
  cases keyword
  case expression | print | xid => exact agree_bind_self fun _ => agree_ok (h.addStatement rfl)
  case ifTag => exact agree_bind_self fun _ => agree_ok (h.enter (.frame (.branch rfl)))
  case call =>
    exact agree_bind (agree_basicCall text) fun _ _ hcontent =>
      agree_ok (h.openCall _ _ _ _ hcontent)
  case delcall => exact agree_bind_self fun _ => agree_ok (h.openCall _ _ _ _ rfl)
  case msg =>
    exact agree_bind_self fun _ => agree_ok (h.enter (.frame (.message ⟨.nil, rfl⟩)))
  all_goals exact agree_error _

theorem stepItem (h : r.Alike r') (keyword : Keyword) (text : List Char) (closing : Bool)
    (line line' : Nat) : Agree Alike (r.stepItem scope keyword text closing line)
      (r'.stepItem scope' keyword text closing line') := by
  cases keyword
  case expression | print | call | delcall =>
    rw [Reader.stepItem, Reader.stepItem]
    exact h.stepStatement _ _ _ _ _
  all_goals exact agree_error _

/-! ### Tokens -/

variable {t t' : Placed}

/-- Tags that read the same say the same on any lines. -/
theorem agree_tag {α : Type} {line line' : Nat} (x : Except Cause α) {f g : α → Outcome Reader}
    (h : ∀ a, Agree Alike (f a) (g a)) :
    Agree Alike (atLine line x >>= f) (atLine line' x >>= g) := by
  cases x with
  | error cause => exact agree_error _
  | ok a => exact h a

theorem stepCall (h : r.Alike r') {o o' : OpenCall} (ho : o.Alike o')
    (ht : t.token = t'.token) : Agree Alike (r.stepCall o t) (r'.stepCall o' t') := by
  rw [Reader.stepCall, Reader.stepCall, ← ht]
  cases t.token with
  | doc _ => exact agree_ok h
  | endTag name =>
    dsimp only
    rw [ho.command]
    split
    · exact agree_ok (h.leave ho.content)
    · exact agree_error _
  | text | literal =>
    dsimp only
    split
    · exact agree_ok h
    · exact agree_error _
  | command keyword text closing =>
    cases keyword
    case param =>
      refine agree_tag _ fun param => ?_
      cases param with
      | value key expr =>
        exact agree_bind (ho.addParam _ _ _ _) fun _ _ ho' => agree_ok (h.withFocus (.call ho'))
      | content key kind => exact agree_ok (h.withFocus (.frame (.param ho _ _)))
    all_goals exact agree_error _

theorem stepChoice (h : r.Alike r') {msg msg' : OpenMsg} (hmsg : msg.Alike msg')
    {o o' : OpenChoice} (ho : o.Alike o') (ht : t.token = t'.token) :
    Agree Alike (r.stepChoice msg o t) (r'.stepChoice msg' o' t') := by
  rw [Reader.stepChoice, Reader.stepChoice, ← ht, ← ho.command, ← ho.hasDefault]
  cases t.token with
  | doc _ => exact agree_ok h
  | endTag name =>
    dsimp only
    split
    · refine agree_bind ho.close fun choice choice' hchoice => ?_
      exact agree_ok (h.withFocus (.frame (.message (hmsg.addChoice hchoice))))
    · exact agree_error _
  | text | literal =>
    dsimp only
    split
    · exact agree_ok h
    · exact agree_error _
  | command keyword text closing =>
    cases keyword
    case case =>
      dsimp only
      split
      · exact agree_error _
      · cases caseLabel? o.command text with
        | none => exact agree_error _
        | some label => exact agree_ok (h.withFocus (.frame (.case hmsg ho ⟨rfl, .nil⟩)))
    case default =>
      dsimp only
      split
      · exact agree_error _
      · refine agree_ok (h.withFocus (.frame (.case hmsg ?_ ⟨rfl, .nil⟩)))
        exact ⟨rfl, ho.content, ho.cases, rfl, ho.calls⟩
    all_goals exact agree_error _

theorem endCase (h : r.Alike r') {msg msg' : OpenMsg} (hmsg : msg.Alike msg')
    {choice choice' : OpenChoice} (hchoice : choice.Alike choice') {o o' : OpenCase}
    (ho : o.Alike o') (ht : t.token = t'.token) :
    Agree Alike (do r.stepChoice msg (← choice.addCase o) t)
      (do r'.stepChoice msg' (← choice'.addCase o') t') :=
  agree_bind (hchoice.addCase ho) fun _ _ hchoice' => h.stepChoice hmsg hchoice' ht

theorem stepCommand (h : r.Alike r') {f f' : Frame} (hf : f.Alike f') (ht : t.token = t'.token)
    (keyword : Keyword) (text : List Char) (closing : Bool) :
    Agree Alike (r.stepCommand scope f t keyword text closing)
      (r'.stepCommand scope' f' t' keyword text closing) := by
  have hstatement : Agree Alike (atLine t.line (r.stepStatement scope keyword text closing t.line))
      (atLine t'.line (r'.stepStatement scope' keyword text closing t'.line)) :=
    agree_mapError (h.stepStatement keyword text closing t.line t'.line)
  have hitem : Agree Alike (atLine t.line (r.stepItem scope keyword text closing t.line))
      (atLine t'.line (r'.stepItem scope' keyword text closing t'.line)) :=
    agree_mapError (h.stepItem keyword text closing t.line t'.line)
  cases hf with
  | @branch o o' hcondition =>
    simp only [Reader.stepCommand, hcondition]
    split
    · exact agree_tag _ fun _ => agree_ok (h.withFocus (.frame (.branch rfl)))
    · exact agree_ok (h.withFocus (.frame (.branch rfl)))
    · exact hstatement
  | param hcall o o' => exact hstatement
  | message ho =>
    cases keyword
    case fallbackmsg =>
      simp only [Reader.stepCommand]
      refine agree_bind ho.closeMessage fun _ _ _ => ?_
      split
      · split
        · exact agree_tag _ fun _ => agree_ok (h.withFocus (.frame (.message ⟨.nil, rfl⟩)))
        · exact agree_error_right _
      · exact agree_error _
    case plural | select =>
      exact agree_tag _ fun _ => agree_ok (h.withFocus (.choice ho ⟨rfl, rfl, rfl, rfl, rfl⟩))
    all_goals exact hitem
  | case hmsg hchoice ho =>
    cases keyword
    case case | default => exact h.endCase hmsg hchoice ho ht
    all_goals exact hitem

theorem stepEnd (h : r.Alike r') {f f' : Frame} (hf : f.Alike f') (ht : t.token = t'.token)
    (name : String) : Agree Alike (r.stepEnd f t name) (r'.stepEnd f' t' name) := by
  cases hf with
  | branch hcondition =>
    simp only [Reader.stepEnd]
    split
    · exact agree_ok (h.leave rfl)
    · exact agree_error _
  | param hcall o o' =>
    simp only [Reader.stepEnd]
    split
    · exact agree_bind (hcall.addParam _ _ _ _) fun _ _ hcall' =>
        agree_ok (h.withFocus (.call hcall'))
    · exact agree_error _
  | message ho =>
    simp only [Reader.stepEnd]
    split
    · exact agree_bind ho.close fun _ _ hd => agree_ok (h.leave hd)
    · exact agree_error _
  | case hmsg hchoice ho =>
    simp only [Reader.stepEnd, hchoice.command]
    split
    · exact h.endCase hmsg hchoice ho ht
    · exact agree_error _

theorem step (h : r.Alike r') (ht : t.token = t'.token) :
    Agree Alike (r.step scope t) (r'.step scope' t') := by
  obtain ⟨root, outer, focus⟩ := r
  obtain ⟨root', outer', focus'⟩ := r'
  have hfocus := h.focus
  dsimp only at hfocus
  rw [Reader.step, Reader.step, ← ht]
  cases hfocus with
  | root =>
    cases t.token with
    | doc _ => exact agree_ok h
    | text chars | literal chars =>
      dsimp only
      split
      · exact agree_ok h
      · exact agree_ok (h.addStatement rfl)
    | endTag name => exact agree_error _
    | command keyword text closing => exact agree_mapError (h.stepStatement _ _ _ _ _)
  | frame hf =>
    cases t.token with
    | doc _ => exact agree_ok h
    | text chars | literal chars => exact agree_ok (h.withFocus (.frame (hf.addText chars _ _)))
    | endTag name => exact h.stepEnd hf ht name
    | command keyword text closing => exact h.stepCommand hf ht keyword text closing
  | call ho => exact h.stepCall ho ht
  | choice hmsg ho => exact h.stepChoice hmsg ho ht

/-- The same tokens on other lines, read in another file. -/
theorem run (h : r.Alike r') {ts ts' : List Placed}
    (hts : ts.map Placed.token = ts'.map Placed.token) :
    Agree Alike (ts.foldlM (Reader.step scope) r) (ts'.foldlM (Reader.step scope') r') := by
  have hforall : List.Forall₂ (fun t t' => t.token = t'.token) ts ts' := by
    rwa [← List.forall₂_eq_eq_eq, List.forall₂_map_left_iff, List.forall₂_map_right_iff] at hts
  exact agree_foldlM (fun _ _ _ _ hr ht => hr.step ht) hforall h

end Reader.Alike

end Stencil.Body
