/-
  Stencil/Proofs/Body/Messages.lean
  =================================
  **Messages come from closed messages.**

  The reader keeps the messages that it has closed as they are.  What is true of
  each of them when it is closed is true of every message of the body.
-/
import Stencil.Proofs.Body.Nesting
import Stencil.Proofs.Message.Assembled

namespace Stencil

/-- The messages in a tree have the property. -/
def MsgsAre {α : Type} (P : Tree α → Prop) (t : Tree α) : Prop :=
  t.Each fun n => n.content.isMsgGroup → ∀ m ∈ n.children, P m

section

variable {P : Draft → Prop}

theorem msgsAre_leaf (line : Nat) (content : Content) : MsgsAre P (.leaf line content) :=
  Tree.each_leaf fun _ _ hm => nomatch hm

theorem msgsAre_node {line : Nat} {content : Content} {children : List Draft}
    (hcontent : content.isMsgGroup = false) (hchildren : ∀ k ∈ children, MsgsAre P k) :
    MsgsAre P (.node line content children) := by
  refine Tree.each_node (fun hgroup => ?_) hchildren
  rw [Tree.content_node, hcontent] at hgroup
  cases hgroup

theorem msgsAre_group {line : Nat} {messages : List Draft}
    (h : ∀ m ∈ messages, P m ∧ MsgsAre P m) : MsgsAre P (.node line .msgGroup messages) :=
  Tree.each_node (fun _ m hm => (h m hm).1) fun m hm => (h m hm).2

theorem forall_cons {Q : Draft → Prop} {d : Draft} {ds : List Draft} (hd : Q d)
    (hds : ∀ e ∈ ds, Q e) : ∀ e ∈ d :: ds, Q e := List.forall_mem_cons.2 ⟨hd, hds⟩

end

namespace Message

variable {P : Draft → Prop}

theorem not_isMsgGroup_of_isMade {content : Content} (h : content.isMade) :
    ¬ content.isMsgGroup := by
  cases content <;> simp [Content.isMade, Content.isMsgGroup] at h ⊢

theorem asksLine_msgsAre : AsksLine (fun _ => True)
    fun n : Draft => n.content.isMsgGroup → ∀ m ∈ n.children, P m :=
  asksLine_true fun _ hmade hgroup => absurd hgroup (not_isMsgGroup_of_isMade hmade)

theorem msgsAre_assemble {items : List Item} (h : ∀ d, .statement d ∈ items → MsgsAre P d)
    (calls : Nat) : Ensures (fun p => ∀ part ∈ p.1, MsgsAre P part) (assemble calls items) :=
  (each_assemble asksLine_msgsAre ⟨fun _ _ _ => trivial, h⟩ calls).ensures

theorem msgsAre_nameAll {body : List Draft} (h : ∀ p ∈ body, MsgsAre P p) :
    ∀ p ∈ nameAll body, MsgsAre P p :=
  each_nameAll asksLine_msgsAre h

end Message

namespace Body

variable {scope : Scope} {P : Draft → Prop}

/-! ### What is open -/

/-- The messages in the statements among items have the property. -/
def ItemsAre (P : Draft → Prop) (items : List Message.Item) : Prop :=
  ∀ d, .statement d ∈ items → MsgsAre P d

structure OpenIf.MsgsAre (P : Draft → Prop) (o : OpenIf) : Prop where
  branches : ∀ b ∈ o.branches, Stencil.MsgsAre P b
  body : ∀ d ∈ o.body, Stencil.MsgsAre P d

def OpenCall.MsgsAre (P : Draft → Prop) (o : OpenCall) : Prop :=
  ∀ p ∈ o.params, Stencil.MsgsAre P p

structure OpenMsg.MsgsAre (P : Draft → Prop) (o : OpenMsg) : Prop where
  messages : ∀ m ∈ o.messages, P m ∧ Stencil.MsgsAre P m
  items : ItemsAre P o.items
  choices : ∀ c ∈ o.choices, Stencil.MsgsAre P c

def OpenChoice.MsgsAre (P : Draft → Prop) (o : OpenChoice) : Prop :=
  ∀ c ∈ o.cases, Stencil.MsgsAre P c

def Frame.MsgsAre (P : Draft → Prop) : Frame → Prop
  | .branch o => o.MsgsAre P
  | .param call o => call.MsgsAre P ∧ ∀ d ∈ o.body, Stencil.MsgsAre P d
  | .message o => o.MsgsAre P
  | .case msg choice o => msg.MsgsAre P ∧ choice.MsgsAre P ∧ ItemsAre P o.items

def Focus.MsgsAre (P : Draft → Prop) : Focus → Prop
  | .root => True
  | .frame f => f.MsgsAre P
  | .call o => o.MsgsAre P
  | .choice msg o => msg.MsgsAre P ∧ o.MsgsAre P

structure Reader.MsgsAre (P : Draft → Prop) (r : Reader) : Prop where
  root : ∀ d ∈ r.root, Stencil.MsgsAre P d
  outer : ∀ f ∈ r.outer, f.MsgsAre P
  focus : r.focus.MsgsAre P

/-! ### Closing -/

theorem ItemsAre.nil : ItemsAre P [] := fun _ hd => nomatch hd

theorem ItemsAre.consText {items : List Message.Item} (h : ItemsAre P items) (chars : List Char)
    (line : Nat) : ItemsAre P (.text chars line :: items) := by
  intro d hd
  rcases List.mem_cons.1 hd with hd | hd
  · cases hd
  · exact h d hd

theorem ItemsAre.cons {items : List Message.Item} (h : ItemsAre P items) {d : Draft}
    (hd : Stencil.MsgsAre P d) : ItemsAre P (.statement d :: items) := by
  intro e he
  rcases List.mem_cons.1 he with he | he
  · cases he
    exact hd
  · exact h e he

theorem ItemsAre.assembled {items : List Message.Item} (h : ItemsAre P items) (calls : Nat) :
    Ensures (fun p => ∀ part ∈ p.1, Stencil.MsgsAre P part) (assembled calls items) :=
  ensures_mapError (Message.msgsAre_assemble (fun d hd => h d (List.mem_reverse.1 hd)) calls)

namespace OpenIf.MsgsAre

variable {o : OpenIf}

theorem closeBranch (h : o.MsgsAre P) : ∀ b ∈ o.closeBranch, Stencil.MsgsAre P b :=
  forall_cons (msgsAre_node rfl (forall_reverse h.body)) h.branches

theorem close (h : o.MsgsAre P) : Stencil.MsgsAre P o.close :=
  msgsAre_node rfl (forall_reverse h.closeBranch)

end OpenIf.MsgsAre

theorem isMsgGroup_of_isCall {content : Content} (h : IsCall scope content) :
    content.isMsgGroup = false := by
  have hcall := isCall_of_isCall h
  cases content <;> first | rfl | cases hcall

theorem OpenCall.MsgsAre.close {o : OpenCall} (h : o.MsgsAre P) (hcall : IsCall scope o.content) :
    Stencil.MsgsAre P o.close :=
  msgsAre_node (isMsgGroup_of_isCall hcall) (forall_reverse h)

theorem OpenCall.MsgsAre.addParam {o : OpenCall} (h : o.MsgsAre P) (key : String) {param : Draft}
    (hparam : Stencil.MsgsAre P param) : Ensures (OpenCall.MsgsAre P) (o.addParam key param) := by
  rw [OpenCall.addParam]
  split
  · exact ensures_error _
  · exact ensures_ok (forall_cons hparam h)

theorem OpenChoice.MsgsAre.addCase {o : OpenChoice} (h : o.MsgsAre P) {case : OpenCase}
    (hitems : ItemsAre P case.items) : Ensures (OpenChoice.MsgsAre P) (o.addCase case) :=
  ensures_bind (hitems.assembled o.calls) fun _ hparts =>
    ensures_ok (forall_cons (msgsAre_node rfl hparts) h)

theorem OpenChoice.MsgsAre.close {o : OpenChoice} (h : o.MsgsAre P)
    (hchoice : IsChoice o.command o.content) : Ensures (Stencil.MsgsAre P) o.close := by
  rw [OpenChoice.close]
  split
  · refine ensures_ok (msgsAre_node ?_ (forall_reverse h))
    have hcontent := isChoice_of_isChoice hchoice
    cases hkind : o.content <;> rw [hkind] at hcontent <;> first | rfl | cases hcontent
  · exact ensures_error _

namespace OpenMsg.MsgsAre

variable {o : OpenMsg}

theorem body (h : o.MsgsAre P) : Ensures (fun b => ∀ p ∈ b, Stencil.MsgsAre P p) o.body := by
  have hchoices := h.choices
  rw [OpenMsg.body]
  split
  · exact ensures_bind (h.items.assembled 0) fun _ hparts => ensures_ok hparts
  · rename_i choice heq
    split
    · rw [heq] at hchoices
      exact ensures_ok hchoices
    · exact ensures_error _
  · exact ensures_error _

theorem closeMessage (h : o.MsgsAre P) (hmsg : IsMsg o.content)
    (hclose : ∀ m rest, o.closeMessage = .ok (m :: rest) → P m) :
    Ensures (fun ms => ∀ m ∈ ms, P m ∧ Stencil.MsgsAre P m) o.closeMessage := by
  intro ms hms
  obtain ⟨b, hb, hms'⟩ := bind_eq_ok.1 hms
  cases hms'
  obtain ⟨desc, meaning, hidden, hcontent⟩ := exists_msg hmsg
  refine forall_cons ⟨hclose _ _ hms, msgsAre_node ?_ (Message.msgsAre_nameAll (h.body b hb))⟩
    h.messages
  rw [hcontent]
  rfl

end OpenMsg.MsgsAre

/-! ### Statements in frames -/

theorem Frame.MsgsAre.addStatement {f : Frame} (h : f.MsgsAre P) {d : Draft}
    (hd : Stencil.MsgsAre P d) : (f.addStatement d).MsgsAre P := by
  cases f with
  | branch o => exact ⟨h.branches, forall_cons hd h.body⟩
  | param call o => exact ⟨h.1, forall_cons hd h.2⟩
  | message o => exact ⟨h.messages, h.items.cons hd, h.choices⟩
  | case msg choice o => exact ⟨h.1, h.2.1, h.2.2.cons hd⟩

theorem Frame.MsgsAre.addText {f : Frame} (h : f.MsgsAre P) (chars : List Char) (line : Nat) :
    (f.addText chars line).MsgsAre P := by
  by_cases htakes : f.takesItems
  · cases f with
    | branch o => exact htakes.elim
    | param call o => exact htakes.elim
    | message o => exact ⟨h.messages, h.items.consText chars line, h.choices⟩
    | case msg choice o => exact ⟨h.1, h.2.1, h.2.2.consText chars line⟩
  · rw [Frame.addText_of_not_takesItems htakes]
    split
    · exact h
    · exact h.addStatement (msgsAre_leaf _ _)

namespace Reader.MsgsAre

variable {r : Reader} {t : Placed}

theorem withFocus (h : r.MsgsAre P) {focus : Focus} (hfocus : focus.MsgsAre P) :
    MsgsAre P { r with focus } := ⟨h.root, h.outer, hfocus⟩

theorem frame (h : r.MsgsAre P) {f : Frame} (hf : r.focus = .frame f) : f.MsgsAre P := by
  have hfocus := h.focus
  rwa [hf] at hfocus

theorem addStatement (h : r.MsgsAre P) {d : Draft} (hd : Stencil.MsgsAre P d) :
    (r.addStatement d).MsgsAre P := by
  rw [Reader.addStatement]
  split
  · rename_i f hf
    exact h.withFocus (Frame.MsgsAre.addStatement (h.frame hf) hd)
  · exact ⟨forall_cons hd h.root, h.outer, h.focus⟩

theorem enter (h : r.MsgsAre P) {focus : Focus} (hfocus : focus.MsgsAre P) :
    (r.enter focus).MsgsAre P := by
  rw [Reader.enter]
  split
  · rename_i f hf
    exact ⟨h.root, List.forall_mem_cons.2 ⟨h.frame hf, h.outer⟩, hfocus⟩
  · exact h.withFocus hfocus

theorem leave (h : r.MsgsAre P) {d : Draft} (hd : Stencil.MsgsAre P d) :
    (r.leave d).MsgsAre P := by
  obtain ⟨root, outer, focus⟩ := r
  cases outer with
  | nil => exact ⟨forall_cons hd h.root, h.outer, trivial⟩
  | cons f outer =>
    obtain ⟨hf, houter⟩ := List.forall_mem_cons.1 h.outer
    exact ⟨h.root, houter, hf.addStatement hd⟩

theorem openCall (h : r.MsgsAre P) (command : String) (line : Nat) (closing : Bool)
    (content : Content) : (r.openCall command line closing content).MsgsAre P := by
  rw [Reader.openCall]
  split
  · exact h.addStatement (msgsAre_leaf _ _)
  · exact h.enter (List.forall_mem_nil _)

theorem stepStatement (h : r.MsgsAre P) (keyword : Keyword) (text : List Char) (closing : Bool)
    (line : Nat) : Ensures (MsgsAre P) (r.stepStatement scope keyword text closing line) := by
  have htrue : ∀ {α : Type} (x : Except Cause α), Ensures (fun _ => True) x :=
    fun _ _ _ => trivial
  cases keyword
  case expression | print | xid =>
    exact ensures_bind (htrue _) fun _ _ => ensures_ok (h.addStatement (msgsAre_leaf _ _))
  case ifTag =>
    refine ensures_bind (htrue _) fun _ _ => ensures_ok (h.enter ?_)
    exact ⟨fun _ hb => (nomatch hb), fun _ hd => (nomatch hd)⟩
  case call | delcall =>
    exact ensures_bind (htrue _) fun _ _ => ensures_ok (h.openCall _ _ _ _)
  case msg =>
    refine ensures_bind (htrue _) fun _ _ => ensures_ok (h.enter ?_)
    exact ⟨fun _ hm => (nomatch hm), .nil, fun _ hc => (nomatch hc)⟩
  all_goals exact ensures_error _

theorem stepItem (h : r.MsgsAre P) (keyword : Keyword) (text : List Char) (closing : Bool)
    (line : Nat) : Ensures (MsgsAre P) (r.stepItem scope keyword text closing line) := by
  cases keyword
  case expression | print | call | delcall =>
    rw [Reader.stepItem]
    exact h.stepStatement _ _ _ _
  all_goals exact ensures_error _

/-! ### Tokens -/

theorem ensures_tag {α : Type} {line : Nat} (x : Except Cause α) {f : α → Outcome Reader}
    (h : ∀ a, Ensures (MsgsAre P) (f a)) : Ensures (MsgsAre P) (atLine line x >>= f) := by
  cases x with
  | error cause => exact ensures_error _
  | ok a => exact h a

theorem stepCall (h : r.MsgsAre P) {o : OpenCall} (ho : o.MsgsAre P)
    (hcall : IsCall scope o.content) : Ensures (MsgsAre P) (r.stepCall o t) := by
  rw [Reader.stepCall]
  split
  · exact ensures_ok h
  · refine ensures_tag _ fun param => ?_
    cases param with
    | value key expr =>
      exact ensures_bind (ho.addParam key (msgsAre_leaf _ _)) fun _ ho' =>
        ensures_ok (h.withFocus ho')
    | content key kind => exact ensures_ok (h.withFocus ⟨ho, List.forall_mem_nil _⟩)
  · split
    · exact ensures_ok (h.leave (ho.close hcall))
    · exact ensures_error _
  · split
    · exact ensures_ok h
    · exact ensures_error _

theorem stepChoice (h : r.MsgsAre P) {msg : OpenMsg} (hmsg : msg.MsgsAre P) {o : OpenChoice}
    (ho : o.MsgsAre P) (hchoice : IsChoice o.command o.content) :
    Ensures (MsgsAre P) (r.stepChoice msg o t) := by
  rw [Reader.stepChoice]
  split
  · exact ensures_ok h
  · split
    · exact ensures_error _
    · split
      · exact ensures_ok (h.withFocus ⟨hmsg, ho, .nil⟩)
      · exact ensures_error _
  · split
    · exact ensures_error _
    · exact ensures_ok (h.withFocus ⟨hmsg, ho, .nil⟩)
  · split
    · refine ensures_bind (ho.close hchoice) fun choice hclosed => ensures_ok (h.withFocus ?_)
      exact ⟨hmsg.messages, hmsg.items, forall_cons hclosed hmsg.choices⟩
    · exact ensures_error _
  · split
    · exact ensures_ok h
    · exact ensures_error _

theorem endCase (h : r.MsgsAre P) {msg : OpenMsg} (hmsg : msg.MsgsAre P) {choice : OpenChoice}
    (hchoice : choice.MsgsAre P) (hcontent : IsChoice choice.command choice.content)
    {o : OpenCase} (ho : ItemsAre P o.items) :
    Ensures (MsgsAre P) (do r.stepChoice msg (← choice.addCase o) t) := by
  intro r' hok
  obtain ⟨choice', hchoice', hok⟩ := bind_eq_ok.1 hok
  refine h.stepChoice hmsg (hchoice.addCase ho choice' hchoice') ?_ r' hok
  obtain ⟨⟨parts, calls⟩, -, h⟩ := bind_eq_ok.1 hchoice'
  cases h
  exact hcontent

/-- What a token closes at a focus, if it closes a message, has the property. -/
def ClosesWith (P : Draft → Prop) (focus : Focus) (t : Placed) : Prop :=
  t.msgTag = .close ∨ t.msgTag = .fallback →
    ∀ o m rest, focus = .frame (.message o) → o.closeMessage = .ok (m :: rest) → P m

theorem stepCommand {f : Frame} {keyword : Keyword} {text : List Char} {closing : Bool}
    (h : r.MsgsAre P) (hsound : f.Sound scope) (hf : f.MsgsAre P)
    (hcloses : ClosesWith P (.frame f) t) (htoken : t.token = .command keyword text closing) :
    Ensures (MsgsAre P) (r.stepCommand scope f t keyword text closing) := by
  have hstatement : Ensures (MsgsAre P)
      (atLine t.line (r.stepStatement scope keyword text closing t.line)) :=
    ensures_mapError (h.stepStatement keyword text closing t.line)
  have hitem : Ensures (MsgsAre P)
      (atLine t.line (r.stepItem scope keyword text closing t.line)) :=
    ensures_mapError (h.stepItem keyword text closing t.line)
  cases f with
  | branch o =>
    have hnext : ∀ line condition, (o.nextBranch line condition).MsgsAre P :=
      fun _ _ => ⟨OpenIf.MsgsAre.closeBranch hf, List.forall_mem_nil _⟩
    simp only [Reader.stepCommand]
    split
    · exact ensures_tag _ fun _ => ensures_ok (h.withFocus (hnext _ _))
    · exact ensures_ok (h.withFocus (hnext _ _))
    · exact hstatement
  | param call o => exact hstatement
  | message o =>
    have hclosed : t.msgTag = .fallback →
        Ensures (fun ms => ∀ m ∈ ms, P m ∧ Stencil.MsgsAre P m) o.closeMessage := fun htag =>
      OpenMsg.MsgsAre.closeMessage hf hsound.content fun m rest => hcloses (.inr htag) o m rest rfl
    have htag : t.msgTag = _ := Placed.msgTag.eq_def t
    rw [htoken] at htag
    cases keyword
    case fallbackmsg =>
      refine ensures_bind (hclosed htag) fun messages hmessages => ?_
      split
      · refine ensures_tag _ fun _ => ensures_ok (h.withFocus ?_)
        exact ⟨hmessages, .nil, List.forall_mem_nil _⟩
      · exact ensures_error _
    case plural | select =>
      refine ensures_tag _ fun _ => ensures_ok (h.withFocus ?_)
      exact ⟨hf, List.forall_mem_nil _⟩
    all_goals exact hitem
  | case msg choice o =>
    cases keyword
    case case | default => exact h.endCase hf.1 hf.2.1 hsound.2.1.content hf.2.2
    all_goals exact hitem

theorem stepEnd {f : Frame} {name : String} (h : r.MsgsAre P) (hsound : f.Sound scope)
    (hf : f.MsgsAre P) (hcloses : ClosesWith P (.frame f) t) (htoken : t.token = .endTag name) :
    Ensures (MsgsAre P) (r.stepEnd f t name) := by
  cases f with
  | branch o =>
    simp only [Reader.stepEnd]
    split
    · exact ensures_ok (h.leave (OpenIf.MsgsAre.close hf))
    · exact ensures_error _
  | param call o =>
    simp only [Reader.stepEnd]
    split
    · have hparam : Stencil.MsgsAre P (.node o.line (.contentParam o.key o.kind) o.body.reverse) :=
        msgsAre_node rfl (forall_reverse hf.2)
      exact ensures_bind (hf.1.addParam _ hparam) fun _ hcall => ensures_ok (h.withFocus hcall)
    · exact ensures_error _
  | message o =>
    simp only [Reader.stepEnd]
    split
    · rename_i hname
      have htag : t.msgTag = .close := by rw [Placed.msgTag, htoken, hname]; rfl
      have hclosed := OpenMsg.MsgsAre.closeMessage hf hsound.content
        fun m rest => hcloses (.inl htag) o m rest rfl
      refine ensures_bind ?_ fun d hd => ensures_ok (h.leave hd)
      exact ensures_bind hclosed fun ms hms => ensures_ok
        (msgsAre_group fun m hm => hms m (List.mem_reverse.1 hm))
    · exact ensures_error _
  | case msg choice o =>
    simp only [Reader.stepEnd]
    split
    · exact h.endCase hf.1 hf.2.1 hsound.2.1.content hf.2.2
    · exact ensures_error _

theorem step (h : r.MsgsAre P) (hsound : r.Sound scope) (hcloses : ClosesWith P r.focus t) :
    Ensures (MsgsAre P) (r.step scope t) := by
  have hfocus := h.focus
  have hfocus' := hsound.focus
  rw [Reader.step]
  generalize r.focus = focus at hfocus hfocus' hcloses
  cases focus with
  | root =>
    dsimp only
    split
    · exact ensures_ok h
    · split
      · exact ensures_ok h
      · exact ensures_ok (h.addStatement (msgsAre_leaf _ _))
    · split
      · exact ensures_ok h
      · exact ensures_ok (h.addStatement (msgsAre_leaf _ _))
    · exact ensures_error _
    · exact ensures_mapError (h.stepStatement _ _ _ _)
  | frame f =>
    dsimp only
    split
    · exact ensures_ok h
    · exact ensures_ok (h.withFocus (Frame.MsgsAre.addText hfocus _ _))
    · exact ensures_ok (h.withFocus (Frame.MsgsAre.addText hfocus _ _))
    · rename_i htoken
      exact h.stepEnd hfocus' hfocus hcloses htoken
    · rename_i htoken
      exact h.stepCommand hfocus' hfocus hcloses htoken
  | call o => exact h.stepCall hfocus hfocus'.content
  | choice msg o => exact h.stepChoice hfocus.1 hfocus.2 hfocus'.2.1.content

end Reader.MsgsAre

end Body

end Stencil
