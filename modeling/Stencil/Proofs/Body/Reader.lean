/-
  Stencil/Proofs/Body/Reader.lean
  ===============================
  **The reader of a body keeps to the rules.**

  Whatever is open holds only what the rules allow, and whatever is closed is an
  instance of a rule.  What is open directly inside a message is a call, so a
  message takes nothing but prints and calls; the default case closes a plural or
  select to further cases.
-/
import Mathlib.Data.List.Nodup
import Stencil.Proofs.Body.Grammar

namespace Stencil.Body

/-! ### What is open -/

variable {scope : Scope}

/-- Items of a message. -/
structure ItemsSound (scope : Scope) (items : List Message.Item) : Prop where
  reads : ∀ d, .statement d ∈ items → Reads scope .statement d
  kinds : ∀ d, .statement d ∈ items → IsItem d.content

structure OpenIf.Sound (scope : Scope) (o : OpenIf) : Prop where
  branches : ∀ b ∈ o.branches, Reads scope .branch b
  body : ∀ d ∈ o.body, Reads scope .statement d

structure OpenCall.Sound (scope : Scope) (o : OpenCall) : Prop where
  content : IsCall scope o.content
  params : ∀ p ∈ o.params, Reads scope .param p
  keys : (o.params.map (·.content.paramKey?)).Nodup

structure OpenParam.Sound (scope : Scope) (o : OpenParam) : Prop where
  param : ∃ text closing, callParam text closing = .ok (.content o.key o.kind)
  body : ∀ d ∈ o.body, Reads scope .statement d

structure OpenMsg.Sound (scope : Scope) (o : OpenMsg) : Prop where
  content : IsMsg o.content
  messages : ∀ m ∈ o.messages, Reads scope .message m
  count : o.messages.length ≤ 1
  items : ItemsSound scope o.items
  choices : ∀ c ∈ o.choices, Reads scope .choice c

/-- What holds of a plural or select, between cases and while a case is open. -/
structure OpenChoice.Sound (scope : Scope) (o : OpenChoice) : Prop where
  content : IsChoice o.command o.content
  cases : ∀ c ∈ o.cases, Reads scope .case c

/-- Between cases the default case is the last one, if there is one. -/
def OpenChoice.DefaultLast (o : OpenChoice) : Prop :=
  if o.hasDefault then
    ∃ default labelled, o.cases = default :: labelled ∧ default.content = .case .default ∧
      ∀ c ∈ labelled, IsLabelled c
  else ∀ c ∈ o.cases, IsLabelled c

structure OpenCase.Sound (scope : Scope) (choice : OpenChoice) (o : OpenCase) : Prop where
  label : IsLabel choice.command o.label
  items : ItemsSound scope o.items
  /-- The cases before the open one. -/
  labelled : ∀ c ∈ choice.cases, IsLabelled c
  default : choice.hasDefault ↔ o.label = .default

def Frame.Sound (scope : Scope) : Frame → Prop
  | .branch o => o.Sound scope
  | .param call o => call.Sound scope ∧ o.Sound scope
  | .message o => o.Sound scope
  | .case msg choice o => msg.Sound scope ∧ choice.Sound scope ∧ o.Sound scope choice

def Focus.Sound (scope : Scope) : Focus → Prop
  | .root => True
  | .frame f => f.Sound scope
  | .call o => o.Sound scope
  | .choice msg o => msg.Sound scope ∧ o.Sound scope ∧ o.DefaultLast

/-- A frame that takes items of a message. -/
def Frame.takesItems : Frame → Prop
  | .message _ | .case _ _ _ => True
  | _ => False

/-- A focus that becomes a call when it is closed. -/
def Focus.isCall : Focus → Prop
  | .call _ | .frame (.param _ _) => True
  | _ => False

/-- What is open directly inside a message is a call. -/
def Nested : Focus → List Frame → Prop
  | _, [] => True
  | focus, frame :: outer => (frame.takesItems → focus.isCall) ∧ Nested (.frame frame) outer

structure Reader.Sound (scope : Scope) (r : Reader) : Prop where
  root : ∀ d ∈ r.root, Reads scope .statement d
  outer : ∀ f ∈ r.outer, f.Sound scope
  focus : r.focus.Sound scope
  nested : Nested r.focus r.outer

/-! ### Closing -/

theorem atLine_eq_ok {α : Type} {line : Nat} {result : Except Cause α} {a : α} :
    atLine line result = .ok a ↔ result = .ok a := mapError_eq_ok

theorem assembled_eq_ok {calls : Nat} {items : List Message.Item}
    {result : List Draft × Nat} :
    assembled calls items = .ok result ↔ Message.assemble calls items.reverse = .ok result :=
  mapError_eq_ok

theorem ItemsSound.nil : ItemsSound scope [] :=
  ⟨fun _ hd => (nomatch hd), fun _ hd => (nomatch hd)⟩

theorem ItemsSound.reverse {items : List Message.Item} (h : ItemsSound scope items) :
    ItemsSound scope items.reverse :=
  ⟨fun d hd => h.reads d (List.mem_reverse.1 hd), fun d hd => h.kinds d (List.mem_reverse.1 hd)⟩

namespace OpenIf

variable {o : OpenIf}

theorem Sound.closeBranch (h : o.Sound scope) : ∀ b ∈ o.closeBranch, Reads scope .branch b := by
  intro b hb
  rcases List.mem_cons.1 hb with rfl | hb
  · exact .branch _ _ fun d hd => h.body d (List.mem_reverse.1 hd)
  · exact h.branches b hb

theorem Sound.close (h : o.Sound scope) : Reads scope .statement o.close :=
  .conditional _ fun b hb => h.closeBranch b (List.mem_reverse.1 hb)

theorem Sound.nextBranch (h : o.Sound scope) (line : Nat) (condition : Option Expr) :
    (o.nextBranch line condition).Sound scope :=
  ⟨h.closeBranch, fun _ hd => nomatch hd⟩

end OpenIf

namespace OpenCall

variable {o o' : OpenCall}

theorem Sound.close (h : o.Sound scope) : Reads scope .statement o.close := by
  refine .call _ h.content (fun p hp => h.params p (List.mem_reverse.1 hp)) ?_
  rw [List.map_reverse, List.nodup_reverse]
  exact h.keys

theorem Sound.addParam {key : String} {param : Draft} (h : o.Sound scope)
    (hparam : Reads scope .param param) (hkey : param.content.paramKey? = some key)
    (hok : o.addParam key param = .ok o') : o'.Sound scope := by
  rw [OpenCall.addParam] at hok
  split at hok
  · cases hok
  · rename_i hnew
    cases hok
    refine ⟨h.content, ?_, ?_⟩
    · intro p hp
      rcases List.mem_cons.1 hp with rfl | hp
      · exact hparam
      · exact h.params p hp
    · rw [List.map_cons, List.nodup_cons, hkey]
      refine ⟨fun hmem => hnew ?_, h.keys⟩
      obtain ⟨p, hp, hp'⟩ := List.mem_map.1 hmem
      exact List.any_eq_true.2 ⟨p, hp, by rw [hp', beq_self_eq_true]⟩

theorem Sound.addOpenParam {p : OpenParam} (h : o.Sound scope) (hp : p.Sound scope)
    (hok : o.addOpenParam p = .ok o') : o'.Sound scope := by
  obtain ⟨text, closing, hparam⟩ := hp.param
  refine h.addParam (.contentParam _ hparam fun d hd => ?_) rfl hok
  exact hp.body d (List.mem_reverse.1 hd)

end OpenCall

namespace OpenChoice

variable {o o' : OpenChoice}

theorem Sound.addCase {case : OpenCase} (h : o.Sound scope) (hcase : case.Sound scope o)
    (hok : o.addCase case = .ok o') : o'.Sound scope ∧ o'.DefaultLast := by
  simp only [OpenChoice.addCase, bind_eq_ok, assembled_eq_ok, Prod.exists] at hok
  obtain ⟨parts, calls, hparts, hok⟩ := hok
  cases hok
  have hread : Reads scope .case (.node case.line (.case case.label) parts) :=
    .case _ hcase.label hcase.items.reverse.reads hcase.items.reverse.kinds hparts
  refine ⟨⟨h.content, ?_⟩, ?_⟩
  · intro c hc
    rcases List.mem_cons.1 hc with rfl | hc
    · exact hread
    · exact h.cases c hc
  · -- the flag is set just in case the open case is the default case
    rw [DefaultLast]
    split
    · rename_i hdefault
      refine ⟨_, _, rfl, ?_, hcase.labelled⟩
      rw [Tree.content_node, hcase.default.1 hdefault]
    · rename_i hdefault
      intro c hc
      rcases List.mem_cons.1 hc with rfl | hc
      · intro hlabel
        rw [Tree.content_node, Content.case.injEq] at hlabel
        exact hdefault (hcase.default.2 hlabel)
      · exact hcase.labelled c hc

theorem Sound.close {d : Draft} (h : o.Sound scope) (hlast : o.DefaultLast)
    (hok : o.close = .ok d) : Reads scope .choice d := by
  rw [OpenChoice.close] at hok
  split at hok
  · rename_i hdefault
    cases hok
    rw [DefaultLast, if_pos hdefault] at hlast
    obtain ⟨default, labelled, hcases, hcontent, hlabelled⟩ := hlast
    have hreads := h.cases
    rw [hcases] at hreads ⊢
    rw [List.reverse_cons]
    refine .choice _ h.content (fun c hc => hreads c ?_) (fun c hc => ?_) hcontent
    · rw [← List.reverse_cons] at hc
      exact List.mem_reverse.1 hc
    · exact hlabelled c (List.mem_reverse.1 hc)
  · cases hok

theorem sound_start {command : Keyword} {content : Content} (h : IsChoice command content)
    (line : Nat) : Sound scope { line, command, content } :=
  ⟨h, fun _ hc => (nomatch hc)⟩

theorem defaultLast_start (command : Keyword) (content : Content) (line : Nat) :
    DefaultLast { line, command, content } := by
  intro c hc
  cases hc

end OpenChoice

namespace OpenMsg

variable {o : OpenMsg}

theorem sound_start {content : Content} {messages : List Draft} (h : IsMsg content)
    (hmessages : ∀ m ∈ messages, Reads scope .message m) (hcount : messages.length ≤ 1)
    (groupLine line : Nat) : Sound scope { groupLine, messages, line, content } :=
  ⟨h, hmessages, hcount, .nil, fun _ hc => (nomatch hc)⟩

theorem Sound.addChoice {choice : Draft} (h : o.Sound scope) (hchoice : Reads scope .choice choice) :
    Sound scope { o with choices := choice :: o.choices } := by
  refine { h with choices := ?_ }
  intro c hc
  rcases List.mem_cons.1 hc with rfl | hc
  · exact hchoice
  · exact h.choices c hc

theorem Sound.closeMessage {messages : List Draft} (h : o.Sound scope)
    (hok : o.closeMessage = .ok messages) :
    (∀ m ∈ messages, Reads scope .message m) ∧ messages.length = o.messages.length + 1 := by
  simp only [OpenMsg.closeMessage, bind_eq_ok] at hok
  obtain ⟨body, hbody, hok⟩ := hok
  cases hok
  refine ⟨?_, rfl⟩
  intro m hm
  rcases List.mem_cons.1 hm with rfl | hm
  · rw [OpenMsg.body] at hbody
    split at hbody
    · simp only [bind_eq_ok, assembled_eq_ok, Prod.exists] at hbody
      obtain ⟨parts, calls, hparts, hbody⟩ := hbody
      cases hbody
      exact .message _ h.content h.items.reverse.reads h.items.reverse.kinds hparts
    · rename_i choice hchoices
      split at hbody
      · cases hbody
        exact .choiceMessage _ h.content (h.choices choice (by simp [hchoices]))
      · cases hbody
    · cases hbody
  · exact h.messages m hm

theorem Sound.close {d : Draft} (h : o.Sound scope) (hok : o.close = .ok d) :
    Reads scope .statement d := by
  simp only [OpenMsg.close, bind_eq_ok] at hok
  obtain ⟨messages, hmessages, hok⟩ := hok
  cases hok
  obtain ⟨hreads, hlength⟩ := h.closeMessage hmessages
  have hcount := h.count
  refine .group _ (fun m hm => hreads m (List.mem_reverse.1 hm)) ?_
  rw [List.length_reverse]
  omega

end OpenMsg

/-! ### Statements in frames -/

theorem ItemsSound.cons {items : List Message.Item} {d : Draft} (h : ItemsSound scope items)
    (hd : Reads scope .statement d) (hitem : IsItem d.content) :
    ItemsSound scope (.statement d :: items) := by
  refine ⟨fun e he => ?_, fun e he => ?_⟩
  all_goals rcases List.mem_cons.1 he with he | he
  · cases he
    exact hd
  · exact h.reads e he
  · cases he
    exact hitem
  · exact h.kinds e he

theorem ItemsSound.consText {items : List Message.Item} (h : ItemsSound scope items)
    (chars : List Char) (line : Nat) : ItemsSound scope (.text chars line :: items) := by
  refine ⟨fun e he => ?_, fun e he => ?_⟩
  all_goals rcases List.mem_cons.1 he with he | he
  · cases he
  · exact h.reads e he
  · cases he
  · exact h.kinds e he

namespace Frame

variable {f : Frame} {d : Draft}

theorem Sound.addStatement (h : f.Sound scope) (hd : Reads scope .statement d)
    (hitem : f.takesItems → IsItem d.content) : (f.addStatement d).Sound scope := by
  have hcons : ∀ {ds : List Draft}, (∀ e ∈ ds, Reads scope .statement e) →
      ∀ e ∈ d :: ds, Reads scope .statement e := by
    intro ds hds e he
    rcases List.mem_cons.1 he with rfl | he
    · exact hd
    · exact hds e he
  cases f with
  | branch o => exact ⟨h.branches, hcons h.body⟩
  | param call o => exact ⟨h.1, h.2.param, hcons h.2.body⟩
  | message o => exact { h with items := h.items.cons hd (hitem trivial) }
  | case msg choice o =>
    exact ⟨h.1, h.2.1, { h.2.2 with items := h.2.2.items.cons hd (hitem trivial) }⟩

/-- Outside of messages text is a statement unless it is empty. -/
theorem addText_of_not_takesItems (h : ¬ f.takesItems) (chars : List Char) (line : Nat) :
    f.addText chars line =
      if chars.isEmpty then f else f.addStatement (.leaf line (.rawText (String.ofList chars))) := by
  cases f with
  | branch o => rfl
  | param call o => rfl
  | message o => exact absurd trivial h
  | case msg choice o => exact absurd trivial h

theorem Sound.addText (h : f.Sound scope) (chars : List Char) (line : Nat) :
    (f.addText chars line).Sound scope := by
  by_cases htakes : f.takesItems
  · cases f with
    | branch o => exact htakes.elim
    | param call o => exact htakes.elim
    | message o => exact { h with items := h.items.consText chars line }
    | case msg choice o =>
      exact ⟨h.1, h.2.1, { h.2.2 with items := h.2.2.items.consText chars line }⟩
  · rw [addText_of_not_takesItems htakes]
    split
    · exact h
    · rename_i hchars
      apply h.addStatement (.text _ _ _) (absurd · htakes)
      intro hnil
      exact hchars (List.isEmpty_iff.2 hnil)

theorem isCall_addStatement (f : Frame) (d : Draft) :
    (Focus.frame (f.addStatement d)).isCall ↔ (Focus.frame f).isCall := by
  cases f <;> rfl

theorem isCall_addText (f : Frame) (chars : List Char) (line : Nat) :
    (Focus.frame (f.addText chars line)).isCall ↔ (Focus.frame f).isCall := by
  by_cases htakes : f.takesItems
  · cases f with
    | branch o => exact htakes.elim
    | param call o => exact htakes.elim
    | message o => rfl
    | case msg choice o => rfl
  · rw [addText_of_not_takesItems htakes]
    split
    · rfl
    · exact isCall_addStatement f _

end Frame

namespace Reader

variable {r r' : Reader} {d : Draft}

theorem Sound.frame {f : Frame} (h : r.Sound scope) (hfocus : r.focus = .frame f) :
    f.Sound scope := by
  have hsound := h.focus
  rwa [hfocus] at hsound

theorem not_isCall_of_focus {focus : Focus} (hfocus : r.focus = focus) (h : ¬ focus.isCall) :
    ¬ r.focus.isCall := by
  rwa [hfocus]

theorem nested_congr {focus focus' : Focus} {outer : List Frame} (h : Nested focus outer)
    (hcall : focus.isCall → focus'.isCall) : Nested focus' outer := by
  cases outer with
  | nil => trivial
  | cons frame outer => exact ⟨fun htakes => hcall (h.1 htakes), h.2⟩

theorem Sound.withFocus {focus : Focus} (h : r.Sound scope) (hfocus : focus.Sound scope)
    (hcall : r.focus.isCall → focus.isCall) : { r with focus }.Sound scope :=
  ⟨h.root, h.outer, hfocus, nested_congr h.nested hcall⟩

theorem Sound.addRoot (h : r.Sound scope) (hd : Reads scope .statement d) :
    { r with root := d :: r.root }.Sound scope := by
  refine { h with root := fun e he => ?_ }
  rcases List.mem_cons.1 he with rfl | he
  · exact hd
  · exact h.root e he

theorem Sound.addStatement (h : r.Sound scope) (hd : Reads scope .statement d)
    (hitem : ∀ f, r.focus = .frame f → f.takesItems → IsItem d.content) :
    (r.addStatement d).Sound scope := by
  rw [Reader.addStatement]
  split
  · rename_i frame hframe
    have hfocus := h.focus
    rw [hframe] at hfocus
    refine h.withFocus (Frame.Sound.addStatement hfocus hd (hitem frame hframe)) ?_
    rw [hframe, Frame.isCall_addStatement]
    exact id
  · exact h.addRoot hd

/-- What is around the focus takes the draft that the focus became. -/
theorem Sound.leave (h : r.Sound scope) (hd : Reads scope .statement d)
    (hitem : r.focus.isCall → IsItem d.content) : (r.leave d).Sound scope := by
  obtain ⟨root, outer, focus⟩ := r
  cases outer with
  | nil => exact ⟨(h.addRoot hd).root, h.outer, trivial, trivial⟩
  | cons frame outer =>
    have hnested := h.nested
    refine ⟨h.root, fun f hf => h.outer f (List.mem_cons_of_mem _ hf), ?_, ?_⟩
    · -- a message around the focus is around a call
      exact Frame.Sound.addStatement (h.outer frame List.mem_cons_self) hd
        fun htakes => hitem (hnested.1 htakes)
    · exact nested_congr hnested.2 (Frame.isCall_addStatement frame d).2

/-- A construct that holds statements is open, or none at all. -/
def HoldsStatements (r : Reader) : Prop := r.focus = .root ∨ ∃ f, r.focus = .frame f

theorem Sound.enter {focus : Focus} (h : r.Sound scope) (hr : r.HoldsStatements)
    (hfocus : focus.Sound scope)
    (hcall : ∀ f, r.focus = .frame f → f.takesItems → focus.isCall) :
    (r.enter focus).Sound scope := by
  rw [Reader.enter]
  rcases hr with hroot | ⟨frame, hframe⟩
  · rw [hroot]
    refine h.withFocus hfocus fun hroot' => ?_
    rw [hroot] at hroot'
    exact hroot'.elim
  · have hframe' := h.focus
    have hnested := h.nested
    rw [hframe] at hframe' hnested
    rw [hframe]
    refine ⟨h.root, ?_, hfocus, hcall frame hframe, hnested⟩
    intro f hf
    rcases List.mem_cons.1 hf with rfl | hf
    · exact hframe'
    · exact h.outer f hf

/-! ### Tags that open or are statements -/

theorem Sound.openCall {command : String} {line : Nat} {selfClosing : Bool} {content : Content}
    (h : r.Sound scope) (hr : r.HoldsStatements) (hcontent : IsCall scope content) :
    (r.openCall command line selfClosing content).Sound scope := by
  rw [Reader.openCall]
  split
  · refine h.addStatement (.call _ hcontent (fun p hp => nomatch hp) List.nodup_nil) ?_
    intro _ _ _
    exact .inl (isCall_of_isCall hcontent)
  · refine h.enter hr ⟨hcontent, fun p hp => (nomatch hp), List.nodup_nil⟩ ?_
    intro _ _ _
    trivial

/-- The commands of the statements that stand in messages. -/
def IsItemKeyword (keyword : Keyword) : Prop :=
  keyword = .expression ∨ keyword = .print ∨ keyword = .call ∨ keyword = .delcall

theorem Sound.stepStatement {keyword : Keyword} {text : List Char} {selfClosing : Bool} {line : Nat}
    (h : r.Sound scope) (hr : r.HoldsStatements)
    (hitem : ∀ f, r.focus = .frame f → f.takesItems → IsItemKeyword keyword)
    (hok : r.stepStatement scope keyword text selfClosing line = .ok r') : r'.Sound scope := by
  have hnone : ∀ {P : Prop}, ¬ IsItemKeyword keyword →
      ∀ f, r.focus = .frame f → f.takesItems → P :=
    fun hkeyword f hf htakes => absurd (hitem f hf htakes) hkeyword
  cases keyword
  case expression | print =>
    simp only [Reader.stepStatement, bind_eq_ok] at hok
    obtain ⟨content, hcontent, hok⟩ := hok
    cases hok
    exact h.addStatement (.print _ hcontent) fun _ _ _ => .inr ⟨_, _, hcontent⟩
  case xid =>
    simp only [Reader.stepStatement, bind_eq_ok] at hok
    obtain ⟨content, hcontent, hok⟩ := hok
    cases hok
    exact h.addStatement (.xid _ hcontent) (hnone (by simp [IsItemKeyword]))
  case ifTag =>
    simp only [Reader.stepStatement, bind_eq_ok] at hok
    obtain ⟨condition, -, hok⟩ := hok
    cases hok
    exact h.enter hr ⟨fun b hb => (nomatch hb), fun d hd => (nomatch hd)⟩
      (hnone (by simp [IsItemKeyword]))
  case call =>
    simp only [Reader.stepStatement, bind_eq_ok] at hok
    obtain ⟨content, hcontent, hok⟩ := hok
    cases hok
    exact h.openCall hr ⟨text, .inl hcontent⟩
  case delcall =>
    simp only [Reader.stepStatement, bind_eq_ok] at hok
    obtain ⟨content, hcontent, hok⟩ := hok
    cases hok
    exact h.openCall hr ⟨text, .inr hcontent⟩
  case msg =>
    simp only [Reader.stepStatement, bind_eq_ok] at hok
    obtain ⟨content, hcontent, hok⟩ := hok
    cases hok
    have hmessages : ∀ m ∈ ([] : List Draft), Reads scope .message m := fun _ hm => (nomatch hm)
    exact h.enter hr
      (OpenMsg.sound_start ⟨text, hcontent⟩ hmessages (Nat.zero_le 1) line line)
      (hnone (by simp [IsItemKeyword]))
  all_goals cases hok

theorem Sound.stepItem {keyword : Keyword} {text : List Char} {selfClosing : Bool} {line : Nat}
    (h : r.Sound scope) (hr : r.HoldsStatements)
    (hok : r.stepItem scope keyword text selfClosing line = .ok r') : r'.Sound scope := by
  cases keyword
  case expression | print | call | delcall =>
    rw [Reader.stepItem] at hok
    exact h.stepStatement hr (fun _ _ _ => by simp [IsItemKeyword]) hok
  all_goals cases hok

/-! ### Tokens -/

theorem Sound.stepCall {o : OpenCall} {t : Placed} (h : r.Sound scope) (hfocus : r.focus = .call o)
    (hok : r.stepCall o t = .ok r') : r'.Sound scope := by
  have ho : o.Sound scope := by
    have := h.focus
    rwa [hfocus] at this
  rw [Reader.stepCall] at hok
  split at hok
  · cases hok
    exact h
  · rename_i text selfClosing htoken
    simp only [bind_eq_ok, atLine_eq_ok] at hok
    obtain ⟨param, hparam, hok⟩ := hok
    cases param with
    | value key expr =>
      simp only [bind_eq_ok] at hok
      obtain ⟨o', ho', hok⟩ := hok
      cases hok
      exact h.withFocus (ho.addParam (.valueParam _ hparam) rfl ho') fun _ => trivial
    | content key kind =>
      cases hok
      exact h.withFocus ⟨ho, ⟨⟨text, selfClosing, hparam⟩, fun d hd => (nomatch hd)⟩⟩
        fun _ => trivial
  · split at hok
    · cases hok
      exact h.leave ho.close fun _ => .inl (isCall_of_isCall ho.content)
    · cases hok
  · split at hok
    · cases hok
      exact h
    · cases hok

/-- A token between cases, also the one that ended the case before. -/
theorem Sound.stepChoice {msg : OpenMsg} {o : OpenChoice} {t : Placed} (h : r.Sound scope)
    (hcall : ¬ r.focus.isCall) (hmsg : msg.Sound scope) (ho : o.Sound scope)
    (hlast : o.DefaultLast) (hok : r.stepChoice msg o t = .ok r') : r'.Sound scope := by
  -- no case follows the default case, so what precedes a new case is labelled
  have hlabelled : ¬ o.hasDefault → ∀ c ∈ o.cases, IsLabelled c := by
    intro hdefault
    rwa [OpenChoice.DefaultLast, if_neg hdefault] at hlast
  rw [Reader.stepChoice] at hok
  split at hok
  · cases hok
    exact h
  · rename_i text selfClosing htoken
    split at hok
    · cases hok
    · rename_i hdefault
      split at hok
      · rename_i label hlabel
        cases hok
        refine h.withFocus ⟨hmsg, ho, ⟨.inr ⟨text, hlabel⟩, .nil, hlabelled hdefault, ?_⟩⟩
          (absurd · hcall)
        exact iff_of_false hdefault (ne_default_of_caseLabel? hlabel)
      · cases hok
  · split at hok
    · cases hok
    · rename_i hdefault
      cases hok
      exact h.withFocus ⟨hmsg, ⟨ho.content, ho.cases⟩,
        ⟨.inl rfl, .nil, hlabelled hdefault, iff_of_true rfl rfl⟩⟩ (absurd · hcall)
  · split at hok
    · simp only [bind_eq_ok] at hok
      obtain ⟨choice, hchoice, hok⟩ := hok
      cases hok
      exact h.withFocus (hmsg.addChoice (ho.close hlast hchoice)) (absurd · hcall)
    · cases hok
  · split at hok
    · cases hok
      exact h
    · cases hok

/-- A token that ends a case: the case is complete, and the token is taken
    between cases. -/
theorem Sound.endCase {msg : OpenMsg} {choice : OpenChoice} {o : OpenCase} {t : Placed}
    (h : r.Sound scope) (hfocus : r.focus = .frame (.case msg choice o))
    (hok : (do r.stepChoice msg (← choice.addCase o) t) = .ok r') : r'.Sound scope := by
  obtain ⟨hmsg, hchoice, ho⟩ := h.frame hfocus
  obtain ⟨choice', hchoice', hok⟩ := bind_eq_ok.1 hok
  obtain ⟨hsound, hlast⟩ := hchoice.addCase ho hchoice'
  exact h.stepChoice (not_isCall_of_focus hfocus id) hmsg hsound hlast hok

section Command

variable {t : Placed} {keyword : Keyword} {text : List Char} {selfClosing : Bool}

theorem Sound.stepStatement_of_not_takesItems {f : Frame} (h : r.Sound scope)
    (hfocus : r.focus = .frame f) (htakes : ¬ f.takesItems)
    (hok : r.stepStatement scope keyword text selfClosing t.line = .ok r') : r'.Sound scope := by
  refine h.stepStatement (.inr ⟨f, hfocus⟩) (fun f' hf' htakes' => ?_) hok
  rw [hfocus, Focus.frame.injEq] at hf'
  exact absurd (hf' ▸ htakes') htakes

theorem Sound.stepCommand_branch {o : OpenIf} (h : r.Sound scope)
    (hfocus : r.focus = .frame (.branch o))
    (hok : r.stepCommand scope (.branch o) t keyword text selfClosing = .ok r') :
    r'.Sound scope := by
  have ho : o.Sound scope := h.frame hfocus
  have hnext : ∀ line condition,
      { r with focus := .frame (.branch (o.nextBranch line condition)) }.Sound scope := by
    intro line condition
    exact h.withFocus (ho.nextBranch line condition) (absurd · (not_isCall_of_focus hfocus id))
  rw [Reader.stepCommand.eq_def] at hok
  dsimp only at hok
  split at hok
  · obtain ⟨condition, -, hok⟩ := bind_eq_ok.1 hok
    cases hok
    exact hnext t.line (some condition)
  · cases hok
    exact hnext t.line none
  · exact h.stepStatement_of_not_takesItems hfocus id (atLine_eq_ok.1 hok)

theorem Sound.stepCommand_message {o : OpenMsg} (h : r.Sound scope)
    (hfocus : r.focus = .frame (.message o))
    (hok : r.stepCommand scope (.message o) t keyword text selfClosing = .ok r') :
    r'.Sound scope := by
  have ho : o.Sound scope := h.frame hfocus
  have hcall := not_isCall_of_focus hfocus id
  have hchoice : ∀ {command content}, IsChoice command content →
      { r with focus := .choice o { line := t.line, command, content } }.Sound scope := by
    intro command content hcontent
    refine h.withFocus ⟨ho, OpenChoice.sound_start hcontent t.line, ?_⟩ (absurd · hcall)
    exact OpenChoice.defaultLast_start command content t.line
  rw [Reader.stepCommand.eq_def] at hok
  dsimp only at hok
  split at hok
  · obtain ⟨messages, hmessages, hok⟩ := bind_eq_ok.1 hok
    obtain ⟨hreads, hlength⟩ := ho.closeMessage hmessages
    split at hok
    · rename_i hempty
      simp only [bind_eq_ok, atLine_eq_ok] at hok
      obtain ⟨content, hcontent, hok⟩ := hok
      cases hok
      have hcount : messages.length ≤ 1 := by
        rw [hlength, List.isEmpty_iff.1 hempty]
        exact Nat.le_refl 1
      exact h.withFocus (OpenMsg.sound_start ⟨text, hcontent⟩ hreads hcount o.groupLine t.line)
        (absurd · hcall)
    · cases hok
  · simp only [bind_eq_ok, atLine_eq_ok] at hok
    obtain ⟨content, hcontent, hok⟩ := hok
    cases hok
    exact hchoice ⟨text, .inl ⟨rfl, hcontent⟩⟩
  · simp only [bind_eq_ok, atLine_eq_ok] at hok
    obtain ⟨content, hcontent, hok⟩ := hok
    cases hok
    exact hchoice ⟨text, .inr ⟨rfl, hcontent⟩⟩
  · exact h.stepItem (.inr ⟨_, hfocus⟩) (atLine_eq_ok.1 hok)

theorem Sound.stepCommand_case {msg : OpenMsg} {choice : OpenChoice} {o : OpenCase}
    (h : r.Sound scope) (hfocus : r.focus = .frame (.case msg choice o))
    (hok : r.stepCommand scope (.case msg choice o) t keyword text selfClosing = .ok r') :
    r'.Sound scope := by
  rw [Reader.stepCommand.eq_def] at hok
  dsimp only at hok
  split at hok
  · exact h.endCase hfocus hok
  · exact h.endCase hfocus hok
  · exact h.stepItem (.inr ⟨_, hfocus⟩) (atLine_eq_ok.1 hok)

theorem Sound.stepCommand {f : Frame} (h : r.Sound scope) (hfocus : r.focus = .frame f)
    (hok : r.stepCommand scope f t keyword text selfClosing = .ok r') : r'.Sound scope := by
  cases f with
  | branch o => exact h.stepCommand_branch hfocus hok
  | param call o =>
    rw [Reader.stepCommand.eq_def] at hok
    exact h.stepStatement_of_not_takesItems hfocus id (atLine_eq_ok.1 hok)
  | message o => exact h.stepCommand_message hfocus hok
  | case msg choice o => exact h.stepCommand_case hfocus hok

end Command

theorem Sound.stepEnd {f : Frame} {t : Placed} {name : String} (h : r.Sound scope)
    (hfocus : r.focus = .frame f) (hok : r.stepEnd f t name = .ok r') : r'.Sound scope := by
  have hf := h.frame hfocus
  rw [Reader.stepEnd.eq_def] at hok
  cases f with
  | branch o =>
    dsimp only at hok
    split at hok
    · cases hok
      exact h.leave (OpenIf.Sound.close hf) (absurd · (not_isCall_of_focus hfocus id))
    · cases hok
  | param call o =>
    dsimp only at hok
    split at hok
    · simp only [bind_eq_ok] at hok
      obtain ⟨call', hcall', hok⟩ := hok
      cases hok
      exact h.withFocus (hf.1.addOpenParam hf.2 hcall') fun _ => trivial
    · cases hok
  | message o =>
    dsimp only at hok
    split at hok
    · simp only [bind_eq_ok] at hok
      obtain ⟨d, hd, hok⟩ := hok
      cases hok
      exact h.leave (OpenMsg.Sound.close hf hd) (absurd · (not_isCall_of_focus hfocus id))
    · cases hok
  | case msg choice o =>
    dsimp only at hok
    split at hok
    · exact h.endCase hfocus hok
    · cases hok

theorem Sound.step {t : Placed} (h : r.Sound scope) (hok : r.step scope t = .ok r') :
    r'.Sound scope := by
  rw [Reader.step] at hok
  split at hok
  · rename_i o hfocus
    exact h.stepCall hfocus hok
  · rename_i msg o hfocus
    have hsound := h.focus
    rw [hfocus] at hsound
    obtain ⟨hmsg, ho, hlast⟩ := hsound
    exact h.stepChoice (not_isCall_of_focus hfocus id) hmsg ho hlast hok
  · rename_i hfocus
    have hnone : ∀ {P : Prop}, ∀ f, r.focus = .frame f → f.takesItems → P := by
      intro P f hf
      rw [hfocus] at hf
      cases hf
    have htext : ∀ chars, (if chars.isEmpty then .ok r else
        .ok (r.addStatement (.leaf t.line (.rawText (String.ofList chars)))) : Outcome Reader) =
          .ok r' → r'.Sound scope := by
      intro chars hok
      split at hok
      · cases hok
        exact h
      · rename_i hchars
        cases hok
        apply h.addStatement (.text _ _ _) hnone
        intro hnil
        exact hchars (List.isEmpty_iff.2 hnil)
    split at hok
    · cases hok
      exact h
    · exact htext _ hok
    · exact htext _ hok
    · cases hok
    · exact h.stepStatement (.inl hfocus) hnone (atLine_eq_ok.1 hok)
  · rename_i f hfocus
    have hf := h.frame hfocus
    have htext : ∀ chars line, { r with focus := .frame (f.addText chars line) }.Sound scope := by
      intro chars line
      refine h.withFocus (Frame.Sound.addText hf chars line) ?_
      rw [hfocus, Frame.isCall_addText]
      exact id
    split at hok
    · cases hok
      exact h
    · cases hok
      exact htext _ _
    · cases hok
      exact htext _ _
    · exact h.stepEnd hfocus hok
    · exact h.stepCommand hfocus hok

theorem sound_start : Sound scope {} :=
  ⟨fun _ hd => (nomatch hd), fun _ hf => (nomatch hf), trivial, trivial⟩

theorem sound_of_run {tokens : List Placed} (h : tokens.foldlM (Reader.step scope) {} = .ok r) :
    r.Sound scope :=
  foldlM_keeps (fun _ _ _ _ hs hok => hs.step hok) sound_start h

theorem Sound.finish {endLine : Nat} {drafts : List Draft} (h : r.Sound scope)
    (hok : r.finish endLine = .ok drafts) : ∀ d ∈ drafts, Reads scope .statement d := by
  rw [Reader.finish] at hok
  split at hok
  · cases hok
    exact fun d hd => h.root d (List.mem_reverse.1 hd)
  all_goals cases hok

end Reader

/-- The reader makes statements by the rules. -/
theorem read_reads {tokens : List Placed} {endLine : Nat} {drafts : List Draft}
    (h : read scope tokens endLine = .ok drafts) : ∀ d ∈ drafts, Reads scope .statement d := by
  rw [read, bind_eq_ok] at h
  obtain ⟨r, hr, hfinish⟩ := h
  exact (Reader.sound_of_run hr).finish hfinish

end Stencil.Body
