/-
  Stencil/Proofs/Body/Nesting.lean
  ================================
  **What a token does to what is open.**

  A token changes the focus, opens a construct inside it or closes it; which of
  these, and how, depends on the focus only.  So while a message is read nothing
  around it is looked at.  The tags of messages alone tell how many messages are
  open inside of one, and where it ends.
-/
import Stencil.Proofs.Body.Reader

namespace Stencil.Body

variable {scope : Scope}

/-! ### Tags of messages -/

/-- What a token is to messages: the tag of a group, and so of its first message,
    the tag of a second message, the end tag of a group, or nothing of these. -/
inductive MsgTag where
  | group
  | fallback
  | close
  | other
deriving DecidableEq, Repr

def Placed.msgTag (t : Placed) : MsgTag :=
  match t.token with
  | .command .msg _ _ => .group
  | .command .fallbackmsg _ _ => .fallback
  | .endTag name => if name = "msg" then .close else .other
  | _ => .other

/-- The tag of a message. -/
def Placed.OpensMsg (t : Placed) : Prop := t.msgTag = .group ∨ t.msgTag = .fallback

/-- The number of messages that are open inside of a message after one more
    token, `depth` of them before; none if the token ends the message itself. -/
def nest (depth : Nat) (t : Placed) : Option Nat :=
  match t.msgTag, depth with
  | .group, depth => some (depth + 1)
  | .fallback, 0 | .close, 0 => none
  | .fallback, depth + 1 => some (depth + 1)
  | .close, depth + 1 => some depth
  | .other, depth => some depth

theorem Placed.OpensMsg.exists_command {t : Placed} (h : t.OpensMsg) :
    ∃ keyword text closing, t.token = .command keyword text closing ∧
      (keyword = .msg ∨ keyword = .fallbackmsg) := by
  rw [Placed.OpensMsg, Placed.msgTag] at h
  split at h
  · rename_i htoken
    exact ⟨_, _, _, htoken, .inl rfl⟩
  · rename_i htoken
    exact ⟨_, _, _, htoken, .inr rfl⟩
  · split at h <;> simp at h
  · simp at h

/-! ### Moves -/

/-- A construct that is a message or a part of one. -/
def Focus.inMsg : Focus → Bool
  | .frame (.message _) | .frame (.case _ _ _) | .choice _ _ => true
  | _ => false

/-- An open construct; only a message group has the end tag of one. -/
def Focus.Proper : Focus → Prop
  | .root => False
  | .call o | .frame (.param o _) => o.command ≠ "msg"
  | .choice _ o | .frame (.case _ o _) => o.command ≠ .msg
  | _ => True

/-- What becomes of the focus. -/
inductive Move where
  | stay (focus : Focus)
  | enter (focus : Focus)
  | leave (d : Draft)

def Reader.move (r : Reader) : Move → Reader
  | .stay focus => { r with focus }
  | .enter focus => r.enter focus
  | .leave d => r.leave d

/-- The move goes with the tags of messages: a token at a focus makes it. -/
def Move.Fits (focus : Focus) (t : Placed) : Move → Prop
  | .stay focus' => focus'.Proper ∧ focus'.inMsg = focus.inMsg ∧
    (t.msgTag = .other ∨ t.msgTag = .fallback ∧ focus.inMsg)
  | .enter focus' => (∃ frame, focus = .frame frame) ∧ focus'.Proper ∧
    (t.msgTag = .group ∧ focus'.inMsg ∨ t.msgTag = .other ∧ focus'.inMsg = false)
  | .leave _ => t.msgTag = .close ∧ focus.inMsg ∨ t.msgTag = .other ∧ focus.inMsg = false

/-- At a focus a function of the reader makes a move, whatever is around the
    focus. -/
def MovesAt (focus : Focus) (t : Placed) (f : Reader → Outcome Reader) : Prop :=
  ∃ outcome : Outcome Move, (∀ m, outcome = .ok m → m.Fits focus t) ∧
    ∀ r : Reader, r.focus = focus → f r = outcome.map r.move

section

variable {focus : Focus} {t : Placed}

theorem movesAt_ok {f : Reader → Reader} (m : Move) (hm : m.Fits focus t)
    (hf : ∀ r : Reader, r.focus = focus → f r = r.move m) : MovesAt focus t fun r => .ok (f r) := by
  refine ⟨.ok m, ?_, fun r hr => congrArg Except.ok (hf r hr)⟩
  rintro _ ⟨⟩
  exact hm

theorem movesAt_error (fault : Fault Cause) : MovesAt focus t fun _ => .error fault :=
  ⟨.error fault, fun _ h => (nomatch h), fun _ _ => rfl⟩

theorem movesAt_bind {α : Type} {x : Outcome α} {f : α → Reader → Outcome Reader}
    (hf : ∀ a, x = .ok a → MovesAt focus t (f a)) : MovesAt focus t fun r => x >>= fun a => f a r := by
  cases x with
  | error fault => exact movesAt_error fault
  | ok a => exact hf a rfl

theorem movesAt_ite {c : Prop} [Decidable c] {f g : Reader → Outcome Reader}
    (hf : c → MovesAt focus t f) (hg : ¬ c → MovesAt focus t g) :
    MovesAt focus t fun r => if c then f r else g r := by
  by_cases hc : c
  · simpa only [if_pos hc] using hf hc
  · simpa only [if_neg hc] using hg hc

theorem movesAt_stay {focus' : Focus} (hproper : focus'.Proper) (hin : focus'.inMsg = focus.inMsg)
    (ht : t.msgTag = .other) : MovesAt focus t fun r => .ok { r with focus := focus' } :=
  movesAt_ok (.stay focus') ⟨hproper, hin, .inl ht⟩ fun _ _ => rfl

theorem movesAt_id (hproper : focus.Proper) (ht : t.msgTag = .other) : MovesAt focus t .ok :=
  movesAt_ok (f := id) (.stay focus) ⟨hproper, rfl, .inl ht⟩ fun _ hr => hr ▸ rfl

end

/-! ### Steps are moves -/

theorem inMsg_addStatement (frame : Frame) (d : Draft) :
    (Focus.frame (frame.addStatement d)).inMsg = (Focus.frame frame).inMsg := by
  cases frame <;> rfl

theorem proper_addStatement {frame : Frame} {d : Draft} :
    (Focus.frame (frame.addStatement d)).Proper ↔ (Focus.frame frame).Proper := by
  cases frame <;> rfl

theorem inMsg_addText (frame : Frame) (chars : List Char) (line : Nat) :
    (Focus.frame (frame.addText chars line)).inMsg = (Focus.frame frame).inMsg := by
  cases frame with
  | branch | param =>
    rw [Frame.addText.eq_def]
    dsimp only
    split <;> rfl
  | message | case => rfl

theorem proper_addText {frame : Frame} {chars : List Char} {line : Nat} :
    (Focus.frame (frame.addText chars line)).Proper ↔ (Focus.frame frame).Proper := by
  cases frame with
  | branch | param =>
    rw [Frame.addText.eq_def]
    dsimp only
    split <;> rfl
  | message | case => rfl

theorem atLine_bind {α β : Type} (line : Nat) (x : Except Cause α) (f : α → Except Cause β) :
    atLine line (x >>= f) = atLine line x >>= fun a => atLine line (f a) := by
  cases x <;> rfl

namespace Reader

variable {t : Placed} {frame : Frame}

theorem addStatement_of_frame {r : Reader} (hr : r.focus = .frame frame) (d : Draft) :
    r.addStatement d = { r with focus := .frame (frame.addStatement d) } := by
  rw [Reader.addStatement, hr]

theorem movesAt_addStatement (hproper : (Focus.frame frame).Proper) (d : Draft)
    (ht : t.msgTag = .other) : MovesAt (.frame frame) t fun r => .ok (r.addStatement d) :=
  movesAt_ok (.stay (.frame (frame.addStatement d)))
    ⟨proper_addStatement.2 hproper, inMsg_addStatement frame d, .inl ht⟩
    fun _ hr => addStatement_of_frame hr d

theorem movesAt_enter {focus : Focus} (hproper : focus.Proper)
    (ht : t.msgTag = .group ∧ focus.inMsg ∨ t.msgTag = .other ∧ focus.inMsg = false) :
    MovesAt (.frame frame) t fun r => .ok (r.enter focus) :=
  movesAt_ok (.enter focus) ⟨⟨frame, rfl⟩, hproper, ht⟩ fun _ _ => rfl

theorem movesAt_leave {focus : Focus} (d : Draft)
    (ht : t.msgTag = .close ∧ focus.inMsg ∨ t.msgTag = .other ∧ focus.inMsg = false) :
    MovesAt focus t fun r => .ok (r.leave d) :=
  movesAt_ok (.leave d) ht fun _ _ => rfl

theorem movesAt_openCall (hproper : (Focus.frame frame).Proper) {command : String}
    (hcommand : command ≠ "msg") (ht : t.msgTag = .other) (closing : Bool) (content : Content) :
    MovesAt (.frame frame) t fun r => .ok (r.openCall command t.line closing content) := by
  cases closing with
  | false => exact movesAt_enter hcommand (.inr ⟨ht, rfl⟩)
  | true => exact movesAt_addStatement hproper _ ht

theorem movesAt_stepStatement {keyword : Keyword} {text : List Char} {closing : Bool}
    (hproper : (Focus.frame frame).Proper) (htoken : t.token = .command keyword text closing) :
    MovesAt (.frame frame) t
      fun r => atLine t.line (r.stepStatement scope keyword text closing t.line) := by
  have htag : t.msgTag = _ := Placed.msgTag.eq_def t
  rw [htoken] at htag
  cases keyword
  case expression | print | xid =>
    simp only [stepStatement, atLine_bind]
    exact movesAt_bind fun _ _ => movesAt_addStatement hproper _ htag
  case ifTag =>
    simp only [stepStatement, atLine_bind]
    exact movesAt_bind fun _ _ => movesAt_enter trivial (.inr ⟨htag, rfl⟩)
  case call | delcall =>
    simp only [stepStatement, atLine_bind]
    exact movesAt_bind fun _ _ => movesAt_openCall hproper (by decide) htag _ _
  case msg =>
    simp only [stepStatement, atLine_bind]
    exact movesAt_bind fun _ _ => movesAt_enter trivial (.inl ⟨htag, rfl⟩)
  all_goals exact movesAt_error _

theorem movesAt_stepItem {keyword : Keyword} {text : List Char} {closing : Bool}
    (hproper : (Focus.frame frame).Proper) (htoken : t.token = .command keyword text closing) :
    MovesAt (.frame frame) t
      fun r => atLine t.line (r.stepItem scope keyword text closing t.line) := by
  cases keyword
  case expression | print | call | delcall =>
    simp only [stepItem]
    exact movesAt_stepStatement hproper htoken
  all_goals exact movesAt_error _

/-- White space between the parts of a construct is passed over. -/
theorem movesAt_blank {focus : Focus} (hproper : focus.Proper) (fault : Fault Cause) :
    MovesAt focus t fun r => if t.token.isBlankText then .ok r else .error fault := by
  refine movesAt_ite (fun hblank => movesAt_id hproper ?_) fun _ => movesAt_error _
  rw [Placed.msgTag]
  cases htoken : t.token with
  | text | literal | doc => rfl
  | command | endTag =>
    rw [htoken] at hblank
    cases hblank

theorem ne_msg_of_addParam {o o' : OpenCall} {key : String} {param : Draft}
    (hproper : o.command ≠ "msg") (h : o.addParam key param = .ok o') : o'.command ≠ "msg" := by
  rw [OpenCall.addParam] at h
  split at h
  · cases h
  · cases h
    exact hproper

theorem movesAt_stepCall {o : OpenCall} (hproper : (Focus.call o).Proper) :
    MovesAt (.call o) t fun r => r.stepCall o t := by
  have hblank : MovesAt (.call o) t fun r =>
      if t.token.isBlankText then .ok r else .error ⟨.onlyParams o.command, t.line⟩ :=
    movesAt_blank hproper _
  have htag : t.msgTag = _ := Placed.msgTag.eq_def t
  simp only [stepCall]
  cases htoken : t.token with
  | doc _ => exact movesAt_id hproper (by rw [htag, htoken])
  | endTag name =>
    refine movesAt_ite (fun hname => movesAt_leave _ (.inr ⟨?_, rfl⟩)) fun _ => movesAt_error _
    rw [htag, htoken]
    exact if_neg (hname ▸ hproper)
  | text | literal =>
    rw [htoken] at hblank
    exact hblank
  | command keyword text closing =>
    rw [htoken] at hblank htag
    cases keyword
    case param =>
      refine movesAt_bind fun param _ => ?_
      cases param with
      | value key expr =>
        exact movesAt_bind fun o' ho' => movesAt_stay (ne_msg_of_addParam hproper ho') rfl htag
      | content key kind => exact movesAt_stay hproper rfl htag
    all_goals exact hblank

theorem movesAt_stepChoice {focus : Focus} {msg : OpenMsg} {o : OpenChoice}
    (hproper : focus.Proper) (hin : focus.inMsg) (ho : o.command ≠ .msg) :
    MovesAt focus t fun r => r.stepChoice msg o t := by
  have hblank : MovesAt focus t fun r =>
      if t.token.isBlankText then .ok r else .error ⟨.expectedCase o.command.name, t.line⟩ :=
    movesAt_blank hproper _
  have htag : t.msgTag = _ := Placed.msgTag.eq_def t
  simp only [stepChoice]
  cases htoken : t.token with
  | doc _ => exact movesAt_id hproper (by rw [htag, htoken])
  | endTag name =>
    refine movesAt_ite (fun hname => movesAt_bind fun choice _ => ?_) fun _ => movesAt_error _
    refine movesAt_stay trivial hin.symm ?_
    rw [htag, htoken]
    refine if_neg ?_
    rw [hname]
    cases hcommand : o.command <;> first | exact absurd hcommand ho | decide
  | text | literal =>
    rw [htoken] at hblank
    exact hblank
  | command keyword text closing =>
    rw [htoken] at hblank htag
    cases keyword
    case case =>
      refine movesAt_ite (fun _ => movesAt_error _) fun _ => ?_
      cases caseLabel? o.command text with
      | none => exact movesAt_error _
      | some label => exact movesAt_stay ho hin.symm htag
    case default =>
      exact movesAt_ite (fun _ => movesAt_error _) fun _ => movesAt_stay ho hin.symm htag
    all_goals exact hblank

theorem ne_msg_of_addCase {o o' : OpenChoice} {case : OpenCase} (ho : o.command ≠ .msg)
    (h : o.addCase case = .ok o') : o'.command ≠ .msg := by
  obtain ⟨⟨parts, calls⟩, -, h⟩ := bind_eq_ok.1 h
  cases h
  exact ho

theorem movesAt_endCase {msg : OpenMsg} {choice : OpenChoice} {o : OpenCase}
    (hproper : choice.command ≠ .msg) :
    MovesAt (.frame (.case msg choice o)) t
      fun r => (do r.stepChoice msg (← choice.addCase o) t) :=
  movesAt_bind fun _ hchoice =>
    movesAt_stepChoice hproper rfl (ne_msg_of_addCase hproper hchoice)

theorem movesAt_stepCommand {keyword : Keyword} {text : List Char} {closing : Bool}
    (hproper : (Focus.frame frame).Proper) (htoken : t.token = .command keyword text closing) :
    MovesAt (.frame frame) t fun r => r.stepCommand scope frame t keyword text closing := by
  have hstatement : MovesAt (.frame frame) t fun r =>
      atLine t.line (r.stepStatement scope keyword text closing t.line) :=
    movesAt_stepStatement hproper htoken
  have hitem : MovesAt (.frame frame) t fun r =>
      atLine t.line (r.stepItem scope keyword text closing t.line) :=
    movesAt_stepItem hproper htoken
  have htag : t.msgTag = _ := Placed.msgTag.eq_def t
  rw [htoken] at htag
  cases frame with
  | branch o =>
    simp only [stepCommand]
    split
    · exact movesAt_bind fun _ _ => movesAt_stay trivial rfl htag
    · exact movesAt_stay trivial rfl htag
    · exact hstatement
  | param call o => exact hstatement
  | message o =>
    cases keyword
    case fallbackmsg =>
      refine movesAt_bind fun _ _ => movesAt_ite (fun _ => ?_) fun _ => movesAt_error _
      refine movesAt_bind fun _ _ => movesAt_ok (.stay _) ⟨?_, ?_, .inr ⟨htag, rfl⟩⟩ fun _ _ => rfl
      · trivial
      · rfl
    case plural | select =>
      exact movesAt_bind fun _ _ => movesAt_stay (by simp [Focus.Proper]) rfl htag
    all_goals exact hitem
  | case msg choice o =>
    cases keyword
    case case | default => exact movesAt_endCase hproper
    all_goals exact hitem

theorem movesAt_stepEnd {name : String} (hproper : (Focus.frame frame).Proper)
    (htoken : t.token = .endTag name) :
    MovesAt (.frame frame) t fun r => r.stepEnd frame t name := by
  have htag : t.msgTag = if name = "msg" then .close else .other := by rw [Placed.msgTag, htoken]
  cases frame with
  | branch o =>
    refine movesAt_ite (fun hname => movesAt_leave _ (.inr ⟨?_, rfl⟩)) fun _ => movesAt_error _
    rw [htag, hname]
    rfl
  | param call o =>
    refine movesAt_ite (fun hname => movesAt_bind fun call' hcall' => ?_) fun _ => movesAt_error _
    refine movesAt_stay (ne_msg_of_addParam hproper hcall') rfl ?_
    rw [htag, hname]
    rfl
  | message o =>
    refine movesAt_ite (fun hname => movesAt_bind fun d _ => movesAt_leave d (.inl ⟨?_, rfl⟩))
      fun _ => movesAt_error _
    rw [htag, if_pos hname]
  | case msg choice o =>
    exact movesAt_ite (fun _ => movesAt_endCase hproper) fun _ => movesAt_error _

/-- A step below the root is a move. -/
theorem movesAt_step {focus : Focus} (hproper : focus.Proper) :
    MovesAt focus t fun r => r.step scope t := by
  have hstep : ∀ f : Reader → Outcome Reader,
      (∀ r : Reader, r.focus = focus → r.step scope t = f r) → MovesAt focus t f →
      MovesAt focus t fun r => r.step scope t := by
    rintro f hf ⟨outcome, hfits, h⟩
    exact ⟨outcome, hfits, fun r hr => (hf r hr).trans (h r hr)⟩
  have htag : t.msgTag = _ := Placed.msgTag.eq_def t
  cases focus with
  | root => exact hproper.elim
  | call o =>
    exact hstep _ (fun r hr => by rw [Reader.step, hr]) (movesAt_stepCall hproper)
  | choice msg o =>
    exact hstep _ (fun r hr => by rw [Reader.step, hr]) (movesAt_stepChoice hproper rfl hproper)
  | frame f =>
    cases htoken : t.token with
    | doc chars =>
      exact hstep .ok (fun r hr => by rw [Reader.step, hr]; simp only [htoken])
        (movesAt_id hproper (by rw [htag, htoken]))
    | text chars | literal chars =>
      refine hstep (fun r => .ok { r with focus := .frame (f.addText chars t.line) })
        (fun r hr => by rw [Reader.step, hr]; simp only [htoken]) ?_
      exact movesAt_stay (proper_addText.2 hproper) (inMsg_addText f chars t.line)
        (by rw [htag, htoken])
    | endTag name =>
      exact hstep _ (fun r hr => by rw [Reader.step, hr]; simp only [htoken])
        (movesAt_stepEnd hproper htoken)
    | command keyword text closing =>
      refine hstep (fun r => r.stepCommand scope f t keyword text closing)
        (fun r hr => by rw [Reader.step, hr]; simp only [htoken]) ?_
      exact movesAt_stepCommand hproper htoken

/-! ### Inside of a message -/

/-- What is open, from the inside out. -/
def stack (r : Reader) : List Focus := r.focus :: r.outer.map .frame

/-- The reader with frames and statements around what it has open. -/
def under (r around : Reader) : Reader :=
  { root := around.root, outer := r.outer ++ around.outer, focus := r.focus }

end Reader

/-- The outermost open construct is a message, and inside of it `depth` messages
    are open. -/
inductive Inside : Nat → List Focus → Prop
  | message {f : Focus} (hproper : f.Proper) (hin : f.inMsg) : Inside 0 [f]
  | inner {depth : Nat} {f : Focus} {rest : List Focus} (hproper : f.Proper)
      (h : Inside depth rest) : Inside (depth + f.inMsg.toNat) (f :: rest)

namespace Inside

variable {depth depth' : Nat} {f f' : Focus} {rest : List Focus} {t : Placed}

theorem proper (h : Inside depth (f :: rest)) : f.Proper := by
  cases h <;> assumption

theorem withFocus (h : Inside depth (f :: rest)) (hproper : f'.Proper) (hin : f'.inMsg = f.inMsg) :
    Inside depth (f' :: rest) := by
  cases h with
  | message _ hmsg => exact .message hproper (hin.trans hmsg)
  | inner _ hrest =>
    rw [← hin]
    exact .inner hproper hrest

end Inside

namespace Reader

variable {depth depth' : Nat} {f : Focus} {t : Placed} {r around : Reader}

/-- A move that fits a token and does not end the message keeps what is around
    the message, and changes the depth as the token says. -/
theorem move_under {m : Move} (h : Inside depth r.stack) (hm : m.Fits r.focus t)
    (hnest : nest depth t = some depth') : (r.under around).move m = (r.move m).under around ∧
      Inside depth' (r.move m).stack := by
  obtain ⟨root, outer, focus⟩ := r
  rw [nest.eq_def] at hnest
  cases m with
  | stay focus' =>
    obtain ⟨hproper, hin, ht⟩ := hm
    refine ⟨rfl, ?_⟩
    have hdepth : depth' = depth := by
      rcases ht with ht | ⟨ht, -⟩ <;> rw [ht] at hnest <;> grind
    exact hdepth ▸ h.withFocus hproper hin
  | enter focus' =>
    obtain ⟨⟨frame, rfl⟩, hproper, ht⟩ := hm
    refine ⟨rfl, ?_⟩
    have hdepth : depth' = depth + focus'.inMsg.toNat := by
      rcases ht with ⟨ht, hin⟩ | ⟨ht, hin⟩ <;> rw [ht] at hnest <;> rw [hin] <;> grind
    exact hdepth ▸ .inner hproper h
  | leave d =>
    cases outer with
    | nil =>
      -- nothing but the message is open, and the token would end it
      cases h with
      | message _ hmsg =>
        rcases hm with ⟨ht, -⟩ | ⟨-, hin⟩
        · rw [ht] at hnest
          cases hnest
        · exact absurd hmsg (ne_true_of_eq_false hin)
      | inner _ h => cases h
    | cons frame outer =>
      refine ⟨rfl, ?_⟩
      cases h with
      | @inner depth _ _ _ h =>
        dsimp only at hm
        have hdepth : depth' = depth := by
          rcases hm with ⟨ht, hin⟩ | ⟨ht, hin⟩ <;> rw [ht, hin] at hnest <;> grind
        rw [hdepth]
        exact h.withFocus (proper_addStatement.2 h.proper) (inMsg_addStatement frame d)

theorem step_under {r' : Reader} (h : Inside depth r.stack) (hnest : nest depth t = some depth')
    (hok : (r.under around).step scope t = .ok r') :
    ∃ inner, r.step scope t = .ok inner ∧ r' = inner.under around ∧ Inside depth' inner.stack := by
  have hstep : MovesAt r.focus t fun r => r.step scope t := movesAt_step h.proper
  obtain ⟨outcome, hfits, hmove⟩ := hstep
  -- the focus is the same with and without the surroundings, and so is the move
  obtain ⟨m, rfl, rfl⟩ := map_eq_ok.1 ((hmove (r.under around) rfl).symm.trans hok)
  obtain ⟨hunder, hinside⟩ := move_under h (hfits m rfl) hnest
  exact ⟨r.move m, hmove r rfl, hunder, hinside⟩

/-- A message is read like one that has nothing around it. -/
theorem run_under {ts : List Placed} {r' : Reader} (h : Inside depth r.stack)
    (hnest : ts.foldlM nest depth = some depth')
    (hok : ts.foldlM (step scope) (r.under around) = .ok r') :
    ∃ inner, ts.foldlM (step scope) r = .ok inner ∧ r' = inner.under around ∧
      Inside depth' inner.stack := by
  induction ts generalizing r depth with
  | nil =>
    cases hnest
    cases hok
    exact ⟨r, rfl, rfl, h⟩
  | cons t ts ih =>
    rw [List.foldlM_cons] at hnest
    obtain ⟨mid, hmid, hnest⟩ := Option.bind_eq_some_iff.1 hnest
    rw [List.foldlM_cons, bind_eq_ok] at hok
    obtain ⟨r₁, hr₁, hok⟩ := hok
    obtain ⟨inner₁, hinner₁, rfl, hinside⟩ := step_under h hmid hr₁
    obtain ⟨inner, hinner, hr', hinside'⟩ := ih hinside hnest hok
    exact ⟨inner, by rw [List.foldlM_cons, hinner₁]; exact hinner, hr', hinside'⟩

/-- The tag of a message opens a message that has nothing in it. -/
theorem exists_message_of_opensMsg (ht : t.OpensMsg)
    (h : r.step scope t = .ok r') :
    ∃ o : OpenMsg, r'.focus = .frame (.message o) ∧ o.items = [] ∧ o.choices = [] := by
  obtain ⟨keyword, text, closing, htoken, hkeyword⟩ := ht.exists_command
  have hstatement : ∀ line, r.stepStatement scope keyword text closing line = .ok r' →
      ∃ o : OpenMsg, r'.focus = .frame (.message o) ∧ o.items = [] ∧ o.choices = [] := by
    intro line hok
    rcases hkeyword with rfl | rfl
    · obtain ⟨content, -, hok⟩ := bind_eq_ok.1 hok
      cases hok
      rw [Reader.enter]
      split <;> exact ⟨_, rfl, rfl, rfl⟩
    · cases hok
  have hitem : ∀ line, r.stepItem scope keyword text closing line ≠ .ok r' := by
    intro line hok
    rcases hkeyword with rfl | rfl <;> cases hok
  rw [Reader.step] at h
  cases hfocus : r.focus with
  | root =>
    simp only [hfocus, htoken] at h
    exact hstatement _ (atLine_eq_ok.1 h)
  | call o =>
    rcases hkeyword with rfl | rfl <;>
      simp [hfocus, Reader.stepCall, htoken, Token.isBlankText] at h
  | choice msg o =>
    rcases hkeyword with rfl | rfl <;>
      simp [hfocus, Reader.stepChoice, htoken, Token.isBlankText] at h
  | frame f =>
    simp only [hfocus, htoken] at h
    cases f with
    | branch o =>
      rcases hkeyword with rfl | rfl <;> exact hstatement _ (atLine_eq_ok.1 h)
    | param call o => exact hstatement _ (atLine_eq_ok.1 h)
    | message o =>
      rcases hkeyword with rfl | rfl
      · exact absurd (atLine_eq_ok.1 h) (hitem _)
      · obtain ⟨messages, -, h⟩ := bind_eq_ok.1 h
        split at h
        · obtain ⟨content, -, h⟩ := bind_eq_ok.1 h
          cases h
          exact ⟨_, rfl, rfl, rfl⟩
        · cases h
    | case msg choice o =>
      rcases hkeyword with rfl | rfl <;> exact absurd (atLine_eq_ok.1 h) (hitem _)

end Reader

end Stencil.Body
