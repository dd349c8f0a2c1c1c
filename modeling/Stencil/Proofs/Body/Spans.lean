/-
  Stencil/Proofs/Body/Spans.lean
  ==============================
  **The tokens of a message.**

  A message is read from its tag to the tag that ends it, and every message of a
  body is read from tokens between such tags.  While a message is open, the
  tokens since its tag tell how many messages are open inside of it.
-/
import Stencil.Proofs.Body.Messages

namespace Stencil.Body

variable {scope : Scope}

/-- The tokens of a template body around a message: those between the tag of the
    message and the tag that ends it, and those before and after. -/
structure MsgSpan where
  before : List Placed
  opening : Placed
  inner : List Placed
  closing : Placed
  after : List Placed
  opens : opening.OpensMsg
  nested : inner.foldlM nest 0 = some 0
  closes : nest 0 closing = none

namespace MsgSpan

/-- The tokens up to the tag that ends the message. -/
def opened (m : MsgSpan) : List Placed := m.before ++ m.opening :: m.inner

def tokens (m : MsgSpan) : List Placed := m.opened ++ m.closing :: m.after

/-- What the reader has read of the message when it meets the tag that ends it. -/
def Gives (m : MsgSpan) (scope : Scope) (msg : Draft) : Prop :=
  ∃ r o messages, m.opened.foldlM (Reader.step scope) {} = .ok r ∧ r.focus = .frame (.message o) ∧
    o.closeMessage = .ok (msg :: messages)

def message? (m : MsgSpan) (scope : Scope) : Option Draft :=
  match m.opened.foldlM (Reader.step scope) {} with
  | .ok ⟨_, _, .frame (.message o)⟩ => o.closeMessage.toOption.bind List.head?
  | _ => none

theorem gives_iff_message? {m : MsgSpan} {scope : Scope} {msg : Draft} :
    m.Gives scope msg ↔ m.message? scope = some msg := by
  rw [message?]
  constructor
  · rintro ⟨⟨root, outer, focus⟩, o, messages, hr, rfl, hclose⟩
    rw [hr]
    dsimp only
    rw [hclose]
    rfl
  · intro h
    split at h
    · rename_i root outer o hr
      obtain ⟨messages, hmessages, hhead⟩ := Option.bind_eq_some_iff.1 h
      obtain ⟨rest, rfl⟩ := List.head?_eq_some_iff.1 hhead
      cases hclose : o.closeMessage with
      | error e =>
        rw [hclose] at hmessages
        cases hmessages
      | ok closed =>
        rw [hclose] at hmessages
        cases hmessages
        exact ⟨_, o, rest, hr, rfl, hclose⟩
    · cases h

end MsgSpan

/-! ### Open messages -/

/-- Each message among what is open, from the inside out, was opened by a tag
    after which `above` messages were opened and not closed inside of it. -/
def Opened (done : List Placed) : Nat → List Focus → Prop
  | _, [] => True
  | above, f :: rest =>
    (f.inMsg → ∃ before opening inner, done = before ++ opening :: inner ∧ opening.OpensMsg ∧
      inner.foldlM nest 0 = some above) ∧ Opened done (above + f.inMsg.toNat) rest

namespace Opened

variable {done : List Placed} {above above' : Nat} {f f' : Focus} {rest : List Focus} {t : Placed}

theorem withFocus (h : Opened done above (f :: rest)) (hin : f'.inMsg = f.inMsg) :
    Opened done above (f' :: rest) := by
  rw [Opened, hin]
  exact h

/-- A token that ends none of the messages counts for each of them. -/
theorem shift (h : Opened done above rest)
    (ht : ∀ n, nest (above + n) t = some (above' + n)) : Opened (done ++ [t]) above' rest := by
  induction rest generalizing above above' with
  | nil => trivial
  | cons f rest ih =>
    obtain ⟨hf, hrest⟩ := h
    refine ⟨fun hin => ?_, ih hrest fun n => ?_⟩
    · obtain ⟨before, opening, inner, rfl, hopens, hinner⟩ := hf hin
      refine ⟨before, opening, inner ++ [t], by simp, hopens, ?_⟩
      rw [List.foldlM_append, hinner]
      simpa using ht 0
    · rw [Nat.add_assoc, Nat.add_assoc]
      exact ht _

/-- The token opens the message that is read from now on. -/
theorem start (h : Opened (done ++ [t]) 1 rest) (ht : t.OpensMsg) (hin : f.inMsg) :
    Opened (done ++ [t]) 0 (f :: rest) := by
  refine ⟨fun _ => ⟨done, t, [], rfl, ht, rfl⟩, ?_⟩
  rw [hin]
  exact h

theorem skip (h : Opened done above rest) (hin : f.inMsg = false) :
    Opened done above (f :: rest) := by
  rw [Opened, hin]
  exact ⟨fun h => (nomatch h), h⟩

end Opened

/-- Proper constructs are open inside of each other, or nothing is open. -/
structure Reader.Tidy (r : Reader) : Prop where
  focus : r.focus = .root ∧ r.outer = [] ∨ r.focus.Proper
  outer : ∀ f ∈ r.outer, (Focus.frame f).Proper

namespace Reader

variable {done : List Placed} {r r' : Reader} {t : Placed}

theorem opened_move {m : Move} (htidy : r.Tidy) (h : Opened done 0 r.stack)
    (hm : m.Fits r.focus t) : Opened (done ++ [t]) 0 (r.move m).stack ∧ (r.move m).Tidy := by
  obtain ⟨root, outer, focus⟩ := r
  have hother : ∀ {fs : List Focus}, t.msgTag = .other → Opened done 0 fs →
      Opened (done ++ [t]) 0 fs := by
    intro fs ht hfs
    refine hfs.shift fun n => ?_
    rw [nest.eq_def, ht]
  cases m with
  | stay focus' =>
    obtain ⟨hproper, hin, ht⟩ := hm
    refine ⟨?_, .inr hproper, htidy.outer⟩
    rcases ht with ht | ⟨ht, hmsg⟩
    · exact (hother ht h).withFocus hin
    · -- the message that is open ends, and the next one of its group starts in its place
      refine .start (h.2.shift fun n => ?_) (.inr ht) (hin.trans hmsg)
      have hone : 0 + focus.inMsg.toNat + n = n + 1 := by
        rw [show focus.inMsg = true from hmsg, Bool.toNat_true]
        omega
      rw [nest.eq_def, ht, hone, Nat.add_comm 1 n]
  | enter focus' =>
    obtain ⟨⟨frame, rfl⟩, hproper, ht⟩ := hm
    have hframe : (Focus.frame frame).Proper := by
      rcases htidy.focus with ⟨hroot, -⟩ | hframe
      · cases hroot
      · exact hframe
    refine ⟨?_, .inr hproper, List.forall_mem_cons.2 ⟨hframe, htidy.outer⟩⟩
    rcases ht with ⟨ht, hin⟩ | ⟨ht, hin⟩
    · refine .start (h.shift fun n => ?_) (.inl ht) hin
      rw [nest.eq_def, ht, Nat.zero_add, Nat.add_comm 1 n]
    · exact .skip (hother ht h) hin
  | leave d =>
    cases outer with
    | nil => exact ⟨⟨fun hin => absurd hin Bool.false_ne_true, trivial⟩, .inl ⟨rfl, rfl⟩, htidy.outer⟩
    | cons frame outer =>
      obtain ⟨hframe, houter⟩ := List.forall_mem_cons.1 htidy.outer
      refine ⟨?_, .inr (proper_addStatement.2 hframe), houter⟩
      refine Opened.withFocus ?_ (inMsg_addStatement frame d)
      have hrest := h.2
      rcases hm with ⟨ht, hin⟩ | ⟨ht, hin⟩
      · rw [show focus.inMsg = true from hin] at hrest
        refine hrest.shift fun n => ?_
        rw [nest.eq_def, ht, Nat.zero_add, Bool.toNat_true, Nat.zero_add, Nat.add_comm 1 n]
      · rw [show focus.inMsg = false from hin] at hrest
        exact hother ht hrest

/-- Where nothing is open a token opens at most one construct. -/
theorem step_of_root (hr : r.focus = .root) (hok : r.step scope t = .ok r') :
    r'.outer = r.outer ∧ (r'.focus = .root ∨ r'.focus.Proper ∧ (r'.focus.inMsg → t.OpensMsg)) := by
  obtain ⟨root, outer, focus⟩ := r
  cases hr
  rw [step] at hok
  cases htoken : t.token with
  | doc _ =>
    simp only [htoken] at hok
    cases hok
    exact ⟨rfl, .inl rfl⟩
  | text chars | literal chars =>
    simp only [htoken] at hok
    split at hok
    · cases hok
      exact ⟨rfl, .inl rfl⟩
    · cases hok
      exact ⟨rfl, .inl rfl⟩
  | endTag name =>
    simp only [htoken] at hok
    cases hok
  | command keyword text closing =>
    simp only [htoken] at hok
    have hok := atLine_eq_ok.1 hok
    cases keyword
    case expression | print | xid =>
      obtain ⟨content, -, hok⟩ := bind_eq_ok.1 hok
      cases hok
      exact ⟨rfl, .inl rfl⟩
    case ifTag =>
      obtain ⟨condition, -, hok⟩ := bind_eq_ok.1 hok
      cases hok
      exact ⟨rfl, .inr ⟨trivial, fun hin => absurd hin Bool.false_ne_true⟩⟩
    case call | delcall =>
      obtain ⟨content, -, hok⟩ := bind_eq_ok.1 hok
      cases hok
      cases closing with
      | true => exact ⟨rfl, .inl rfl⟩
      | false => exact ⟨rfl, .inr ⟨by simp [openCall, enter, Focus.Proper], fun hin => absurd hin Bool.false_ne_true⟩⟩
    case msg =>
      obtain ⟨content, -, hok⟩ := bind_eq_ok.1 hok
      cases hok
      refine ⟨rfl, .inr ⟨trivial, fun _ => .inl ?_⟩⟩
      rw [Placed.msgTag, htoken]
    all_goals cases hok

theorem opened_step (htidy : r.Tidy) (h : Opened done 0 r.stack) (hok : r.step scope t = .ok r') :
    Opened (done ++ [t]) 0 r'.stack ∧ r'.Tidy := by
  rcases htidy.focus with ⟨hroot, houter⟩ | hproper
  · obtain ⟨houter', hfocus⟩ := step_of_root hroot hok
    rw [houter] at houter'
    rw [stack, houter', List.map_nil]
    have houts : ∀ f ∈ r'.outer, (Focus.frame f).Proper := by
      rw [houter']
      exact fun _ hf => (nomatch hf)
    rcases hfocus with hroot' | ⟨hproper', hopens⟩
    · rw [hroot']
      exact ⟨⟨fun hin => (nomatch hin), trivial⟩, .inl ⟨hroot', houter'⟩, houts⟩
    · exact ⟨⟨fun hin => ⟨done, t, [], rfl, hopens hin, rfl⟩, trivial⟩, .inr hproper', houts⟩
  · have hstep : MovesAt r.focus t fun r => r.step scope t := movesAt_step hproper
    obtain ⟨outcome, hfits, hmove⟩ := hstep
    obtain ⟨m, hm, rfl⟩ := map_eq_ok.1 ((hmove r rfl).symm.trans hok)
    exact opened_move htidy h (hfits m hm)

/-- A message that a token closes was read from the tokens since its tag. -/
theorem exists_span_of_close {rest : List Placed} (hr : done.foldlM (step scope) {} = .ok r)
    (h : Opened done 0 r.stack) (ht : t.msgTag = .close ∨ t.msgTag = .fallback) {o : OpenMsg}
    (hfocus : r.focus = .frame (.message o)) {m : Draft} {messages : List Draft}
    (hclose : o.closeMessage = .ok (m :: messages)) :
    ∃ span : MsgSpan, span.tokens = done ++ t :: rest ∧ span.Gives scope m := by
  have hin : r.focus.inMsg := by
    rw [hfocus]
    rfl
  obtain ⟨before, opening, inner, rfl, hopens, hinner⟩ := h.1 hin
  have hcloses : nest 0 t = none := by
    rw [nest.eq_def]
    rcases ht with ht | ht <;> rw [ht]
  exact ⟨⟨before, opening, inner, t, rest, hopens, hinner, hcloses⟩, rfl, r, o, messages, hr,
    hfocus, hclose⟩

/-- Every message that is read was read from the tokens between its tag and the
    tag that ends it. -/
theorem msgsAre_run {rest : List Placed} (hr : done.foldlM (step scope) {} = .ok r)
    (hsound : r.Sound scope) (htidy : r.Tidy) (hopened : Opened done 0 r.stack)
    (h : r.MsgsAre fun m => ∃ span : MsgSpan, span.tokens = done ++ rest ∧ span.Gives scope m)
    (hok : rest.foldlM (step scope) r = .ok r') :
    r'.MsgsAre fun m => ∃ span : MsgSpan, span.tokens = done ++ rest ∧ span.Gives scope m := by
  -- `Opened` says for the tokens so far where the messages that are still open began
  induction rest generalizing done r with
  | nil =>
    cases hok
    exact h
  | cons t rest ih =>
    rw [List.foldlM_cons, bind_eq_ok] at hok
    obtain ⟨mid, hmid, hok⟩ := hok
    have hdone : (done ++ [t]).foldlM (step scope) {} = .ok mid := by
      rw [List.foldlM_append, hr]
      change [t].foldlM (step scope) r = _
      rw [List.foldlM_cons, hmid]
      rfl
    obtain ⟨hopened', htidy'⟩ := opened_step htidy hopened hmid
    rw [List.append_cons] at h ⊢
    refine ih hdone (hsound.step hmid) htidy' hopened' (h.step hsound ?_ mid hmid) hok
    intro ht o m messages hfocus hclose
    rw [← List.append_cons]
    exact exists_span_of_close hr hopened ht hfocus hclose

end Reader

/-- Every message of a body is read from the tokens between its tag and the tag
    that ends it. -/
theorem exists_span_of_read {tokens : List Placed} {endLine : Nat} {drafts : List Draft}
    (h : read scope tokens endLine = .ok drafts) : ∀ d ∈ drafts,
      MsgsAre (fun m => ∃ span : MsgSpan, span.tokens = tokens ∧ span.Gives scope m) d := by
  rw [read, bind_eq_ok] at h
  obtain ⟨r, hr, hfinish⟩ := h
  have htidy : Reader.Tidy {} := ⟨.inl ⟨rfl, rfl⟩, List.forall_mem_nil _⟩
  have hopened : Opened [] 0 (Reader.stack {}) := ⟨fun hin => absurd hin Bool.false_ne_true, trivial⟩
  have hmsgs := Reader.msgsAre_run rfl Reader.sound_start htidy hopened
    ⟨List.forall_mem_nil _, List.forall_mem_nil _, trivial⟩ hr
  rw [Reader.finish] at hfinish
  split at hfinish
  · cases hfinish
    exact forall_reverse hmsgs.root
  all_goals cases hfinish

end Stencil.Body
