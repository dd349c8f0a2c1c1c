/-
  Stencil/Proofs/Body/Balance.lean
  ================================
  **The tags of a body are balanced.**

  A body that is read without a complaint is a properly nested word: every end tag
  ends a tag of the same name, and no tag is left open.  Tags that belong to another
  one stand directly inside of it: the branches of an `if`, the parameters of a call,
  the second message of a group, the cases of a plural or select (`nested_of_read`).

  The reader keeps more than the names of the tags that are open.  But these names
  are all that decides about nesting, and so each token is taken to what it does to
  them (`Walk`); that the word is nested follows from this alone.
-/
import Stencil.Proofs.Body.Nesting
import Stencil.Proofs.Compiler.Bodies

namespace Stencil.Body

/-! ### Tags as brackets -/

/-- What a token is to the nesting of tags. -/
inductive Bracket where
  | opening (name : String)
  | ending (name : String)
  | neutral
deriving DecidableEq, Repr

/-- Conditionals, messages, plurals and selects are opened whatever their tags say; calls
    and parameters are not if a slash closes them. -/
def Token.bracket : Token → Bracket
  | .command keyword _ selfClosing =>
    match keyword with
    | .ifTag | .msg | .plural | .select => .opening keyword.name
    | .call | .delcall | .param => if selfClosing then .neutral else .opening keyword.name
    | _ => .neutral
  | .endTag name => .ending name
  | _ => .neutral

/-- The tags that a command stands directly inside of, if it does not stand anywhere. -/
def Keyword.holders : Keyword → Option (List String)
  | .elseifTag | .elseTag => some ["if"]
  | .param => some ["call", "delcall"]
  | .fallbackmsg => some ["msg"]
  | .case | .default => some ["plural", "select"]
  | _ => none

/-- The tag of a further branch of a conditional. -/
def Keyword.isBranch : Keyword → Bool
  | .elseifTag | .elseTag => true
  | _ => false

/-- The tag of the last branch of a conditional. -/
def Token.isElse : Token → Bool
  | .command .elseTag _ _ => true
  | _ => false

/-! ### Nested words -/

/-- A properly nested word, and the tokens of it that stand in none of its tags. -/
inductive WellNested : List Placed → List Placed → Prop
  | nil : WellNested [] []
  | neutral {t : Placed} {word own : List Placed} (ht : t.token.bracket = .neutral)
      (h : WellNested word own) : WellNested (t :: word) (t :: own)
  | tag {o e : Placed} {name : String} {inner deeper word own : List Placed}
      (ho : o.token.bracket = .opening name) (he : e.token.bracket = .ending name)
      (hinner : WellNested inner deeper) (h : WellNested word own) :
      WellNested (o :: inner ++ e :: word) own

theorem WellNested.append {word word' own own' : List Placed} (h : WellNested word own)
    (h' : WellNested word' own') : WellNested (word ++ word') (own ++ own') := by
  induction h with
  | nil => exact h'
  | neutral ht _ ih => exact .neutral ht ih
  | tag ho he hinner _ _ ih =>
    rw [List.append_assoc, List.cons_append]
    exact .tag ho he hinner ih

/-- The last tag of a word that is still open, and what stands in it and in no other tag. -/
def Innermost (word : List Placed) (name : String) (own : List Placed) : Prop :=
  ∃ outer o inner, word = outer ++ o :: inner ∧ o.token.bracket = .opening name ∧
    WellNested inner own

/-! ### Open tags -/

/-- A tag that is open: its name, and whether a further branch may follow in it. -/
structure Level where
  name : String
  branches : Bool := true
deriving DecidableEq, Repr

/-- A word in which tags are still open, from the inside out.  Where a branch may follow
    there was no last one. -/
inductive LeftOpen : List Placed → List Level → Prop
  | nil {word own : List Placed} (h : WellNested word own) : LeftOpen word []
  | tag {outer inner own : List Placed} {o : Placed} {l : Level} {levels : List Level}
      (houter : LeftOpen outer levels) (ho : o.token.bracket = .opening l.name)
      (hinner : WellNested inner own) (helse : l.branches → ∀ t ∈ own, ¬t.token.isElse) :
      LeftOpen (outer ++ o :: inner) (l :: levels)

/-- What a token does to the tags that are open. -/
inductive Shift (t : Token) : List Level → List Level → Prop
  | opening {name : String} (h : t.bracket = .opening name) (levels : List Level) :
      Shift t levels ({ name } :: levels)
  | ending {l : Level} (h : t.bracket = .ending l.name) (levels : List Level) :
      Shift t (l :: levels) levels
  | last (h : t.bracket = .neutral) (helse : t.isElse) (name : String) (levels : List Level) :
      Shift t ({ name } :: levels) (⟨name, false⟩ :: levels)
  | neutral (h : t.bracket = .neutral) (helse : ¬t.isElse) (levels : List Level) :
      Shift t levels levels

/-- The token stands directly inside of a tag that it belongs to. -/
def Fits (t : Token) (levels : List Level) : Prop :=
  ∀ keyword text selfClosing names, t = .command keyword text selfClosing →
    keyword.holders = some names →
    ∃ l rest, levels = l :: rest ∧ l.name ∈ names ∧ (keyword.isBranch → l.branches)

/-- The open tags before a word and after it. -/
inductive Walk : List Level → List Placed → List Level → Prop
  | nil (levels : List Level) : Walk levels [] levels
  | cons {levels mid levels' : List Level} {t : Placed} {word : List Placed}
      (hfits : Fits t.token levels) (hshift : Shift t.token levels mid)
      (h : Walk mid word levels') : Walk levels (t :: word) levels'

section

variable {word word' : List Placed} {levels levels' : List Level} {t : Placed}

theorem LeftOpen.exists_wellNested (h : LeftOpen word []) : ∃ own, WellNested word own := by
  cases h with
  | nil hword => exact ⟨_, hword⟩

theorem LeftOpen.append (h : LeftOpen word levels) (h' : WellNested word' []) :
    LeftOpen (word ++ word') levels := by
  cases h with
  | nil hword => exact .nil (hword.append h')
  | tag houter ho hinner helse =>
    rw [List.append_assoc, List.cons_append]
    refine .tag houter ho (hinner.append h') ?_
    rwa [List.append_nil]

theorem LeftOpen.shift (h : LeftOpen word levels) (ht : Shift t.token levels levels') :
    LeftOpen (word ++ [t]) levels' := by
  cases ht with
  | opening hopening => exact .tag h hopening .nil fun _ => List.forall_mem_nil _
  | ending hending =>
    cases h with
    | tag houter ho hinner helse =>
      rw [List.append_assoc]
      exact houter.append (.tag ho hending hinner .nil)
  | last hneutral =>
    cases h with
    | tag houter ho hinner helse =>
      rw [List.append_assoc, List.cons_append]
      exact .tag houter ho (hinner.append (.neutral hneutral .nil)) fun hfalse => absurd hfalse (by simp)
  | neutral hneutral helse =>
    cases h with
    | nil hword => exact .nil (hword.append (.neutral hneutral .nil))
    | tag houter ho hinner hown =>
      rw [List.append_assoc, List.cons_append]
      refine .tag houter ho (hinner.append (.neutral hneutral .nil)) fun hbranches => ?_
      exact List.forall_mem_append.2 ⟨hown hbranches, List.forall_mem_singleton.2 helse⟩

theorem Walk.leftOpen {done : List Placed} (h : Walk levels word levels')
    (hdone : LeftOpen done levels) :
    LeftOpen (done ++ word) levels' := by
  induction h generalizing done with
  | nil => rwa [List.append_nil]
  | cons _ hshift _ ih =>
    rw [List.append_cons]
    exact ih (hdone.shift hshift)

theorem Walk.append {levels'' : List Level} (h : Walk levels word levels')
    (h' : Walk levels' word' levels'') : Walk levels (word ++ word') levels'' := by
  induction h with
  | nil => exact h'
  | cons hfits hshift _ ih => exact .cons hfits hshift (ih h')

/-- A token of a word stands where the tags before it allow it. -/
theorem Walk.exists_fits (h : Walk levels (word ++ t :: word') levels') :
    ∃ mid, Walk levels word mid ∧ Fits t.token mid := by
  induction word generalizing levels with
  | nil =>
    cases h with
    | cons hfits _ _ => exact ⟨levels, .nil levels, hfits⟩
  | cons first word ih =>
    cases h with
    | cons hfits hshift hrest =>
      obtain ⟨mid, hmid, ht⟩ := ih hrest
      exact ⟨mid, .cons hfits hshift hmid, ht⟩

/-- A token that belongs to a tag stands directly inside of one. -/
theorem LeftOpen.exists_innermost (h : LeftOpen word levels) {keyword : Keyword} {text : List Char}
    {selfClosing : Bool} {names : List String}
    (ht : Fits (.command keyword text selfClosing) levels) (hnames : keyword.holders = some names) :
    ∃ name ∈ names, ∃ own, Innermost word name own ∧
      (keyword.isBranch → ∀ e ∈ own, ¬e.token.isElse) := by
  obtain ⟨l, rest, rfl, hname, hbranch⟩ := ht _ _ _ _ rfl hnames
  cases h with
  | tag houter ho hinner helse =>
    exact ⟨l.name, hname, _, ⟨_, _, _, rfl, ho, hinner⟩, fun h => helse (hbranch h)⟩

end

/-! ### What the reader has open -/

/-- The tags that are open with a frame, from the inside out. -/
def Frame.levels : Frame → List Level
  | .branch o => [⟨"if", o.condition.isSome⟩]
  | .param call _ => [{ name := "param" }, { name := call.command }]
  | .message _ => [{ name := "msg" }]
  | .case _ choice _ => [{ name := choice.command.name }, { name := "msg" }]

def Focus.levels : Focus → List Level
  | .root => []
  | .frame f => f.levels
  | .call o => [{ name := o.command }]
  | .choice _ o => [{ name := o.command.name }, { name := "msg" }]

/-- Calls, plurals and selects go by the names of their tags. -/
def Focus.Named : Focus → Prop
  | .call o | .frame (.param o _) => o.command ∈ ["call", "delcall"]
  | .choice _ o | .frame (.case _ o _) => o.command ∈ [.plural, .select]
  | _ => True

theorem levels_addStatement (frame : Frame) (d : Draft) :
    (frame.addStatement d).levels = frame.levels := by
  cases frame <;> rfl

theorem named_addStatement {frame : Frame} {d : Draft} :
    (Focus.frame (frame.addStatement d)).Named ↔ (Focus.frame frame).Named := by
  cases frame <;> rfl

theorem levels_addText (frame : Frame) (chars : List Char) (line : Nat) :
    (frame.addText chars line).levels = frame.levels := by
  cases frame with
  | branch | param =>
    rw [Frame.addText.eq_def]
    dsimp only
    split <;> rfl
  | message | case => rfl

theorem named_addText {frame : Frame} {chars : List Char} {line : Nat} :
    (Focus.frame (frame.addText chars line)).Named ↔ (Focus.frame frame).Named := by
  cases frame with
  | branch | param =>
    rw [Frame.addText.eq_def]
    dsimp only
    split <;> rfl
  | message | case => rfl

namespace Reader

/-- The tags that are open, from the inside out. -/
def levels (r : Reader) : List Level := r.stack.flatMap Focus.levels

/-- What is open goes by its name, and around nothing there is nothing. -/
structure Named (r : Reader) : Prop where
  root : r.focus = .root → r.outer = []
  stack : ∀ f ∈ r.stack, f.Named

/-- A step does to the open tags what its token does. -/
structure Leads (t : Token) (r r' : Reader) : Prop where
  fits : Fits t r.levels
  shift : Shift t r.levels r'.levels
  named : r'.Named

variable {r : Reader} {t : Placed} {scope : Scope}

theorem levels_eq (r : Reader) : r.levels = r.focus.levels ++ r.outer.flatMap Frame.levels := by
  rw [levels, stack, List.flatMap_cons, List.flatMap_map]
  rfl

theorem Named.focus (h : r.Named) : r.focus.Named := h.stack _ List.mem_cons_self

theorem Named.outer (h : r.Named) : ∀ f ∈ r.outer, (Focus.frame f).Named :=
  fun _ hf => h.stack _ (List.mem_cons_of_mem _ (List.mem_map_of_mem hf))

theorem Named.withFocus (h : r.Named) {focus : Focus} (hroot : focus ≠ .root)
    (hfocus : focus.Named) : Named { r with focus } :=
  ⟨fun hnone => absurd hnone hroot,
    List.forall_mem_cons.2 ⟨hfocus, (List.forall_mem_cons.1 h.stack).2⟩⟩

/-- A token that is free to stand anywhere. -/
def IsFree (t : Token) : Prop :=
  ∀ keyword text selfClosing, t = .command keyword text selfClosing → keyword.holders = none

theorem IsFree.fits {t : Token} (h : IsFree t) (levels : List Level) : Fits t levels := by
  rintro keyword text selfClosing names rfl hnames
  rw [h keyword text selfClosing rfl] at hnames
  cases hnames

/-- A token that changes nothing of the nesting of tags. -/
structure IsPlain (t : Token) : Prop where
  free : IsFree t
  bracket : t.bracket = .neutral
  notElse : ¬t.isElse

theorem isFree_of_holders {keyword : Keyword} {text : List Char} {selfClosing : Bool}
    (h : keyword.holders = none) : IsFree (.command keyword text selfClosing) := by
  rintro _ _ _ ⟨⟩
  exact h

theorem isFree_of_ne_command {t : Token}
    (h : ∀ keyword text selfClosing, t ≠ .command keyword text selfClosing) : IsFree t :=
  fun keyword text selfClosing heq => absurd heq (h keyword text selfClosing)

/-! ### Steps -/

theorem leads_stay (h : r.Named) {t : Token} (ht : IsPlain t) : Leads t r r :=
  ⟨ht.free.fits _, .neutral ht.bracket ht.notElse _, h⟩

theorem leads_addStatement (h : r.Named) {t : Token} (ht : IsPlain t) (d : Draft) :
    Leads t r (r.addStatement d) := by
  have hlevels : (r.addStatement d).levels = r.levels := by
    obtain ⟨root, outer, focus⟩ := r
    cases focus with
    | frame frame => exact congrArg (· ++ _) (levels_addStatement frame d)
    | root | call | choice => rfl
  have hnamed : (r.addStatement d).Named := by
    obtain ⟨root, outer, focus⟩ := r
    cases focus with
    | frame frame => exact h.withFocus (by simp) (named_addStatement.2 h.focus)
    | root | call | choice => exact ⟨h.root, h.stack⟩
  refine ⟨ht.free.fits _, ?_, hnamed⟩
  rw [hlevels]
  exact .neutral ht.bracket ht.notElse _

/-- A tag opens a construct where statements stand. -/
theorem leads_enter (h : r.Named) (hfocus : r.focus = .root ∨ ∃ frame, r.focus = .frame frame)
    {t : Token} {name : String} (hfree : IsFree t) (ht : t.bracket = .opening name) {focus : Focus}
    (hroot : focus ≠ .root) (hlevels : focus.levels = [{ name }]) (hnamed : focus.Named) :
    Leads t r (r.enter focus) := by
  have hstack : (r.enter focus).levels = { name } :: r.levels ∧ (r.enter focus).Named := by
    obtain ⟨root, outer, focus'⟩ := r
    rcases hfocus with hfocus | ⟨frame, hfocus⟩
    · cases hfocus
      refine ⟨?_, h.withFocus hroot hnamed⟩
      rw [levels_eq, levels_eq]
      exact congrArg (· ++ _) hlevels
    · cases hfocus
      refine ⟨?_, fun hnone => absurd hnone hroot, List.forall_mem_cons.2 ⟨hnamed, h.stack⟩⟩
      rw [levels_eq, levels_eq]
      exact congrArg (· ++ _) hlevels
  refine ⟨hfree.fits _, ?_, hstack.2⟩
  rw [hstack.1]
  exact .opening ht _

/-- An end tag closes the construct that is open. -/
theorem leads_leave (h : r.Named) {l : Level} (hlevels : r.focus.levels = [l]) (d : Draft) :
    Leads (.endTag l.name) r (r.leave d) := by
  have hstack : (r.leave d).levels = r.outer.flatMap Frame.levels ∧ (r.leave d).Named := by
    obtain ⟨root, outer, focus⟩ := r
    cases outer with
    | nil => exact ⟨rfl, fun _ => rfl, List.forall_mem_singleton.2 trivial⟩
    | cons frame outer =>
      obtain ⟨hframe, houter⟩ := List.forall_mem_cons.1 h.outer
      refine ⟨?_, fun hnone => (by cases hnone), ?_⟩
      · rw [levels_eq]
        exact congrArg (· ++ _) (levels_addStatement frame d)
      · refine List.forall_mem_cons.2 ⟨named_addStatement.2 hframe, ?_⟩
        exact fun f hf => h.stack f (List.mem_cons_of_mem _ (List.mem_cons_of_mem _ hf))
  refine ⟨(isFree_of_ne_command fun _ _ _ => Token.noConfusion).fits _, ?_, hstack.2⟩
  rw [hstack.1, levels_eq, hlevels]
  exact .ending rfl _

/-- A token changes the construct that is open, and nothing around it. -/
theorem leads_withFocus (h : r.Named) {t : Token} {focus : Focus} (hroot : focus ≠ .root)
    (hnamed : focus.Named) (hfits : ∀ rest, Fits t (r.focus.levels ++ rest))
    (hshift : ∀ rest, Shift t (r.focus.levels ++ rest) (focus.levels ++ rest)) :
    Leads t r { r with focus } := by
  refine ⟨?_, ?_, h.withFocus hroot hnamed⟩
  · rw [levels_eq]
    exact hfits _
  · rw [levels_eq, levels_eq]
    exact hshift _

/-- Text and doc comments are no tags. -/
theorem isPlain_of_not_isTag {t : Token} (h : match t with
    | .command _ _ _ | .endTag _ => False
    | _ => True) : IsPlain t := by
  cases t with
  | command keyword text selfClosing => exact h.elim
  | endTag name => exact h.elim
  | text | literal | doc => exact ⟨isFree_of_ne_command (by simp), rfl, Bool.false_ne_true⟩

theorem isPlain_of_isBlankText {t : Token} (h : t.isBlankText) : IsPlain t := by
  cases t with
  | text chars => exact isPlain_of_not_isTag trivial
  | literal | command | endTag | doc => cases h

theorem isPlain_command {keyword : Keyword} {text : List Char} {selfClosing : Bool}
    (hholders : keyword.holders = none)
    (hbracket : (Token.command keyword text selfClosing).bracket = .neutral) :
    IsPlain (.command keyword text selfClosing) := by
  refine ⟨isFree_of_holders hholders, hbracket, ?_⟩
  cases keyword <;> first | exact Bool.false_ne_true | cases hholders

section

variable {keyword : Keyword} {text : List Char} {selfClosing : Bool} {line : Nat}

theorem leads_openCall (h : r.Named) (hfocus : r.focus = .root ∨ ∃ frame, r.focus = .frame frame)
    (hkeyword : keyword = .call ∨ keyword = .delcall) (content : Content) :
    Leads (.command keyword text selfClosing) r
      (r.openCall keyword.name line selfClosing content) := by
  have hholders : keyword.holders = none := by rcases hkeyword with rfl | rfl <;> rfl
  cases selfClosing with
  | true =>
    have hbracket : (Token.command keyword text true).bracket = .neutral := by
      rcases hkeyword with rfl | rfl <;> rfl
    exact leads_addStatement h (isPlain_command hholders hbracket) _
  | false =>
    have hbracket : (Token.command keyword text false).bracket = .opening keyword.name := by
      rcases hkeyword with rfl | rfl <;> rfl
    refine leads_enter h hfocus (isFree_of_holders hholders) hbracket (by simp) rfl ?_
    rcases hkeyword with rfl | rfl
    · exact List.mem_cons_self
    · exact List.mem_cons_of_mem _ List.mem_cons_self

theorem leads_stepStatement (h : r.Named)
    (hfocus : r.focus = .root ∨ ∃ frame, r.focus = .frame frame) :
    Ensures (Leads (.command keyword text selfClosing) r)
      (r.stepStatement scope keyword text selfClosing line) := by
  intro r' hok
  cases keyword
  case expression | print | xid =>
    obtain ⟨content, -, hok⟩ := bind_eq_ok.1 hok
    cases hok
    exact leads_addStatement h (isPlain_command rfl rfl) _
  case ifTag | msg =>
    obtain ⟨content, -, hok⟩ := bind_eq_ok.1 hok
    cases hok
    exact leads_enter h hfocus (isFree_of_holders rfl) rfl (by simp) rfl trivial
  case call =>
    obtain ⟨content, -, hok⟩ := bind_eq_ok.1 hok
    cases hok
    exact leads_openCall h hfocus (.inl rfl) content
  case delcall =>
    obtain ⟨content, -, hok⟩ := bind_eq_ok.1 hok
    cases hok
    exact leads_openCall h hfocus (.inr rfl) content
  all_goals cases hok

theorem leads_stepItem (h : r.Named) (hfocus : ∃ frame, r.focus = .frame frame) :
    Ensures (Leads (.command keyword text selfClosing) r)
      (r.stepItem scope keyword text selfClosing line) := by
  have hstatement : Ensures (Leads (.command keyword text selfClosing) r)
      (r.stepStatement scope keyword text selfClosing line) := leads_stepStatement h (.inr hfocus)
  cases keyword
  case expression | print | call | delcall => exact hstatement
  all_goals exact ensures_error _

end

/-! ### Steps between parts -/

theorem fits_of_levels {keyword : Keyword} {text : List Char} {selfClosing : Bool}
    {names : List String} (hnames : keyword.holders = some names) {l : Level} (hl : l.name ∈ names)
    (hbranch : keyword.isBranch → l.branches) (rest : List Level) :
    Fits (.command keyword text selfClosing) (l :: rest) := by
  rintro _ _ _ names' ⟨⟩ hnames'
  rw [hnames] at hnames'
  cases hnames'
  exact ⟨l, rest, rfl, hl, hbranch⟩

theorem command_addParam {o o' : OpenCall} {key : String} {param : Draft}
    (h : o.addParam key param = .ok o') : o'.command = o.command := by
  rw [OpenCall.addParam] at h
  split at h
  · cases h
  · cases h
    rfl

/-- A value parameter has a closing slash, a content parameter has none. -/
theorem selfClosing_of_callParam {text : List Char} {selfClosing : Bool} {param : CallParam}
    (h : callParam text selfClosing = .ok param) :
    match param with
    | .value _ _ => selfClosing = true
    | .content _ _ => selfClosing = false := by
  rw [callParam] at h
  split at h
  · cases selfClosing with
    | false => cases h
    | true =>
      split at h
      · cases h
      · split at h
        · cases h
        · cases h
          rfl
  · obtain ⟨cmd, -, h⟩ := bind_eq_ok.1 h
    by_cases hkey : Text.isIdentifier cmd.head
    · cases selfClosing with
      | true => simp [hkey, throw, throwThe, MonadExceptOf.throw, bind, Except.bind] at h
      | false =>
        simp only [hkey, Bool.not_true, Bool.false_eq_true, if_false, bind_eq_ok] at h
        obtain ⟨kind, -, h⟩ := h
        cases h
        rfl
    · simp [hkey, throw, throwThe, MonadExceptOf.throw, bind, Except.bind] at h

theorem leads_stepCall (h : r.Named) {o : OpenCall} (hfocus : r.focus = .call o) :
    Ensures (Leads t.token r) (r.stepCall o t) := by
  have ho : o.command ∈ ["call", "delcall"] := by
    have hnamed := h.focus
    rwa [hfocus] at hnamed
  have hlevels : r.focus.levels = [{ name := o.command }] := by
    rw [hfocus]
    rfl
  have hfits : ∀ text selfClosing rest,
      Fits (.command .param text selfClosing) (r.focus.levels ++ rest) := by
    intro text selfClosing rest
    rw [hlevels]
    exact fits_of_levels rfl ho (fun _ => rfl) rest
  intro r' hok
  rw [stepCall.eq_def] at hok
  split at hok
  · rename_i hdoc
    cases hok
    rw [hdoc]
    exact leads_stay h (isPlain_of_not_isTag trivial)
  · rename_i text selfClosing hparam
    rw [hparam]
    obtain ⟨param, hcall, hok⟩ := bind_eq_ok.1 hok
    have hclosing := selfClosing_of_callParam (atLine_eq_ok.1 hcall)
    cases param with
    | value key expr =>
      obtain ⟨o', ho', hok⟩ := bind_eq_ok.1 hok
      cases hok
      cases hclosing
      have hcommand := command_addParam ho'
      refine leads_withFocus h (by simp) ?_ (hfits text true) fun rest => ?_
      · rw [Focus.Named, hcommand]
        exact ho
      · rw [hlevels, Focus.levels, hcommand]
        exact .neutral rfl (by simp [Token.isElse]) _
    | content key kind =>
      cases hok
      cases hclosing
      refine leads_withFocus h (by simp) ho (hfits text false) fun rest => ?_
      rw [hlevels]
      exact .opening rfl _
  · rename_i name hend
    rw [hend]
    split at hok
    · rename_i hname
      cases hok
      rw [hname]
      exact leads_leave h hlevels _
    · cases hok
  · split at hok
    · rename_i hblank
      cases hok
      exact leads_stay h (isPlain_of_isBlankText hblank)
    · cases hok

/-- The end tag of a plural or select, or the tag of a case, between the cases of it or after
    one of them. -/
theorem leads_stepChoice (h : r.Named) {msg : OpenMsg} {o : OpenChoice}
    (hfocus : r.focus.levels = (Focus.choice msg o).levels) (ho : o.command ∈ [.plural, .select]) :
    Ensures (Leads t.token r) (r.stepChoice msg o t) := by
  have hname : o.command.name ∈ ["plural", "select"] := by
    revert ho
    cases o.command <;> decide
  have hlevels : r.focus.levels = [{ name := o.command.name }, { name := "msg" }] := hfocus
  -- a case takes the place of what was open in the plural or select
  have hcase : ∀ {keyword : Keyword} {text selfClosing} {focus : Focus},
      keyword = .case ∨ keyword = .default →
      focus.levels = [{ name := o.command.name }, { name := "msg" }] → focus.Named →
      focus ≠ .root → Leads (.command keyword text selfClosing) r { r with focus } := by
    intro keyword text selfClosing focus hkeyword hcases hnamed hroot
    have hholders : keyword.holders = some ["plural", "select"] := by
      rcases hkeyword with rfl | rfl <;> rfl
    refine leads_withFocus h hroot hnamed (fun rest => ?_) fun rest => ?_
    · rw [hlevels]
      refine fits_of_levels hholders hname (fun hbranch => ?_) _
      rcases hkeyword with rfl | rfl <;> cases hbranch
    · rw [hlevels, hcases]
      rcases hkeyword with rfl | rfl <;> exact .neutral rfl (by simp [Token.isElse]) _
  intro r' hok
  rw [stepChoice.eq_def] at hok
  dsimp only at hok
  split at hok
  · rename_i hdoc
    cases hok
    rw [hdoc]
    exact leads_stay h (isPlain_of_not_isTag trivial)
  · rename_i hcommand
    rw [hcommand]
    split at hok
    · cases hok
    · split at hok
      · cases hok
        exact hcase (.inl rfl) rfl ho (by simp)
      · cases hok
  · rename_i hcommand
    rw [hcommand]
    split at hok
    · cases hok
    · cases hok
      exact hcase (.inr rfl) rfl ho (by simp)
  · rename_i hend
    rw [hend]
    split at hok
    · rename_i heq
      obtain ⟨choice, -, hok⟩ := bind_eq_ok.1 hok
      cases hok
      refine leads_withFocus h (by simp) trivial (fun rest => ?_) fun rest => ?_
      · exact (isFree_of_ne_command (by simp)).fits _
      · rw [hlevels, heq]
        exact .ending rfl _
    · cases hok
  · split at hok
    · rename_i hblank
      cases hok
      exact leads_stay h (isPlain_of_isBlankText hblank)
    · cases hok

theorem command_addCase {o o' : OpenChoice} {case : OpenCase} (h : o.addCase case = .ok o') :
    o'.command = o.command := by
  obtain ⟨⟨parts, calls⟩, -, h⟩ := bind_eq_ok.1 h
  cases h
  rfl

theorem leads_endCase (h : r.Named) {msg : OpenMsg} {choice : OpenChoice} {o : OpenCase}
    (hfocus : r.focus = .frame (.case msg choice o)) :
    Ensures (Leads t.token r) (do r.stepChoice msg (← choice.addCase o) t) := by
  have hchoice : choice.command ∈ [.plural, .select] := by
    have hnamed := h.focus
    rwa [hfocus] at hnamed
  intro r' hok
  obtain ⟨choice', hcase, hok⟩ := bind_eq_ok.1 hok
  have hcommand := command_addCase hcase
  refine leads_stepChoice h ?_ (hcommand ▸ hchoice) r' hok
  rw [hfocus, Focus.levels, Focus.levels, Frame.levels, hcommand]

/-! ### Steps in frames -/

section

variable {keyword : Keyword} {text : List Char} {selfClosing : Bool}

theorem leads_stepCommand_branch (h : r.Named) {o : OpenIf} (hfocus : r.focus = .frame (.branch o))
    (ht : t.token = .command keyword text selfClosing) :
    Ensures (Leads t.token r) (r.stepCommand scope (.branch o) t keyword text selfClosing) := by
  have hlevels : r.focus.levels = (Frame.branch o).levels := congrArg Focus.levels hfocus
  -- a branch may follow as long as the one that is read has a condition
  have hfits : ∀ {keyword text selfClosing} rest, keyword.isBranch → o.condition.isSome →
      Fits (.command keyword text selfClosing) (r.focus.levels ++ rest) := by
    intro keyword text selfClosing rest hkeyword hcondition
    have hholders : keyword.holders = some ["if"] := by
      cases keyword <;> first | rfl | cases hkeyword
    rw [hlevels]
    exact fits_of_levels hholders List.mem_cons_self (fun _ => hcondition) rest
  intro r' hok
  rw [stepCommand.eq_def] at hok
  dsimp only at hok
  rw [ht]
  split at hok
  · rename_i condition hcondition
    obtain ⟨next, -, hok⟩ := bind_eq_ok.1 hok
    cases hok
    refine leads_withFocus h (by simp) trivial
      (fun rest => hfits rest rfl (by rw [hcondition]; rfl)) fun rest => ?_
    rw [hlevels, Frame.levels, hcondition]
    exact .neutral rfl (by simp [Token.isElse]) _
  · rename_i condition hcondition
    cases hok
    refine leads_withFocus h (by simp) trivial
      (fun rest => hfits rest rfl (by rw [hcondition]; rfl)) fun rest => ?_
    rw [hlevels, Frame.levels, hcondition]
    exact .last rfl rfl "if" rest
  · exact leads_stepStatement h (.inr ⟨_, hfocus⟩) r' (atLine_eq_ok.1 hok)

theorem leads_stepCommand_message (h : r.Named) {o : OpenMsg}
    (hfocus : r.focus = .frame (.message o)) (ht : t.token = .command keyword text selfClosing) :
    Ensures (Leads t.token r) (r.stepCommand scope (.message o) t keyword text selfClosing) := by
  have hlevels : r.focus.levels = [{ name := "msg" }] := by
    rw [hfocus]
    rfl
  have hchoice : ∀ {command : Keyword} {content : Content},
      command ∈ [.plural, .select] → Leads (.command command text selfClosing) r
        { r with focus := .choice o { line := t.line, command, content } } := by
    intro command content hcommand
    refine leads_withFocus h (by simp) hcommand (fun rest => ?_) fun rest => ?_
    · refine (isFree_of_holders ?_).fits _
      revert hcommand
      cases command <;> decide
    · rw [hlevels]
      refine .opening ?_ _
      revert hcommand
      cases command <;> simp [Token.bracket]
  intro r' hok
  rw [stepCommand.eq_def] at hok
  dsimp only at hok
  rw [ht]
  split at hok
  · obtain ⟨messages, -, hok⟩ := bind_eq_ok.1 hok
    split at hok
    · obtain ⟨content, -, hok⟩ := bind_eq_ok.1 hok
      cases hok
      refine leads_withFocus h (by simp) trivial (fun rest => ?_) fun rest => ?_
      · rw [hlevels]
        exact fits_of_levels rfl List.mem_cons_self (by decide) rest
      · rw [hlevels]
        exact .neutral rfl (by simp [Token.isElse]) _
    · cases hok
  · obtain ⟨content, -, hok⟩ := bind_eq_ok.1 hok
    cases hok
    exact hchoice (by decide)
  · obtain ⟨content, -, hok⟩ := bind_eq_ok.1 hok
    cases hok
    exact hchoice (by decide)
  · exact leads_stepItem h ⟨_, hfocus⟩ r' (atLine_eq_ok.1 hok)

theorem leads_stepCommand (h : r.Named) {frame : Frame} (hfocus : r.focus = .frame frame)
    (ht : t.token = .command keyword text selfClosing) :
    Ensures (Leads t.token r) (r.stepCommand scope frame t keyword text selfClosing) := by
  cases frame with
  | branch o => exact leads_stepCommand_branch h hfocus ht
  | message o => exact leads_stepCommand_message h hfocus ht
  | param call o =>
    rw [stepCommand.eq_def, ht]
    exact ensures_mapError (leads_stepStatement h (.inr ⟨_, hfocus⟩))
  | case msg choice o =>
    rw [stepCommand.eq_def]
    dsimp only
    split
    · exact leads_endCase h hfocus
    · exact leads_endCase h hfocus
    · rw [ht]
      exact ensures_mapError (leads_stepItem h ⟨_, hfocus⟩)

end

theorem leads_stepEnd (h : r.Named) {frame : Frame} (hfocus : r.focus = .frame frame)
    {name : String} (ht : t.token = .endTag name) :
    Ensures (Leads t.token r) (r.stepEnd frame t name) := by
  have hlevels : r.focus.levels = frame.levels := by
    rw [hfocus]
    rfl
  intro r' hok
  rw [stepEnd.eq_def] at hok
  cases frame with
  | branch o =>
    dsimp only at hok
    split at hok
    · rename_i hname
      cases hok
      rw [ht, hname]
      exact leads_leave h hlevels _
    · cases hok
  | param call o =>
    dsimp only at hok
    split at hok
    · rename_i hname
      obtain ⟨call', hcall', hok⟩ := bind_eq_ok.1 hok
      cases hok
      have hcommand : call'.command = call.command := command_addParam hcall'
      have hcall : call.command ∈ ["call", "delcall"] := by
        have hnamed := h.focus
        rwa [hfocus] at hnamed
      rw [ht, hname]
      refine leads_withFocus h (by simp) ?_ (fun rest => ?_) fun rest => ?_
      · rw [Focus.Named, hcommand]
        exact hcall
      · exact (isFree_of_ne_command (by simp)).fits _
      · rw [hlevels, Focus.levels, hcommand]
        exact .ending rfl _
    · cases hok
  | message o =>
    dsimp only at hok
    split at hok
    · rename_i hname
      obtain ⟨d, -, hok⟩ := bind_eq_ok.1 hok
      cases hok
      rw [ht, hname]
      exact leads_leave h hlevels _
    · cases hok
  | case msg choice o =>
    dsimp only at hok
    split at hok
    · exact leads_endCase h hfocus r' hok
    · cases hok

/-- A step does to the open tags what its token does. -/
theorem leads_step (h : r.Named) : Ensures (Leads t.token r) (r.step scope t) := by
  intro r' hok
  rw [step] at hok
  cases hfocus : r.focus with
  | call o =>
    simp only [hfocus] at hok
    exact leads_stepCall h hfocus r' hok
  | choice msg o =>
    simp only [hfocus] at hok
    have ho := h.focus
    rw [hfocus] at ho
    exact leads_stepChoice h (by rw [hfocus]) ho r' hok
  | root =>
    simp only [hfocus] at hok
    cases htoken : t.token with
    | doc chars =>
      simp only [htoken] at hok
      cases hok
      exact leads_stay h (isPlain_of_not_isTag trivial)
    | text chars | literal chars =>
      simp only [htoken] at hok
      split at hok
      · cases hok
        exact leads_stay h (isPlain_of_not_isTag trivial)
      · cases hok
        exact leads_addStatement h (isPlain_of_not_isTag trivial) _
    | endTag name =>
      simp only [htoken] at hok
      cases hok
    | command keyword text selfClosing =>
      simp only [htoken] at hok
      exact leads_stepStatement h (.inl hfocus) r' (atLine_eq_ok.1 hok)
  | frame frame =>
    simp only [hfocus] at hok
    cases htoken : t.token with
    | doc chars =>
      simp only [htoken] at hok
      cases hok
      exact leads_stay h (isPlain_of_not_isTag trivial)
    | text chars | literal chars =>
      simp only [htoken] at hok
      cases hok
      have hframe := h.focus
      rw [hfocus] at hframe
      refine leads_withFocus h (by simp) (named_addText.2 hframe)
        (fun rest => (isFree_of_ne_command (by simp)).fits _) fun rest => ?_
      rw [hfocus, Focus.levels, Focus.levels, levels_addText]
      exact .neutral rfl (by simp [Token.isElse]) _
    | endTag name =>
      simp only [htoken] at hok
      rw [← htoken]
      exact leads_stepEnd h hfocus htoken r' hok
    | command keyword text selfClosing =>
      simp only [htoken] at hok
      rw [← htoken]
      exact leads_stepCommand h hfocus htoken r' hok

/-- What the reader takes is a walk over its open tags. -/
theorem walk_run {tokens : List Placed} {r' : Reader} (h : r.Named)
    (hok : tokens.foldlM (step scope) r = .ok r') : Walk r.levels tokens r'.levels ∧ r'.Named := by
  induction tokens generalizing r with
  | nil =>
    cases hok
    exact ⟨.nil _, h⟩
  | cons t tokens ih =>
    rw [List.foldlM_cons, bind_eq_ok] at hok
    obtain ⟨mid, hmid, hok⟩ := hok
    have hstep := leads_step h mid hmid
    obtain ⟨hwalk, hnamed⟩ := ih hstep.named hok
    exact ⟨.cons hstep.fits hstep.shift hwalk, hnamed⟩

/-- At the end of a body no tag is open. -/
theorem levels_of_finish {endLine : Nat} {drafts : List Draft} (h : r.Named)
    (hok : r.finish endLine = .ok drafts) : r.levels = [] := by
  rw [finish] at hok
  split at hok
  · rename_i hroot
    rw [levels_eq, hroot, h.root hroot]
    rfl
  all_goals cases hok

end Reader

theorem walk_read {scope : Scope} {tokens : List Placed} {endLine : Nat} {drafts : List Draft}
    (h : read scope tokens endLine = .ok drafts) : Walk [] tokens [] := by
  obtain ⟨r, hrun, hfinish⟩ := bind_eq_ok.1 h
  have hstart : Reader.Named {} := ⟨fun _ => rfl, List.forall_mem_singleton.2 trivial⟩
  obtain ⟨hwalk, hnamed⟩ := Reader.walk_run hstart hrun
  rwa [Reader.levels_of_finish hnamed hfinish] at hwalk

/-- What stands before a declaration of a parameter is no tag, and neither is the declaration
    one that is opened. -/
theorem isPlain_of_declaresNext {t : Placed} {rest : List Placed}
    (h : Header.declaresNext (t :: rest)) : Reader.IsPlain t.token := by
  by_cases hfiller : Header.isFiller t
  · rw [Header.isFiller.eq_def] at hfiller
    split at hfiller
    · rename_i hdoc
      rw [hdoc]
      exact Reader.isPlain_of_not_isTag trivial
    · exact Reader.isPlain_of_isBlankText hfiller
  · rw [Header.declaresNext, List.dropWhile_cons_of_neg hfiller] at h
    split at h
    · rename_i keyword text selfClosing line tail heq
      obtain ⟨rfl, -⟩ := List.cons.inj heq
      cases keyword <;> first | exact Reader.isPlain_command rfl rfl | cases h
    · cases h

/-- The tags that declare parameters, and what stands among them, open and close nothing. -/
theorem walk_splitParamTags (doc : Option (List Char)) (tokens : List Placed) :
    ∃ taken, tokens = taken ++ (Header.splitParamTags doc tokens).2 ∧ Walk [] taken [] := by
  induction tokens generalizing doc with
  | nil => exact ⟨[], rfl, .nil []⟩
  | cons t rest ih =>
    rw [Header.splitParamTags]
    split
    · rename_i hnext
      have hplain := isPlain_of_declaresNext hnext
      have htake : ∀ doc', ∃ taken,
          t :: rest = taken ++ (Header.splitParamTags doc' rest).2 ∧ Walk [] taken [] := by
        intro doc'
        obtain ⟨taken, htaken, hwalk⟩ := ih doc'
        refine ⟨t :: taken, congrArg (t :: ·) htaken, ?_⟩
        exact .cons (hplain.free.fits []) (.neutral hplain.bracket hplain.notElse []) hwalk
      split
      · exact htake _
      · exact htake _
      · exact htake _
    · exact ⟨[], rfl, .nil []⟩

/-- The tags of a body that is read are balanced.  The body is a properly nested word, and
    whatever belongs to a tag stands directly inside of it: the branches of an `if`, as long as
    there was no last one, the parameters of a call, the second message of a group, and the
    cases of a plural or select. -/
theorem nested_of_read {scope : Scope} {raw : RawTemplate} {template : Template Nat}
    (h : Gives (raw.read scope) template) : ∃ scanned, scan raw.body = .ok scanned ∧
      (∃ own, WellNested scanned.tokens own) ∧
      ∀ before t after keyword text selfClosing names, scanned.tokens = before ++ t :: after →
        t.token = .command keyword text selfClosing → keyword.holders = some names →
        ∃ name ∈ names, ∃ own, Innermost before name own ∧
          (keyword.isBranch → ∀ e ∈ own, ¬e.token.isElse) := by
  obtain ⟨scanned, body, hscan, hread, -⟩ := RawTemplate.exists_body_of_gives_read h
  have hwalk : Walk [] scanned.tokens [] := by
    obtain ⟨taken, htaken, hheader⟩ := walk_splitParamTags none scanned.tokens
    rw [htaken]
    exact hheader.append (walk_read hread)
  have hstart : LeftOpen [] [] := .nil .nil
  refine ⟨scanned, hscan, ?_, ?_⟩
  · exact (hwalk.leftOpen hstart).exists_wellNested
  · intro before t after keyword text selfClosing names hsplit ht hnames
    rw [hsplit] at hwalk
    obtain ⟨mid, hbefore, hfits⟩ := hwalk.exists_fits
    rw [ht] at hfits
    exact (hbefore.leftOpen hstart).exists_innermost hfits hnames

/-- A template with tags of all kinds inside of each other. -/
def manyTags : RawTemplate :=
  { isDelegate := false, text := ".t".toList, doc := none, line := 1
    body := ("\x7b@param a: ?\x7d\x7bif $a\x7d\x7bcall .u\x7d\x7bparam k: 1 /\x7d\x7bparam l\x7d" ++
      "x\x7bif $b\x7d\x7bdelcall v /\x7d\x7b/if\x7d\x7b/param\x7d\x7b/call\x7d\x7belseif $b\x7d" ++
      "\x7bmsg desc=\"d\"\x7d\x7bplural $n\x7d\x7bcase 1\x7done\x7bdefault\x7dn\x7b/plural\x7d" ++
      "\x7bfallbackmsg desc=\"e\"\x7dtext\x7b/msg\x7d\x7belse\x7d\x7bprint $b /\x7d\x7b/if\x7d"
      ).toList }

theorem nested_of_read_manyTags :
    (∃ template, Gives (manyTags.read ⟨"ns", none, .strict, []⟩) template) ∧
    ∃ scanned, scan manyTags.body = .ok scanned ∧
      (∃ own, WellNested scanned.tokens own) ∧
      ∀ before t after keyword text selfClosing names, scanned.tokens = before ++ t :: after →
        t.token = .command keyword text selfClosing → keyword.holders = some names →
        ∃ name ∈ names, ∃ own, Innermost before name own ∧
          (keyword.isBranch → ∀ e ∈ own, ¬e.token.isElse) := by
  have hread : ∃ template, Gives (manyTags.read ⟨"ns", none, .strict, []⟩) template :=
    exists_gives_of_isOk (by decide +kernel : ((manyTags.read _).run.run {}).1.isOk = true)
  obtain ⟨template, htemplate⟩ := hread
  exact ⟨⟨template, htemplate⟩, nested_of_read htemplate⟩

end Stencil.Body
