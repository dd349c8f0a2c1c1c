/-
  Stencil/Proofs/Body/Unwrapped.lean
  ==================================
  **The content of a message without its tags.**

  Directly in a message stand texts, prints and calls, and outside of messages
  they stand as well.  A reader in a message and a reader where statements stand
  take them side by side: what is an item of the one is a statement of the other,
  and inside of a call both do the same.  So the tokens of a plain message are
  read where no message is open, and what they make there puts out what the
  message does.
-/
import Stencil.Proofs.Body.Contents
import Stencil.Proofs.Message.Outputs

namespace Stencil

/-! ### Items as statements -/

namespace Message

/-- The statements that an item of a message is outside of messages. -/
def Item.statements : Item → List Draft
  | text chars line =>
    if chars.isEmpty then [] else [.leaf line (.rawText (String.ofList chars))]
  | statement draft => [draft]

theorem written_statements (item : Item) : written item.statements = symbols item.outputs := by
  cases item with
  | text chars line =>
    rw [Item.statements]
    split
    · rename_i hempty
      rw [List.isEmpty_iff.1 hempty]
      rfl
    · rw [written_singleton, Tree.leaf, outputs, String.toList_ofList]
      rfl
  | statement draft => exact written_singleton draft

theorem written_flatMap_statements (items : List Item) :
    written (items.flatMap Item.statements) = symbols (items.flatMap Item.outputs) := by
  induction items with
  | nil => rfl
  | cons item rest ih =>
    rw [List.flatMap_cons, List.flatMap_cons, written_append, symbols_append, written_statements,
      ih]

end Message

namespace Body

open Message (Item written symbols outputs)

variable {scope : Scope} {t : Placed}

namespace Reader

variable {r r' inner : Reader} {d : Draft}

/-! ### Where statements stand -/

/-- The reader is in a frame, or nothing is open. -/
def Holds (r : Reader) : Prop := (r.focus = .root ∧ r.outer = []) ∨ ∃ f, r.focus = .frame f

/-- The reader is where statements stand: in a branch, in a content parameter or
    in nothing at all. -/
def TakesStatements (r : Reader) : Prop :=
  (r.focus = .root ∧ r.outer = []) ∨ ∃ f, r.focus = .frame f ∧ ¬ f.takesItems

/-- The reader with several complete statements added where the focus is. -/
def addStatements (r : Reader) (ds : List Draft) : Reader := ds.foldl addStatement r

theorem TakesStatements.holds (h : r.TakesStatements) : r.Holds :=
  h.imp_right fun ⟨f, hf, _⟩ => ⟨f, hf⟩

theorem TakesStatements.addStatement (h : r.TakesStatements) (d : Draft) :
    (r.addStatement d).TakesStatements := by
  obtain ⟨root, outer, focus⟩ := r
  rcases h with ⟨rfl, rfl⟩ | ⟨f, rfl, hf⟩
  · exact .inl ⟨rfl, rfl⟩
  · refine .inr ⟨f.addStatement d, rfl, ?_⟩
    cases f <;> exact hf

theorem TakesStatements.addStatements (h : r.TakesStatements) (ds : List Draft) :
    (r.addStatements ds).TakesStatements := by
  induction ds generalizing r with
  | nil => exact h
  | cons d rest ih => exact ih (h.addStatement d)

theorem addStatements_append (r : Reader) (ds ds' : List Draft) :
    r.addStatements (ds ++ ds') = (r.addStatements ds).addStatements ds' := List.foldl_append

/-- Doc comments are passed over. -/
theorem TakesStatements.step_doc (h : r.TakesStatements) {chars : List Char}
    (htoken : t.token = .doc chars) : r.step scope t = .ok r := by
  rcases h with ⟨hr, -⟩ | ⟨f, hr, -⟩ <;> simp only [step, hr, htoken]

/-- Text is a statement, or nothing if it is empty. -/
theorem TakesStatements.step_text (h : r.TakesStatements) {chars : List Char}
    (htoken : t.token = .text chars ∨ t.token = .literal chars) :
    r.step scope t = .ok (r.addStatements (Item.text chars t.line).statements) := by
  obtain ⟨root, outer, focus⟩ := r
  rcases h with ⟨rfl, rfl⟩ | ⟨f, rfl, hf⟩
  · rcases htoken with htoken | htoken <;>
    · simp only [step, htoken, Item.statements]
      split <;> rfl
  · rcases htoken with htoken | htoken <;>
    · simp only [step, htoken, Item.statements, Frame.addText_of_not_takesItems hf]
      split <;> rfl

/-- A print or a call is read as a statement. -/
theorem TakesStatements.step_command (h : r.TakesStatements) {keyword : Keyword}
    {text : List Char} {closing : Bool} (htoken : t.token = .command keyword text closing)
    (hkeyword : keyword ∈ [.expression, .print, .call, .delcall]) :
    r.step scope t = atLine t.line (r.stepStatement scope keyword text closing t.line) := by
  rcases h with ⟨hr, -⟩ | ⟨f, hr, hf⟩
  · simp only [step, hr, htoken]
  · simp only [step, hr, htoken]
    cases f with
    | branch o =>
      simp only [List.mem_cons, List.not_mem_nil, or_false] at hkeyword
      rcases hkeyword with rfl | rfl | rfl | rfl <;> rfl
    | param call o => rfl
    | message | case => exact absurd trivial hf

/-- A command that is taken in a message is a print or a call.  Wherever it stands
    it is the same complete statement, or it opens the same call. -/
theorem exists_of_stepItem {keyword : Keyword} {text : List Char} {closing : Bool} {line : Nat}
    (hok : r.stepItem scope keyword text closing line = .ok r') :
    keyword ∈ [.expression, .print, .call, .delcall] ∧
      ((∃ d, r' = r.addStatement d ∧
          ∀ s : Reader, s.stepStatement scope keyword text closing line = .ok (s.addStatement d)) ∨
        ∃ o, r' = r.enter (.call o) ∧
          ∀ s : Reader,
            s.stepStatement scope keyword text closing line = .ok (s.enter (.call o))) := by
  cases keyword
  case expression | print =>
    refine ⟨by decide, .inl ?_⟩
    obtain ⟨content, hcontent, hok⟩ := bind_eq_ok.1 hok
    cases hok
    exact ⟨_, rfl, fun s => by simp only [stepStatement, hcontent]; rfl⟩
  case call | delcall =>
    refine ⟨by decide, ?_⟩
    obtain ⟨content, hcontent, hok⟩ := bind_eq_ok.1 hok
    cases hok
    cases closing with
    | true => exact .inl ⟨_, rfl, fun s => by simp only [stepStatement, hcontent]; rfl⟩
    | false => exact .inr ⟨_, rfl, fun s => by simp only [stepStatement, hcontent]; rfl⟩
  all_goals cases hok

/-! ### Inside of a construct -/

/-- The reader `inner` with what it has open inside of what another one has. -/
def within (inner r : Reader) : Reader := inner.under (r.enter inner.focus)

theorem enter_eq_within (r : Reader) (focus : Focus) :
    r.enter focus = ({ focus } : Reader).within r := by
  rw [within, under, List.nil_append, enter]
  split <;> rfl

theorem leave_within (hr : r.Holds) (houter : inner.outer = []) (d : Draft) :
    (inner.within r).leave d = r.addStatement d := by
  obtain ⟨root, outer, focus⟩ := r
  rw [within, under, houter]
  rcases hr with ⟨rfl, rfl⟩ | ⟨f, rfl⟩ <;> rfl

/-- What becomes of a construct inside of another one: it goes on, or it is
    complete. -/
def resume (r : Reader) : Reader ⊕ Draft → Reader
  | .inl inner => inner.within r
  | .inr d => r.addStatement d

/-- Inside of a construct a step does the same wherever the construct stands. -/
theorem exists_step_within (scope : Scope) (t : Placed) {inner : Reader}
    (hproper : inner.focus.Proper) :
    ∃ outcome : Outcome (Reader ⊕ Draft),
      ∀ r : Reader, r.Holds → (inner.within r).step scope t = outcome.map r.resume := by
  have hstep : MovesAt inner.focus t fun r => r.step scope t := movesAt_step hproper
  obtain ⟨outcome, hfits, hmove⟩ := hstep
  have hwithin : ∀ r : Reader, (inner.within r).step scope t = outcome.map (inner.within r).move :=
    fun r => hmove (inner.within r) rfl
  cases outcome with
  | error fault => exact ⟨.error fault, fun r _ => hwithin r⟩
  | ok m =>
    have hfits := hfits m rfl
    obtain ⟨root, outer, focus⟩ := inner
    cases m with
    | stay focus' =>
      refine ⟨.ok (.inl { root, outer, focus := focus' }), fun r _ => (hwithin r).trans ?_⟩
      refine congrArg Except.ok ?_
      simp only [move, resume, within, under, enter]
      split <;> rfl
    | enter focus' =>
      obtain ⟨⟨frame, rfl⟩, -⟩ := hfits
      refine ⟨.ok (.inl { root, outer := frame :: outer, focus := focus' }), fun r _ =>
        (hwithin r).trans ?_⟩
      refine congrArg Except.ok ?_
      simp only [move, resume, within, under, enter]
      split <;> rfl
    | leave d =>
      cases outer with
      | nil =>
        refine ⟨.ok (.inr d), fun r hr => (hwithin r).trans (congrArg Except.ok ?_)⟩
        exact leave_within hr rfl d
      | cons frame outer =>
        refine ⟨.ok (.inl { root, outer, focus := .frame (frame.addStatement d) }), fun r _ =>
          (hwithin r).trans (congrArg Except.ok ?_)⟩
        simp only [move, resume, within, under, enter]
        split <;> rfl

end Reader

/-! ### Messages with a plural or select -/

/-- A message that has a plural or select, which may still be read. -/
def Focus.choosing : Focus → Prop
  | .frame (.message o) => o.choices ≠ []
  | .frame (.case _ _ _) | .choice _ _ => True
  | _ => False

namespace Reader

variable {r r' inner : Reader}

/-- The outermost construct is a message with a plural or select. -/
inductive Choosing : Reader → Prop
  | here {r : Reader} (h : r.focus.choosing) (houter : r.outer = []) : Choosing r
  | within (inner : Reader) {r : Reader} {f : Frame} (hframe : r.focus = .frame f)
      (h : r.focus.choosing) (houter : r.outer = []) : Choosing (inner.within r)

theorem choosing_addStatement {f : Frame} (h : (Focus.frame f).choosing) (d : Draft) :
    (Focus.frame (f.addStatement d)).choosing := by
  cases f <;> exact h

theorem choosing_addText {f : Frame} (h : (Focus.frame f).choosing) (chars : List Char)
    (line : Nat) : (Focus.frame (f.addText chars line)).choosing := by
  cases f with
  | branch | param => exact h.elim
  | message | case => exact h

theorem choosing_of_stepChoice {msg : OpenMsg} {o : OpenChoice} (h : r.focus.choosing)
    (houter : r.outer = []) (hok : r.stepChoice msg o t = .ok r') : r'.Choosing := by
  rw [stepChoice] at hok
  cases htoken : t.token with
  | doc chars =>
    simp only [htoken] at hok
    cases hok
    exact .here h houter
  | text | literal =>
    simp only [htoken] at hok
    split at hok
    · cases hok
      exact .here h houter
    · cases hok
  | endTag name =>
    simp only [htoken] at hok
    split at hok
    · obtain ⟨choice, -, hok⟩ := bind_eq_ok.1 hok
      cases hok
      exact .here (List.cons_ne_nil _ _) houter
    · cases hok
  | command keyword text closing =>
    cases keyword
    case case =>
      simp only [htoken] at hok
      split at hok
      · cases hok
      · split at hok
        · cases hok
          exact .here trivial houter
        · cases hok
    case default =>
      simp only [htoken] at hok
      split at hok
      · cases hok
      · cases hok
        exact .here trivial houter
    all_goals
      simp only [htoken] at hok
      cases hok

theorem choosing_of_stepItem {f : Frame} (hframe : r.focus = .frame f) (h : r.focus.choosing)
    (houter : r.outer = []) {keyword : Keyword} {text : List Char} {closing : Bool} {line : Nat}
    (hok : r.stepItem scope keyword text closing line = .ok r') : r'.Choosing := by
  obtain ⟨-, ⟨d, rfl, -⟩ | ⟨o, rfl, -⟩⟩ := exists_of_stepItem hok
  · rw [addStatement_of_frame hframe]
    exact .here (choosing_addStatement (hframe ▸ h) d) houter
  · rw [enter_eq_within]
    exact .within _ hframe h houter

/-- A plural or select stays in its message until the message ends. -/
theorem choosing_of_step (h : r.focus.choosing) (houter : r.outer = []) (hnest : nest 0 t ≠ none)
    (hok : r.step scope t = .ok r') : r'.Choosing := by
  have htag : t.msgTag = _ := Placed.msgTag.eq_def t
  rw [nest.eq_def] at hnest
  rw [step] at hok
  cases hfocus : r.focus with
  | root | call =>
    rw [hfocus] at h
    exact h.elim
  | choice msg o =>
    simp only [hfocus] at hok
    exact choosing_of_stepChoice h houter hok
  | frame f =>
    have hf : (Focus.frame f).choosing := hfocus ▸ h
    simp only [hfocus] at hok
    cases htoken : t.token with
    | doc chars =>
      simp only [htoken] at hok
      cases hok
      exact .here h houter
    | text chars | literal chars =>
      simp only [htoken] at hok
      cases hok
      exact .here (choosing_addText hf chars t.line) houter
    | endTag name =>
      simp only [htoken] at hok htag
      cases f with
      | branch | param => exact hf.elim
      | message o =>
        rw [stepEnd] at hok
        split at hok
        · rename_i hname
          rw [htag, if_pos hname] at hnest
          exact absurd rfl hnest
        · cases hok
      | case msg choice o =>
        rw [stepEnd] at hok
        split at hok
        · obtain ⟨choice', -, hok⟩ := bind_eq_ok.1 hok
          exact choosing_of_stepChoice h houter hok
        · cases hok
    | command keyword text closing =>
      simp only [htoken] at hok htag
      cases f with
      | branch | param => exact hf.elim
      | message o =>
        cases keyword
        case fallbackmsg =>
          rw [htag] at hnest
          exact absurd rfl hnest
        case plural | select =>
          obtain ⟨content, -, hok⟩ := bind_eq_ok.1 hok
          cases hok
          exact .here trivial houter
        all_goals exact choosing_of_stepItem hfocus h houter (atLine_eq_ok.1 hok)
      | case msg choice o =>
        cases keyword
        case case | default =>
          obtain ⟨choice', -, hok⟩ := bind_eq_ok.1 hok
          exact choosing_of_stepChoice h houter hok
        all_goals exact choosing_of_stepItem hfocus h houter (atLine_eq_ok.1 hok)

/-- With nothing around it a reader is as it is. -/
theorem under_root (r : Reader) : r.under { root := r.root } = r := by
  rw [under, List.append_nil]

theorem inside_of_step {depth depth' : Nat} (h : Inside depth r.stack)
    (hnest : nest depth t = some depth') (hok : r.step scope t = .ok r') :
    Inside depth' r'.stack := by
  rw [← under_root r] at hok
  obtain ⟨inner, hinner, rfl, hinside⟩ := step_under h hnest hok
  rwa [stack, under, List.append_nil]

theorem eq_zero_of_inside {depth : Nat} {f : Focus} (h : Inside depth [f]) :
    depth = 0 := by
  cases h with
  | message => rfl
  | inner _ h => cases h

theorem Choosing.step {depth depth' : Nat} (h : r.Choosing) (hinside : Inside depth r.stack)
    (hnest : nest depth t = some depth') (hok : r.step scope t = .ok r') : r'.Choosing := by
  cases h with
  | here h houter =>
    rw [stack, houter] at hinside
    rw [eq_zero_of_inside hinside] at hnest
    exact choosing_of_step h houter (by rw [hnest]; exact Option.some_ne_none _) hok
  | @within inner r f hframe h houter =>
    have hproper : inner.focus.Proper := hinside.proper
    obtain ⟨outcome, hstep⟩ := exists_step_within scope t hproper
    rw [hstep r (.inr ⟨f, hframe⟩)] at hok
    obtain ⟨next, -, rfl⟩ := map_eq_ok.1 hok
    cases next with
    | inl inner => exact .within inner hframe h houter
    | inr d =>
      rw [resume, addStatement_of_frame hframe]
      exact .here (choosing_addStatement (hframe ▸ h) d) houter

theorem Choosing.run {ts : List Placed} {depth depth' : Nat} (h : r.Choosing)
    (hinside : Inside depth r.stack) (hnest : ts.foldlM nest depth = some depth')
    (hok : ts.foldlM (Reader.step scope) r = .ok r') : r'.Choosing := by
  induction ts generalizing r depth with
  | nil =>
    cases hok
    exact h
  | cons t rest ih =>
    obtain ⟨mid, hmid, hnest⟩ := Option.bind_eq_some_iff.1 hnest
    obtain ⟨next, hnext, hok⟩ := bind_eq_ok.1 hok
    exact ih (h.step hinside hmid hnext) (inside_of_step hinside hmid hnext) hnest hok

/-! ### Side by side -/

/-- The reader in a message. -/
def inMessage (o : OpenMsg) : Reader := { focus := .frame (.message o) }

/-- The reader that has read the items of a message where the message is not. -/
def unwrap (place : Reader) (o : OpenMsg) : Reader :=
  place.addStatements (o.items.reverse.flatMap Item.statements)

/-- A reader in a plain message and one that reads the same from a place on where
    the message is not.  Both are at their places, or both are in one construct. -/
inductive Parallel (place : Reader) : Reader → Reader → Prop
  | here {o : OpenMsg} (h : o.choices = []) : Parallel place (inMessage o) (place.unwrap o)
  | within (inner : Reader) {o : OpenMsg} (h : o.choices = []) :
      Parallel place (inner.within (inMessage o)) (inner.within (place.unwrap o))

variable {place r₁ r₁' r₂ : Reader} {o : OpenMsg}

theorem unwrap_cons (place : Reader) (o : OpenMsg) (item : Item) :
    place.unwrap { o with items := item :: o.items } =
      (place.unwrap o).addStatements item.statements := by
  rw [unwrap, unwrap, List.reverse_cons, List.flatMap_append, List.flatMap_singleton,
    addStatements_append]

theorem addStatement_parallel (h : o.choices = []) (d : Draft) :
    Parallel place ((inMessage o).addStatement d) ((place.unwrap o).addStatement d) := by
  have hunwrap := unwrap_cons place o (.statement d)
  change place.unwrap _ = (place.unwrap o).addStatement d at hunwrap
  rw [← hunwrap]
  exact .here h

/-- A print or a call directly in a message. -/
theorem parallel_of_stepItem (hplace : place.TakesStatements) (h : o.choices = [])
    {keyword : Keyword} {text : List Char} {closing : Bool}
    (htoken : t.token = .command keyword text closing)
    (hok : (inMessage o).stepItem scope keyword text closing t.line = .ok r₁') :
    ∃ r₂, (place.unwrap o).step scope t = .ok r₂ ∧ Parallel place r₁' r₂ := by
  obtain ⟨hkeyword, hcases⟩ := exists_of_stepItem hok
  have htakes : (place.unwrap o).TakesStatements := hplace.addStatements _
  rw [htakes.step_command htoken hkeyword]
  rcases hcases with ⟨d, rfl, hstatement⟩ | ⟨call, rfl, hcall⟩
  · rw [hstatement]
    exact ⟨_, rfl, addStatement_parallel h d⟩
  · rw [hcall, enter_eq_within, enter_eq_within]
    exact ⟨_, rfl, .within _ h⟩

/-- A token directly in a message. -/
theorem parallel_of_step (hplace : place.TakesStatements) (h : o.choices = [])
    (hnest : nest 0 t ≠ none) (hok : (inMessage o).step scope t = .ok r₁') :
    r₁'.Choosing ∨ ∃ r₂, (place.unwrap o).step scope t = .ok r₂ ∧ Parallel place r₁' r₂ := by
  have htakes : (place.unwrap o).TakesStatements := hplace.addStatements _
  have htag : t.msgTag = _ := Placed.msgTag.eq_def t
  rw [nest.eq_def] at hnest
  cases htoken : t.token with
  | doc chars =>
    simp only [inMessage, step, htoken] at hok
    cases hok
    exact .inr ⟨_, htakes.step_doc htoken, .here h⟩
  | text chars =>
    simp only [inMessage, step, htoken] at hok
    cases hok
    refine .inr ⟨_, htakes.step_text (.inl htoken), ?_⟩
    rw [← unwrap_cons]
    exact .here h
  | literal chars =>
    simp only [inMessage, step, htoken] at hok
    cases hok
    refine .inr ⟨_, htakes.step_text (.inr htoken), ?_⟩
    rw [← unwrap_cons]
    exact .here h
  | endTag name =>
    simp only [inMessage, step, stepEnd, htoken] at hok htag
    split at hok
    · rename_i hname
      rw [htag, if_pos hname] at hnest
      exact absurd rfl hnest
    · cases hok
  | command keyword text closing =>
    rw [htoken] at htag
    simp only [inMessage, step, htoken] at hok
    cases keyword
    case fallbackmsg =>
      rw [htag] at hnest
      exact absurd rfl hnest
    case plural | select =>
      obtain ⟨content, -, hok⟩ := bind_eq_ok.1 hok
      cases hok
      exact .inl (.here trivial rfl)
    all_goals exact .inr (parallel_of_stepItem hplace h htoken (atLine_eq_ok.1 hok))

theorem Parallel.step {depth depth' : Nat} (h : Parallel place r₁ r₂)
    (hplace : place.TakesStatements) (hinside : Inside depth r₁.stack)
    (hnest : nest depth t = some depth') (hok : r₁.step scope t = .ok r₁') :
    r₁'.Choosing ∨ ∃ r₂', r₂.step scope t = .ok r₂' ∧ Parallel place r₁' r₂' := by
  cases h with
  | @here o h =>
    have hzero : depth = 0 := eq_zero_of_inside hinside
    rw [hzero] at hnest
    exact parallel_of_step hplace h (by rw [hnest]; exact Option.some_ne_none _) hok
  | @within inner o h =>
    have hplace' : (place.unwrap o).TakesStatements := hplace.addStatements _
    have hproper : inner.focus.Proper := hinside.proper
    obtain ⟨outcome, hstep⟩ := exists_step_within scope t hproper
    rw [hstep _ (.inr ⟨_, rfl⟩)] at hok
    obtain ⟨next, rfl, rfl⟩ := map_eq_ok.1 hok
    refine .inr ⟨_, hstep _ hplace'.holds, ?_⟩
    cases next with
    | inl inner => exact .within inner h
    | inr d => exact addStatement_parallel h d

theorem Parallel.run {ts : List Placed} {depth depth' : Nat} (h : Parallel place r₁ r₂)
    (hplace : place.TakesStatements) (hinside : Inside depth r₁.stack)
    (hnest : ts.foldlM nest depth = some depth')
    (hok : ts.foldlM (Reader.step scope) r₁ = .ok r₁') :
    r₁'.Choosing ∨ ∃ r₂', ts.foldlM (Reader.step scope) r₂ = .ok r₂' ∧ Parallel place r₁' r₂' := by
  induction ts generalizing r₁ r₂ depth with
  | nil =>
    cases hok
    exact .inr ⟨r₂, rfl, h⟩
  | cons t rest ih =>
    obtain ⟨mid, hmid, hnest⟩ := Option.bind_eq_some_iff.1 hnest
    obtain ⟨next, hnext, hok⟩ := bind_eq_ok.1 hok
    have hinside' := inside_of_step hinside hmid hnext
    rcases h.step hplace hinside hmid hnext with hchoosing | ⟨next', hnext', h'⟩
    · exact .inl (hchoosing.run hinside' hnest hok)
    · rw [List.foldlM_cons, hnext']
      exact ih h' hinside' hnest hok

theorem inside_of_run {ts : List Placed} {depth depth' : Nat} (h : Inside depth r.stack)
    (hnest : ts.foldlM nest depth = some depth')
    (hok : ts.foldlM (Reader.step scope) r = .ok r') : Inside depth' r'.stack := by
  rw [← under_root r] at hok
  obtain ⟨inner, -, rfl, hinside⟩ := run_under h hnest hok
  rwa [stack, under, List.append_nil]

/-- A message in which no other one is open is the outermost construct. -/
theorem outer_eq_nil_of_inside (h : Inside 0 r.stack) (hin : r.focus.inMsg) : r.outer = [] := by
  obtain ⟨root, outer, focus⟩ := r
  cases outer with
  | nil => rfl
  | cons frame outer =>
    rw [stack] at h
    generalize hdepth : 0 = depth at h
    cases h with
    | inner _ h =>
      rw [hin, Bool.toNat_true] at hdepth
      omega

theorem outer_within_ne_nil {f : Frame} (inner : Reader) (hframe : r.focus = .frame f) :
    (inner.within r).outer ≠ [] := by
  rw [within, under, enter, hframe]
  exact List.append_ne_nil_of_right_ne_nil _ (List.cons_ne_nil _ _)

/-- A plain message that has been read, and the reader beside it. -/
theorem Parallel.eq_unwrap (h : Parallel place r₁ r₂) (houter : r₁.outer = [])
    (hfocus : r₁.focus = .frame (.message o)) : o.choices = [] ∧ r₂ = place.unwrap o := by
  cases h with
  | here h =>
    cases hfocus
    exact ⟨h, rfl⟩
  | within inner h => exact absurd houter (outer_within_ne_nil inner rfl)

theorem Choosing.choices_ne_nil (h : r.Choosing) (houter : r.outer = [])
    (hfocus : r.focus = .frame (.message o)) : o.choices ≠ [] := by
  cases h with
  | here h _ =>
    rw [hfocus] at h
    exact h
  | within inner hframe _ _ => exact absurd houter (outer_within_ne_nil inner hframe)

end Reader

/-! ### The content of a message -/

open Message (IsPiece)

/-- A message with a plural or select is not plain. -/
theorem OpenMsg.Sound.choices_eq_nil {o : OpenMsg} (h : o.Sound scope) {msg : Draft}
    {messages : List Draft} (hclose : o.closeMessage = .ok (msg :: messages))
    (hplain : ∀ part ∈ msg.children, IsPiece part.content) : o.choices = [] := by
  obtain ⟨body, hbody, hclose⟩ := bind_eq_ok.1 hclose
  cases hclose
  rw [Tree.children_node] at hplain
  rw [OpenMsg.body] at hbody
  split at hbody
  · assumption
  · rename_i choice hchoices
    split at hbody
    · cases hbody
      obtain ⟨mark, content, children⟩ := choice
      have hchoice := Message.fits_of_reads
        (h.choices _ (by rw [hchoices]; exact List.mem_cons_self))
      have hpiece := hplain _ List.mem_cons_self
      cases content with
      | plural | select => simp [Message.mapPlaceholder, IsPiece] at hpiece
      | _ => cases hchoice
    · cases hbody
  · cases hbody

/-- A plain message puts out what its items do. -/
theorem OpenMsg.written_closeMessage {o : OpenMsg} (hchoices : o.choices = []) {msg : Draft}
    {messages : List Draft} (hclose : o.closeMessage = .ok (msg :: messages))
    (hplain : ∀ part ∈ msg.children, IsPiece part.content) :
    written msg.children = written (o.items.reverse.flatMap Item.statements) := by
  obtain ⟨body, hbody, hclose⟩ := bind_eq_ok.1 hclose
  cases hclose
  rw [OpenMsg.body, hchoices] at hbody
  obtain ⟨⟨parts, calls⟩, hparts, hbody⟩ := bind_eq_ok.1 hbody
  cases hbody
  rw [Tree.children_node] at hplain ⊢
  rw [written, Message.outputsAll_nameAll hplain, Message.written_flatMap_statements]
  exact Message.symbols_of_assemble (assembled_eq_ok.1 hparts)

namespace MsgSpan

/-- The tokens between the tags of a message are read as these statements
    wherever statements stand. -/
def Unwraps (m : MsgSpan) (scope : Scope) (ds : List Draft) : Prop :=
  ∀ place : Reader, place.TakesStatements →
    m.inner.foldlM (Reader.step scope) place = .ok (place.addStatements ds)

/-- The content of a plain message is read where the message is not, and puts out
    what the message does. -/
theorem Gives.exists_unwraps {m : MsgSpan} {msg : Draft} (h : m.Gives scope msg)
    (hplain : ∀ part ∈ msg.children, IsPiece part.content) :
    ∃ ds, m.Unwraps scope ds ∧ written msg.children = written ds := by
  obtain ⟨r, o, messages, hr, hfocus, hclose⟩ := h
  have hsound : r.Sound scope := Reader.sound_of_run hr
  have ho : o.Sound scope := hsound.frame hfocus
  have hchoices := ho.choices_eq_nil hclose hplain
  obtain ⟨start, around, inner, hitems, hstart, hinner, rfl⟩ := m.exists_under hr
  change inner.focus = _ at hfocus
  have hinside : Inside 0 (Reader.inMessage start).stack := .message trivial rfl
  have houter : inner.outer = [] := by
    refine Reader.outer_eq_nil_of_inside (Reader.inside_of_run hinside m.nested hinner) ?_
    rw [hfocus]
    rfl
  refine ⟨_, fun place hplace => ?_, OpenMsg.written_closeMessage hchoices hclose hplain⟩
  have hbegin : place.unwrap start = place := by
    rw [Reader.unwrap, hitems]
    rfl
  have hparallel : Reader.Parallel place (Reader.inMessage start) (place.unwrap start) :=
    .here hstart
  rcases hparallel.run hplace hinside m.nested hinner with hchoosing | ⟨r₂, hr₂, hend⟩
  · exact absurd hchoices (hchoosing.choices_ne_nil houter hfocus)
  · rw [hbegin] at hr₂
    rw [hr₂, (hend.eq_unwrap houter hfocus).2]
    rfl

end MsgSpan

end Body

end Stencil
