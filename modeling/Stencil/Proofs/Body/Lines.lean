/-
  Stencil/Proofs/Body/Lines.lean
  ==============================
  **Where the parts of a body stand.**

  The scanner counts the newlines that it has come past, and every line that it
  names is one it has come to (`located_scan`).  The reader names the lines of its
  tokens and no others, in what it makes and in what it complains about
  (`located_read`).
-/
import Stencil.Proofs.Body.Nesting
import Stencil.Proofs.Message.Assembled

namespace Stencil

/-- All lines of a draft have the property. -/
def Lined (Q : Nat → Prop) (d : Draft) : Prop := d.Each fun n => Q n.mark

variable {Q : Nat → Prop}

theorem lined_leaf {line : Nat} (h : Q line) (content : Content) : Lined Q (.leaf line content) :=
  Tree.each_leaf h

theorem lined_node {line : Nat} (h : Q line) (content : Content) {children : List Draft}
    (hchildren : ∀ k ∈ children, Lined Q k) : Lined Q (.node line content children) :=
  Tree.each_node h hchildren

theorem Message.asksLine_self : AsksLine Q fun n => Q n.mark := ⟨fun _ _ h => h, fun _ h => h⟩

namespace Body

/-! ### The scanner -/

/-- The line where what is open starts, if the mode knows it. -/
def Mode.line? : Mode → Option Nat
  | .comment line _ | .doc line _ | .command line _ _ | .literal line _ => some line
  | _ => none

namespace Scanner

/-- The scanner has come to every line that it names. -/
structure Reached (s : Scanner) : Prop where
  mode : ∀ line, s.mode.line? = some line → line ≤ s.line
  text : s.textLine ≤ s.line
  tokens : ∀ t ∈ s.tokens, t.line ≤ s.line

/-- What a scanner in a line makes of a character, the line aside. -/
def StaysIn (line : Nat) (s : Scanner) : Prop := s.Reached ∧ s.line = line

variable {s : Scanner}

theorem Reached.withMode (h : s.Reached) {mode : Mode}
    (hmode : ∀ line, mode.line? = some line → line ≤ s.line) : StaysIn s.line { s with mode } :=
  ⟨⟨hmode, h.text, h.tokens⟩, rfl⟩

theorem Reached.flush (h : s.Reached) : StaysIn s.line s.flush := by
  rw [Scanner.flush]
  split
  · exact ⟨⟨h.mode, h.text, h.tokens⟩, rfl⟩
  · exact ⟨⟨h.mode, h.text, List.forall_mem_cons.2 ⟨h.text, h.tokens⟩⟩, rfl⟩

theorem Reached.emit (h : s.Reached) (token : Token) {line : Nat} (hline : line ≤ s.line) :
    StaysIn s.line (s.emit token line) := by
  obtain ⟨hflush, heq⟩ := h.flush
  refine ⟨⟨fun _ hnone => (nomatch hnone), hflush.text, ?_⟩, heq⟩
  exact List.forall_mem_cons.2 ⟨heq ▸ hline, hflush.tokens⟩

theorem Reached.addText (h : s.Reached) (c : Char) : StaysIn s.line (s.addText c) := by
  refine ⟨⟨fun _ hnone => (nomatch hnone), ?_, h.tokens⟩, rfl⟩
  rw [Scanner.addText]
  dsimp only
  split
  · exact Nat.le_refl _
  · exact h.text

theorem Reached.stepText (h : s.Reached) (c : Char) :
    Located (· ≤ s.line) (StaysIn s.line) (s.stepText c) := by
  rw [Scanner.stepText]
  split
  · refine located_ok (h.withMode ?_)
    rintro _ ⟨⟩
    exact Nat.le_refl _
  · split
    · exact located_error (Nat.le_refl _)
    · split
      · exact located_ok (h.withMode fun _ hnone => (nomatch hnone))
      · exact located_ok (h.addText c)

theorem Reached.closeTag (h : s.Reached) {line : Nat} (hline : line ≤ s.line) (inside : List Char) :
    Located (· ≤ s.line) (StaysIn s.line) (s.closeTag line inside) := by
  rw [Scanner.closeTag]
  split
  · refine located_ok (h.withMode ?_)
    rintro _ ⟨⟩
    exact hline
  · split
    · exact located_ok (h.emit _ hline)
    · exact located_error (Nat.le_refl _)

theorem Reached.stepCommand (h : s.Reached) {line : Nat} (hline : line ≤ s.line)
    (chars : List Char) (quoted : Option Quoted) (c : Char) :
    Located (· ≤ s.line) (StaysIn s.line) (s.stepCommand line chars quoted c) := by
  have hgoOn : ∀ quoted, Located (· ≤ s.line) (StaysIn s.line)
      (.ok { s with mode := .command line (c :: chars) quoted } : Except (Fault ScanCause) _) := by
    intro quoted
    refine located_ok (h.withMode ?_)
    rintro _ ⟨⟩
    exact hline
  simp only [Scanner.stepCommand]
  split
  · split
    · exact hgoOn _
    · split <;> exact hgoOn _
  · split
    · exact h.closeTag hline _
    · split
      · exact located_error hline
      · split <;> exact hgoOn _

theorem Reached.stepChar (h : s.Reached) (c : Char) :
    Located (· ≤ s.line) (StaysIn s.line) (s.stepChar c) := by
  have hto : ∀ {mode : Mode}, (∀ line, mode.line? = some line → line ≤ s.line) →
      Located (· ≤ s.line) (StaysIn s.line)
        (.ok { s with mode } : Except (Fault ScanCause) Scanner) :=
    fun hmode => located_ok (h.withMode hmode)
  have hplain : ∀ {mode : Mode}, mode.line? = none →
      ∀ line, mode.line? = some line → line ≤ s.line :=
    fun hnone _ hsome => nomatch hnone.symm.trans hsome
  have hopen : ∀ {mode : Mode} {line : Nat}, mode.line? = some line → line ≤ s.line →
      ∀ line', mode.line? = some line' → line' ≤ s.line :=
    fun hmode hline _ hsome => Option.some.inj (hmode.symm.trans hsome) ▸ hline
  have hmode := h.mode
  rw [Scanner.stepChar]
  split
  · exact h.stepText c
  · split
    · exact hto (hplain rfl)
    · split
      · exact hto (hplain rfl)
      · obtain ⟨hslash, hline⟩ := h.addText '/'
        have htext := hslash.stepText c
        rwa [hline] at htext
  · split
    · exact hto (hplain rfl)
    · exact hto (hopen rfl (Nat.le_refl _))
  · split
    · exact located_ok ⟨⟨fun _ hnone => (nomatch hnone), h.text, h.tokens⟩, rfl⟩
    · exact hto (hopen rfl (Nat.le_refl _))
  · rename_i line afterStar heq
    rw [heq] at hmode
    split
    · exact located_ok ⟨⟨fun _ hnone => (nomatch hnone), h.text, h.tokens⟩, rfl⟩
    · exact hto (hopen rfl (hmode line rfl))
  · split
    · have htext : StaysIn s.line { s with mode := .text } := h.withMode (hplain rfl)
      exact htext.1.stepText c
    · exact located_ok ⟨h, rfl⟩
  · rename_i line chars heq
    rw [heq] at hmode
    split
    · exact located_ok (h.emit _ (hmode line rfl))
    · exact hto (hopen rfl (hmode line rfl))
  · rename_i line chars quoted heq
    rw [heq] at hmode
    exact h.stepCommand (hmode line rfl) chars quoted c
  · rename_i line chars heq
    rw [heq] at hmode
    split
    · exact located_ok (h.emit _ (hmode line rfl))
    · exact hto (hopen rfl (hmode line rfl))

theorem Reached.mono (h : s.Reached) {line : Nat} (hline : s.line ≤ line) :
    Reached { s with line } :=
  ⟨fun l hl => Nat.le_trans (h.mode l hl) hline, Nat.le_trans h.text hline,
    fun t ht => Nat.le_trans (h.tokens t ht) hline⟩

theorem Reached.step (h : s.Reached) (c : Char) :
    Located (· ≤ s.line) (StaysIn (s.line + [c].count '\n')) (s.step c) := by
  refine located_map (h.stepChar c) ?_
  rintro s' ⟨hs', hline⟩
  split
  · rename_i hc
    subst hc
    exact ⟨hs'.mono (Nat.le_succ _), congrArg Nat.succ hline⟩
  · rename_i hc
    refine ⟨hs', hline.trans ?_⟩
    rw [List.count_singleton, if_neg (by simpa using hc), Nat.add_zero]

theorem Reached.run (h : s.Reached) (cs : List Char) :
    Located (· ≤ s.line + cs.count '\n') (StaysIn (s.line + cs.count '\n'))
      (cs.foldlM Scanner.step s) := by
  induction cs generalizing s with
  | nil => exact located_ok ⟨h, rfl⟩
  | cons c cs ih =>
    have hcount : s.line + [c].count '\n' + cs.count '\n' = s.line + (c :: cs).count '\n' := by
      change _ = s.line + ([c] ++ cs).count '\n'
      rw [List.count_append, Nat.add_assoc]
    rw [List.foldlM_cons]
    refine located_bind ((h.step c).imp (fun _ => id) fun _ hline => ?_) ?_
    · exact Nat.le_trans hline (Nat.le_add_right _ _)
    · rintro s' ⟨hs', hline⟩
      have hrest := ih hs'
      rwa [hline, hcount] at hrest

theorem Reached.finish (h : s.Reached) :
    Located (· ≤ s.line) (fun scanned => (∀ t ∈ scanned.tokens, t.line ≤ s.line) ∧
      scanned.endLine ≤ s.line) s.finish := by
  have hdone : ∀ {s' : Scanner}, StaysIn s.line s' →
      Located (· ≤ s.line) (fun scanned : Scanned => (∀ t ∈ scanned.tokens, t.line ≤ s.line) ∧
        scanned.endLine ≤ s.line)
        (.ok ⟨s'.flush.tokens.reverse, s'.line⟩ : Except (Fault ScanCause) Scanned) := by
    rintro s' ⟨hs', hline⟩
    obtain ⟨hflush, heq⟩ := hs'.flush
    refine located_ok ⟨fun t ht => ?_, Nat.le_of_eq hline⟩
    rw [← hline, ← heq]
    exact hflush.tokens t (List.mem_reverse.1 ht)
  have hmode := h.mode
  rw [Scanner.finish]
  dsimp only
  split
  · exact hdone ⟨h, rfl⟩
  · exact hdone (h.addText '/')
  · exact hdone ⟨h, rfl⟩
  · exact located_error (Nat.le_refl _)
  · exact located_error (Nat.le_refl _)
  all_goals
    rename_i heq
    rw [heq] at hmode
    exact located_error (hmode _ rfl)

end Scanner

/-- The tokens of a body stand in its lines, and so does what is wrong with them. -/
theorem located_scan (body : List Char) :
    Located (· ≤ body.count '\n') (fun scanned => (∀ t ∈ scanned.tokens, t.line ≤ body.count '\n') ∧
      scanned.endLine ≤ body.count '\n') (scan body) := by
  have hstart : Scanner.Reached {} :=
    ⟨fun _ hnone => (nomatch hnone), Nat.le_refl 0, List.forall_mem_nil _⟩
  have hrun := hstart.run body
  rw [Nat.zero_add] at hrun
  refine located_bind hrun ?_
  rintro s ⟨hs, hline⟩
  have hfinish := hs.finish
  rwa [hline] at hfinish

/-! ### What is open -/

/-- The lines of what stands open, and of what is in it, have the property. -/
structure OpenIf.Lined (Q : Nat → Prop) (o : OpenIf) : Prop where
  line : Q o.line
  branches : ∀ b ∈ o.branches, Stencil.Lined Q b
  branchLine : Q o.branchLine
  body : ∀ d ∈ o.body, Stencil.Lined Q d

structure OpenCall.Lined (Q : Nat → Prop) (o : OpenCall) : Prop where
  line : Q o.line
  params : ∀ p ∈ o.params, Stencil.Lined Q p

structure OpenParam.Lined (Q : Nat → Prop) (o : OpenParam) : Prop where
  line : Q o.line
  body : ∀ d ∈ o.body, Stencil.Lined Q d

/-- The lines of items. -/
abbrev ItemsLined (Q : Nat → Prop) (items : List Message.Item) : Prop :=
  Message.Item.AllEach Q (fun n => Q n.mark) items

structure OpenMsg.Lined (Q : Nat → Prop) (o : OpenMsg) : Prop where
  groupLine : Q o.groupLine
  messages : ∀ m ∈ o.messages, Stencil.Lined Q m
  line : Q o.line
  items : ItemsLined Q o.items
  choices : ∀ c ∈ o.choices, Stencil.Lined Q c

structure OpenChoice.Lined (Q : Nat → Prop) (o : OpenChoice) : Prop where
  line : Q o.line
  cases : ∀ c ∈ o.cases, Stencil.Lined Q c

structure OpenCase.Lined (Q : Nat → Prop) (o : OpenCase) : Prop where
  line : Q o.line
  items : ItemsLined Q o.items

def Frame.Lined (Q : Nat → Prop) : Frame → Prop
  | .branch o => o.Lined Q
  | .param call o => call.Lined Q ∧ o.Lined Q
  | .message o => o.Lined Q
  | .case msg choice o => msg.Lined Q ∧ choice.Lined Q ∧ o.Lined Q

def Focus.Lined (Q : Nat → Prop) : Focus → Prop
  | .root => True
  | .frame f => f.Lined Q
  | .call o => o.Lined Q
  | .choice msg o => msg.Lined Q ∧ o.Lined Q

structure Reader.Lined (Q : Nat → Prop) (r : Reader) : Prop where
  root : ∀ d ∈ r.root, Stencil.Lined Q d
  outer : ∀ f ∈ r.outer, f.Lined Q
  focus : r.focus.Lined Q

/-! ### Closing -/

theorem itemsLined_nil : ItemsLined Q [] := ⟨fun _ _ h => (nomatch h), fun _ h => nomatch h⟩

theorem itemsLined_cons_text {items : List Message.Item} (h : ItemsLined Q items) {line : Nat}
    (hline : Q line) (chars : List Char) : ItemsLined Q (.text chars line :: items) := by
  refine ⟨fun chars' line' hitem => ?_, fun d hd => ?_⟩
  · rcases List.mem_cons.1 hitem with hitem | hitem
    · cases hitem
      exact hline
    · exact h.text chars' line' hitem
  · rcases List.mem_cons.1 hd with hd | hd
    · cases hd
    · exact h.statement d hd

theorem itemsLined_cons {items : List Message.Item} (h : ItemsLined Q items) {d : Draft}
    (hd : Lined Q d) : ItemsLined Q (.statement d :: items) := by
  refine ⟨fun chars line hitem => ?_, fun e he => ?_⟩
  · rcases List.mem_cons.1 hitem with hitem | hitem
    · cases hitem
    · exact h.text chars line hitem
  · rcases List.mem_cons.1 he with he | he
    · cases he
      exact hd
    · exact h.statement e he

theorem located_assembled {items : List Message.Item} (h : ItemsLined Q items) (calls : Nat) :
    Located Q (fun p => ∀ part ∈ p.1, Lined Q part) (assembled calls items) := by
  have hitems : ItemsLined Q items.reverse :=
    ⟨fun chars line hitem => h.text chars line (List.mem_reverse.1 hitem),
      fun d hd => h.statement d (List.mem_reverse.1 hd)⟩
  exact located_mapError (Message.each_assemble Message.asksLine_self hitems calls) _

namespace OpenIf.Lined

variable {o : OpenIf}

theorem closeBranch (h : o.Lined Q) : ∀ b ∈ o.closeBranch, Stencil.Lined Q b :=
  List.forall_mem_cons.2 ⟨lined_node h.branchLine _ (forall_reverse h.body), h.branches⟩

theorem close (h : o.Lined Q) : Stencil.Lined Q o.close :=
  lined_node h.line _ (forall_reverse h.closeBranch)

theorem nextBranch (h : o.Lined Q) {line : Nat} (hline : Q line) (condition : Option Expr) :
    (o.nextBranch line condition).Lined Q :=
  ⟨h.line, h.closeBranch, hline, List.forall_mem_nil _⟩

end OpenIf.Lined

namespace OpenCall.Lined

variable {o : OpenCall}

theorem close (h : o.Lined Q) : Stencil.Lined Q o.close :=
  lined_node h.line _ (forall_reverse h.params)

theorem addParam (h : o.Lined Q) (key : String) {param : Draft} (hparam : Stencil.Lined Q param) :
    Located Q (OpenCall.Lined Q) (o.addParam key param) := by
  rw [OpenCall.addParam]
  split
  · exact located_error hparam.root
  · exact located_ok ⟨h.line, List.forall_mem_cons.2 ⟨hparam, h.params⟩⟩

end OpenCall.Lined

namespace OpenChoice.Lined

variable {o : OpenChoice}

theorem addCase (h : o.Lined Q) {case : OpenCase} (hcase : case.Lined Q) :
    Located Q (OpenChoice.Lined Q) (o.addCase case) :=
  located_bind (located_assembled hcase.items o.calls) fun _ hparts =>
    located_ok ⟨h.line, List.forall_mem_cons.2 ⟨lined_node hcase.line _ hparts, h.cases⟩⟩

theorem close (h : o.Lined Q) : Located Q (Stencil.Lined Q) o.close := by
  rw [OpenChoice.close]
  split
  · exact located_ok (lined_node h.line _ (forall_reverse h.cases))
  · exact located_error h.line

end OpenChoice.Lined

namespace OpenMsg.Lined

variable {o : OpenMsg}

theorem body (h : o.Lined Q) : Located Q (fun b => ∀ p ∈ b, Stencil.Lined Q p) o.body := by
  have hchoices := h.choices
  rw [OpenMsg.body]
  split
  · exact located_bind (located_assembled h.items 0) fun _ hparts => located_ok hparts
  · rename_i choice heq
    split
    · rw [heq] at hchoices
      exact located_ok hchoices
    · exact located_error h.line
  · exact located_error h.line

theorem closeMessage (h : o.Lined Q) :
    Located Q (fun ms => ∀ m ∈ ms, Stencil.Lined Q m) o.closeMessage := by
  refine located_bind h.body fun b hb => located_ok (List.forall_mem_cons.2 ⟨?_, h.messages⟩)
  exact lined_node h.line _ (Message.each_nameAll Message.asksLine_self hb)

theorem close (h : o.Lined Q) : Located Q (Stencil.Lined Q) o.close :=
  located_bind h.closeMessage fun _ hms =>
    located_ok (lined_node h.groupLine _ (forall_reverse hms))

end OpenMsg.Lined

/-! ### Statements in frames -/

theorem Frame.Lined.addStatement {f : Frame} (h : f.Lined Q) {d : Draft} (hd : Stencil.Lined Q d) :
    (f.addStatement d).Lined Q := by
  cases f with
  | branch o => exact ⟨h.line, h.branches, h.branchLine, List.forall_mem_cons.2 ⟨hd, h.body⟩⟩
  | param call o => exact ⟨h.1, h.2.line, List.forall_mem_cons.2 ⟨hd, h.2.body⟩⟩
  | message o => exact { h with items := itemsLined_cons h.items hd }
  | case msg choice o => exact ⟨h.1, h.2.1, h.2.2.line, itemsLined_cons h.2.2.items hd⟩

theorem Frame.Lined.addText {f : Frame} (h : f.Lined Q) (chars : List Char) {line : Nat}
    (hline : Q line) : (f.addText chars line).Lined Q := by
  by_cases htakes : f.takesItems
  · cases f with
    | branch o => exact htakes.elim
    | param call o => exact htakes.elim
    | message o => exact { h with items := itemsLined_cons_text h.items hline chars }
    | case msg choice o =>
      exact ⟨h.1, h.2.1, h.2.2.line, itemsLined_cons_text h.2.2.items hline chars⟩
  · rw [Frame.addText_of_not_takesItems htakes]
    split
    · exact h
    · exact h.addStatement (lined_leaf hline _)

/-- A tag that is wrong is complained about at its line. -/
theorem located_atLine {α : Type} {P : α → Prop} {line : Nat} (hline : Q line)
    {x : Except Cause α} (h : Ensures P x) : Located Q P (atLine line x) := by
  cases x with
  | error cause => exact located_error hline
  | ok a => exact located_ok (h a rfl)

theorem located_tag {α β : Type} {P : β → Prop} {line : Nat} (hline : Q line) (x : Except Cause α)
    {f : α → Outcome β} (hf : ∀ a, Located Q P (f a)) : Located Q P (atLine line x >>= f) :=
  located_bind (located_atLine hline (P := fun _ => True) fun _ _ => trivial) fun a _ => hf a

namespace Reader.Lined

variable {r : Reader} {t : Placed} {scope : Scope}

theorem withFocus (h : r.Lined Q) {focus : Focus} (hfocus : focus.Lined Q) :
    Lined Q { r with focus } := ⟨h.root, h.outer, hfocus⟩

theorem frame (h : r.Lined Q) {f : Frame} (hf : r.focus = .frame f) : f.Lined Q := by
  have hfocus := h.focus
  rwa [hf] at hfocus

theorem addStatement (h : r.Lined Q) {d : Draft} (hd : Stencil.Lined Q d) :
    (r.addStatement d).Lined Q := by
  rw [Reader.addStatement]
  split
  · rename_i f hf
    exact h.withFocus (Frame.Lined.addStatement (h.frame hf) hd)
  · exact ⟨List.forall_mem_cons.2 ⟨hd, h.root⟩, h.outer, h.focus⟩

theorem enter (h : r.Lined Q) {focus : Focus} (hfocus : focus.Lined Q) :
    (r.enter focus).Lined Q := by
  rw [Reader.enter]
  split
  · rename_i f hf
    exact ⟨h.root, List.forall_mem_cons.2 ⟨h.frame hf, h.outer⟩, hfocus⟩
  · exact h.withFocus hfocus

theorem leave (h : r.Lined Q) {d : Draft} (hd : Stencil.Lined Q d) : (r.leave d).Lined Q := by
  obtain ⟨root, outer, focus⟩ := r
  cases outer with
  | nil => exact ⟨List.forall_mem_cons.2 ⟨hd, h.root⟩, h.outer, trivial⟩
  | cons f outer =>
    obtain ⟨hf, houter⟩ := List.forall_mem_cons.1 h.outer
    exact ⟨h.root, houter, hf.addStatement hd⟩

theorem openCall (h : r.Lined Q) (command : String) {line : Nat} (hline : Q line) (closing : Bool)
    (content : Content) : (r.openCall command line closing content).Lined Q := by
  rw [Reader.openCall]
  split
  · exact h.addStatement (lined_leaf hline _)
  · exact h.enter ⟨hline, List.forall_mem_nil _⟩

theorem stepStatement (h : r.Lined Q) (keyword : Keyword) (text : List Char) (closing : Bool)
    {line : Nat} (hline : Q line) :
    Ensures (Lined Q) (r.stepStatement scope keyword text closing line) := by
  have htag : ∀ {α : Type} (x : Except Cause α) {f : α → Reader}, (∀ a, (f a).Lined Q) →
      Ensures (Lined Q) (do pure (f (← x))) := fun x f hf =>
    ensures_bind (P := fun _ => True) (fun _ _ => trivial) fun a _ => ensures_ok (hf a)
  cases keyword
  case expression | print | xid => exact htag _ fun _ => h.addStatement (lined_leaf hline _)
  case ifTag =>
    refine htag _ fun _ => h.enter ?_
    exact ⟨hline, List.forall_mem_nil _, hline, List.forall_mem_nil _⟩
  case call | delcall => exact htag _ fun _ => h.openCall _ hline _ _
  case msg =>
    refine htag _ fun _ => h.enter ?_
    exact ⟨hline, List.forall_mem_nil _, hline, itemsLined_nil, List.forall_mem_nil _⟩
  all_goals exact ensures_error _

theorem stepItem (h : r.Lined Q) (keyword : Keyword) (text : List Char) (closing : Bool)
    {line : Nat} (hline : Q line) :
    Ensures (Lined Q) (r.stepItem scope keyword text closing line) := by
  cases keyword
  case expression | print | call | delcall =>
    rw [Reader.stepItem]
    exact h.stepStatement _ _ _ hline
  all_goals exact ensures_error _

/-! ### Tokens -/

theorem stepCall (h : r.Lined Q) {o : OpenCall} (ho : o.Lined Q) (ht : Q t.line) :
    Located Q (Lined Q) (r.stepCall o t) := by
  rw [Reader.stepCall]
  split
  · exact located_ok h
  · refine located_tag ht _ fun param => ?_
    cases param with
    | value key expr =>
      exact located_bind (ho.addParam key (lined_leaf ht _)) fun _ ho' =>
        located_ok (h.withFocus ho')
    | content key kind => exact located_ok (h.withFocus ⟨ho, ht, List.forall_mem_nil _⟩)
  · split
    · exact located_ok (h.leave ho.close)
    · exact located_error ht
  · split
    · exact located_ok h
    · exact located_error ht

theorem stepChoice (h : r.Lined Q) {msg : OpenMsg} (hmsg : msg.Lined Q) {o : OpenChoice}
    (ho : o.Lined Q) (ht : Q t.line) : Located Q (Lined Q) (r.stepChoice msg o t) := by
  rw [Reader.stepChoice]
  split
  · exact located_ok h
  · split
    · exact located_error ht
    · split
      · exact located_ok (h.withFocus ⟨hmsg, ho, ht, itemsLined_nil⟩)
      · exact located_error ht
  · split
    · exact located_error ht
    · exact located_ok (h.withFocus ⟨hmsg, ⟨ho.line, ho.cases⟩, ht, itemsLined_nil⟩)
  · split
    · refine located_bind ho.close fun choice hclosed => located_ok (h.withFocus ?_)
      exact { hmsg with choices := List.forall_mem_cons.2 ⟨hclosed, hmsg.choices⟩ }
    · exact located_error ht
  · split
    · exact located_ok h
    · exact located_error ht

theorem endCase (h : r.Lined Q) {msg : OpenMsg} (hmsg : msg.Lined Q) {choice : OpenChoice}
    (hchoice : choice.Lined Q) {o : OpenCase} (ho : o.Lined Q) (ht : Q t.line) :
    Located Q (Lined Q) (do r.stepChoice msg (← choice.addCase o) t) :=
  located_bind (hchoice.addCase ho) fun _ hchoice' => h.stepChoice hmsg hchoice' ht

theorem stepCommand {f : Frame} {keyword : Keyword} {text : List Char} {closing : Bool}
    (h : r.Lined Q) (hf : f.Lined Q) (ht : Q t.line) :
    Located Q (Lined Q) (r.stepCommand scope f t keyword text closing) := by
  have hstatement : Located Q (Lined Q)
      (atLine t.line (r.stepStatement scope keyword text closing t.line)) :=
    located_atLine ht (h.stepStatement keyword text closing ht)
  have hitem : Located Q (Lined Q)
      (atLine t.line (r.stepItem scope keyword text closing t.line)) :=
    located_atLine ht (h.stepItem keyword text closing ht)
  cases f with
  | branch o =>
    have hnext : ∀ condition, (o.nextBranch t.line condition).Lined Q :=
      fun condition => OpenIf.Lined.nextBranch hf ht condition
    simp only [Reader.stepCommand]
    split
    · exact located_tag ht _ fun _ => located_ok (h.withFocus (hnext _))
    · exact located_ok (h.withFocus (hnext _))
    · exact hstatement
  | param call o => exact hstatement
  | message o =>
    cases keyword
    case fallbackmsg =>
      refine located_bind (OpenMsg.Lined.closeMessage hf) fun messages hmessages => ?_
      split
      · refine located_tag ht _ fun _ => located_ok (h.withFocus ?_)
        exact ⟨hf.groupLine, hmessages, ht, itemsLined_nil, List.forall_mem_nil _⟩
      · exact located_error ht
    case plural | select =>
      refine located_tag ht _ fun _ => located_ok (h.withFocus ?_)
      exact ⟨hf, ht, List.forall_mem_nil _⟩
    all_goals exact hitem
  | case msg choice o =>
    cases keyword
    case case | default => exact h.endCase hf.1 hf.2.1 hf.2.2 ht
    all_goals exact hitem

theorem stepEnd {f : Frame} (h : r.Lined Q) (hf : f.Lined Q) (ht : Q t.line) (name : String) :
    Located Q (Lined Q) (r.stepEnd f t name) := by
  cases f with
  | branch o =>
    simp only [Reader.stepEnd]
    split
    · exact located_ok (h.leave (OpenIf.Lined.close hf))
    · exact located_error ht
  | param call o =>
    simp only [Reader.stepEnd]
    split
    · have hparam : Stencil.Lined Q (.node o.line (.contentParam o.key o.kind) o.body.reverse) :=
        lined_node hf.2.line _ (forall_reverse hf.2.body)
      exact located_bind (hf.1.addParam _ hparam) fun _ hcall => located_ok (h.withFocus hcall)
    · exact located_error ht
  | message o =>
    simp only [Reader.stepEnd]
    split
    · exact located_bind (OpenMsg.Lined.close hf) fun _ hd => located_ok (h.leave hd)
    · exact located_error ht
  | case msg choice o =>
    simp only [Reader.stepEnd]
    split
    · exact h.endCase hf.1 hf.2.1 hf.2.2 ht
    · exact located_error ht

theorem step (h : r.Lined Q) (ht : Q t.line) : Located Q (Lined Q) (r.step scope t) := by
  have hfocus := h.focus
  rw [Reader.step]
  generalize r.focus = focus at hfocus
  cases focus with
  | root =>
    dsimp only
    split
    · exact located_ok h
    · split
      · exact located_ok h
      · exact located_ok (h.addStatement (lined_leaf ht _))
    · split
      · exact located_ok h
      · exact located_ok (h.addStatement (lined_leaf ht _))
    · exact located_error ht
    · exact located_atLine ht (h.stepStatement _ _ _ ht)
  | frame f =>
    dsimp only
    split
    · exact located_ok h
    · exact located_ok (h.withFocus (Frame.Lined.addText hfocus _ ht))
    · exact located_ok (h.withFocus (Frame.Lined.addText hfocus _ ht))
    · exact h.stepEnd hfocus ht _
    · exact h.stepCommand hfocus ht
  | call o => exact h.stepCall hfocus ht
  | choice msg o => exact h.stepChoice hfocus.1 hfocus.2 ht

theorem finish (h : r.Lined Q) {endLine : Nat} (hend : Q endLine) :
    Located Q (fun drafts => ∀ d ∈ drafts, Stencil.Lined Q d) (r.finish endLine) := by
  have hfocus := h.focus
  rw [Reader.finish]
  generalize r.focus = focus at hfocus
  cases focus with
  | root => exact located_ok (forall_reverse h.root)
  | call o => exact located_error hfocus.line
  | choice msg o => exact located_error hfocus.2.line
  | frame f =>
    cases f with
    | branch o => exact located_error hfocus.line
    | param call o => exact located_error hfocus.2.line
    | message o => exact located_error hend
    | case msg choice o => exact located_error hend

end Reader.Lined

/-- The reader names no lines but those of its tokens and the last one. -/
theorem located_read {scope : Scope} {tokens : List Placed} {endLine : Nat}
    (htokens : ∀ t ∈ tokens, Q t.line) (hend : Q endLine) :
    Located Q (fun drafts => ∀ d ∈ drafts, Lined Q d) (read scope tokens endLine) := by
  have hstart : Reader.Lined Q {} := ⟨List.forall_mem_nil _, List.forall_mem_nil _, trivial⟩
  rw [read]
  refine located_bind (located_foldlM (fun t ht r hr => hr.step (htokens t ht)) hstart) ?_
  exact fun r hr => hr.finish hend

end Body

end Stencil
