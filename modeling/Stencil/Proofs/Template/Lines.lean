/-
  Stencil/Proofs/Template/Lines.lean
  ==================================
  **Templates on other lines.**

  The lines of a template, and those of complaints about it, are counted from its
  opening tag and lie within its text (`RawTemplate.runsLocated_readFromOpening`).
  So a template that stands further down is read in the same way further down
  (`RawTemplate.mirrors_read`).
-/
import Stencil.Proofs.Body.Lines
import Stencil.Proofs.Tree.Lines
import Stencil.Template.Reader

namespace Stencil

/-- The complaint with its line changed. -/
def Fault.mapLine {Cause : Type} (f : Nat → Nat) (fault : Fault Cause) : Fault Cause :=
  { fault with line := f fault.line }

/-- The template with its marks and those of its nodes changed. -/
def Template.mapMarks {α β : Type} (f : α → β) (t : Template α) : Template β :=
  { mark := f t.mark, info := t.info, body := Tree.mapAll f t.body }

/-- The alias declared on another line. -/
def Alias.mapLine (f : Nat → Nat) (a : Alias) : Alias := { a with loc := a.loc.mapLine f }

/-! ### Scopes -/

namespace Scope

/-- The scope with its aliases declared on other lines. -/
def mapLine (f : Nat → Nat) (scope : Scope) : Scope :=
  { scope with aliases := scope.aliases.map (Alias.mapLine f) }

/-- Where an alias is declared does not matter for the names that it is a part of. -/
theorem callee?_mapLine (f : Nat → Nat) (scope : Scope) :
    (scope.mapLine f).callee? = scope.callee? := by
  funext name
  have hresolve : (scope.mapLine f).resolveAlias name = scope.resolveAlias name := by
    have hfind : ∀ first, (scope.mapLine f).aliases.find? (·.name == first) =
        (scope.aliases.find? (·.name == first)).map (Alias.mapLine f) :=
      fun _ => List.find?_map
    rw [resolveAlias, resolveAlias, hfind]
    cases scope.aliases.find? (·.name == String.ofList (name.takeWhile (· != '.'))) <;> rfl
  rw [callee?, callee?, hresolve]
  rfl

end Scope

namespace Body

variable (f : Nat → Nat) (scope : Scope)

theorem stepStatement_mapLine :
    Reader.stepStatement (scope.mapLine f) = Reader.stepStatement scope := by
  have hcall : basicCall (scope.mapLine f) = basicCall scope := by
    funext text
    rw [basicCall, basicCall, Scope.callee?_mapLine]
  funext r keyword text selfClosing line
  cases keyword <;> simp only [Reader.stepStatement, hcall]

theorem stepItem_mapLine : Reader.stepItem (scope.mapLine f) = Reader.stepItem scope := by
  funext r keyword text selfClosing line
  cases keyword <;> simp only [Reader.stepItem, stepStatement_mapLine]

theorem step_mapLine : Reader.step (scope.mapLine f) = Reader.step scope := by
  have hcommand : Reader.stepCommand (scope.mapLine f) = Reader.stepCommand scope := by
    funext r frame t keyword text selfClosing
    rw [Reader.stepCommand.eq_def, stepStatement_mapLine, stepItem_mapLine,
      ← Reader.stepCommand.eq_def]
  funext r t
  rw [Reader.step, Reader.step, stepStatement_mapLine, hcommand]

theorem read_mapLine : read (scope.mapLine f) = read scope := by
  funext tokens endLine
  rw [read, read, step_mapLine]

end Body

theorem RawTemplate.read_mapLine (f : Nat → Nat) (scope : Scope) (raw : RawTemplate) :
    raw.read (scope.mapLine f) = raw.read scope := by
  have hdeclare : raw.declare (scope.mapLine f) = raw.declare scope := rfl
  rw [RawTemplate.read, RawTemplate.read, readFromOpening_eq, readFromOpening_eq, hdeclare,
    Body.read_mapLine]

/-! ### Declarations -/

namespace Header

variable {Q : Nat → Prop}

theorem located_addParams {params : List (Param × Nat)} (h : ∀ p ∈ params, Q p.2)
    (info : TemplateInfo) : Located Q (fun _ => True) (addParams info params) := by
  refine located_foldlM (R := fun _ => True) (fun p hp info _ => ?_) trivial
  obtain ⟨param, line⟩ := p
  dsimp only
  cases addParam info param with
  | error cause => exact located_error (h (param, line) hp)
  | ok info => exact located_ok trivial

/-- The tags that declare parameters and the tokens after them are among the tokens. -/
theorem mem_of_mem_splitParamTags (doc : Option (List Char)) (tokens : List Body.Placed) :
    (∀ tag ∈ (splitParamTags doc tokens).1, ∃ t ∈ tokens, t.line = tag.line) ∧
      (splitParamTags doc tokens).2 ⊆ tokens := by
  induction tokens generalizing doc with
  | nil => exact ⟨fun _ htag => (nomatch htag), fun _ ht => ht⟩
  | cons t rest ih =>
    have hskip : ∀ doc',
        (∀ tag ∈ (splitParamTags doc' rest).1, ∃ t' ∈ t :: rest, t'.line = tag.line) ∧
          (splitParamTags doc' rest).2 ⊆ t :: rest := by
      intro doc'
      refine ⟨fun tag htag => ?_, List.subset_cons_of_subset t (ih doc').2⟩
      obtain ⟨t', ht', hline⟩ := (ih doc').1 tag htag
      exact ⟨t', List.mem_cons_of_mem t ht', hline⟩
    rw [splitParamTags]
    split
    · split
      · exact hskip _
      · have hfirst : ∃ t' ∈ t :: rest, t'.line = t.line := ⟨t, List.mem_cons_self, rfl⟩
        exact ⟨List.forall_mem_cons.2 ⟨hfirst, (hskip none).1⟩, (hskip none).2⟩
      · exact hskip _
    · exact ⟨List.forall_mem_nil _, fun _ ht => ht⟩

theorem runsLocated_readParam {tag : ParamTag} (h : Q tag.line) :
    RunsLocated Q (fun p => Q p.2) (readParam tag) := by
  rw [readParam]
  split
  · exact runsLocated_throw h
  · exact runsLocated_bind (runsLocated_adapt_at h _ _) fun _ _ => runsLocated_pure h

end Header

namespace RawTemplate

/-- The number of lines of a template after the line of its opening tag. -/
def height (raw : RawTemplate) : Nat := raw.body.count '\n'

variable (scope : Scope) (raw : RawTemplate)

theorem located_declare : Located (· ≤ raw.height) (fun _ => True) (raw.declare scope) := by
  have hopening : Located (· ≤ raw.height) (fun _ => True)
      ((Header.opening scope raw).mapError fun cause => (⟨cause, 0⟩ : Fault HeaderCause)) := by
    cases Header.opening scope raw with
    | error cause => exact located_error (Nat.zero_le _)
    | ok info => exact located_ok trivial
  refine located_bind hopening fun info _ => Header.located_addParams ?_ _
  exact List.forall_mem_map.2 fun _ _ => Nat.zero_le _

theorem runsLocated_orFail {Cause α : Type} {Q : Nat → Prop} {P : α → Prop}
    {result : Except (Fault Cause) α} (h : Located Q P result) (f : Cause → TemplateCause) :
    RunsLocated Q P (orFail f result) :=
  runsLocated_mk (located_mapError h f)

/-- Counted from its opening tag the lines of a template are within its text. -/
theorem runsLocated_readFromOpening :
    RunsLocated (· ≤ raw.height) (fun t => t.mark = 0 ∧ ∀ d ∈ t.body, Lined (· ≤ raw.height) d)
      (raw.readFromOpening scope) := by
  rw [readFromOpening_eq]
  refine runsLocated_bind (runsLocated_orFail (Body.located_scan raw.body) _) ?_
  rintro scanned ⟨htokens, hend⟩
  refine runsLocated_bind (runsLocated_orFail (raw.located_declare scope) _) fun info _ => ?_
  obtain ⟨htags, hrest⟩ := Header.mem_of_mem_splitParamTags none scanned.tokens
  have hparams : RunsLocated (· ≤ raw.height) (fun params => ∀ p ∈ params, p.2 ≤ raw.height)
      ((Header.splitParamTags none scanned.tokens).1.mapM Header.readParam) := by
    refine runsLocated_mapM fun tag htag => ?_
    obtain ⟨t, ht, hline⟩ := htags tag htag
    exact Header.runsLocated_readParam (Q := (· ≤ raw.height)) (hline ▸ htokens t ht)
  refine runsLocated_bind (runsLocated_adapt hparams _) fun params hparams => ?_
  refine runsLocated_bind (runsLocated_orFail (Header.located_addParams hparams info) _) ?_
  intro info _
  have hbody : Located (· ≤ raw.height) _ (Body.read scope _ scanned.endLine) :=
    Body.located_read (fun t ht => htokens t (hrest ht)) hend
  exact runsLocated_bind (runsLocated_orFail hbody _) fun body hbody =>
    runsLocated_pure ⟨rfl, hbody⟩

/-- Lines are counted from the start of the file in the end. -/
theorem mirrors_read_readFromOpening :
    Mirrors (Template.mapMarks (· + raw.line)) (·.down raw.line) (raw.readFromOpening scope)
      (raw.read scope) :=
  mirrors_changed _ _ _

/-- **A template on another line** is read as on its own, with all lines changed, if the
    change is the same for all lines of the template. -/
theorem mirrors_read {f : Nat → Nat} (hf : ∀ d ≤ raw.height, f (d + raw.line) = d + f raw.line) :
    Mirrors (Template.mapMarks f) (Fault.mapLine f) (raw.read scope)
      ({ raw with line := f raw.line }.read scope) := by
  have hmoved : Mirrors (Template.mapMarks (· + f raw.line)) (·.down (f raw.line))
      (raw.readFromOpening scope) ({ raw with line := f raw.line }.read scope) :=
    mirrors_read_readFromOpening scope { raw with line := f raw.line }
  refine (mirrors_read_readFromOpening scope raw).between hmoved (fun s t ht => ?_)
    fun s fault hfault => ?_
  · obtain ⟨hmark, hbody⟩ := (raw.runsLocated_readFromOpening scope s).ensures t ht
    have hlines : Tree.mapAll (· + f raw.line) t.body =
        Tree.mapAll f (Tree.mapAll (· + raw.line) t.body) := by
      rw [Tree.mapAll_mapAll]
      exact Tree.mapAll_congr _ fun d hd => (hbody d hd).imp fun n hn => (hf n.mark hn).symm
    rw [Template.mapMarks, Template.mapMarks, Template.mapMarks, hlines,
      ← hf t.mark (hmark ▸ Nat.zero_le _)]
  · have hline := (raw.runsLocated_readFromOpening scope s).fault fault hfault
    rw [Fault.down, ← hf fault.line hline]
    rfl

end RawTemplate

end Stencil
