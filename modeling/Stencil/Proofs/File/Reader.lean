/-
  Stencil/Proofs/File/Reader.lean
  ===============================
  **Reading the declarations of a file in order.**

  The reader holds what the items before have declared, and it is at the stage that
  they lead to (`Holds`).  It takes a declaration exactly if that leads on, so it gets
  through all items or stops at the first that does not fit (`Holds.run`), and a file
  is read exactly if its declarations are in order
  (`Compiler.parseFile_ok_iff_inOrder`).
-/
import Stencil.Proofs.Compiler.Reading
import Stencil.Proofs.File.Layout
import Stencil.Proofs.File.Order

namespace Stencil

open TypeRegistry (SameProtos)

namespace File

/-! ### What declarations declare -/

/-- What an item of the kind declares; only the first such item counts. -/
def packageOf? (items : List Placed) : Option String :=
  items.findSome? fun t =>
    match t.item with
    | .package text => some (String.ofList text)
    | _ => none

def namespaceOf? (items : List Placed) : Option (String × Autoescape) :=
  items.findSome? fun t =>
    match t.item with
    | .namespaceDecl text => (Reader.readNamespace text).toOption
    | _ => none

/-- The short name that an alias gives: the last segment of a namespace. -/
def lastSegment (text : List Char) : String :=
  String.ofList ((Text.splitOn (· == '.') text).getLastD [])

def aliasesOf (path : String) (items : List Placed) : List Alias :=
  items.filterMap fun t =>
    match t.item with
    | .aliasDecl text =>
      some ⟨String.ofList text, lastSegment text, (Location.ofFile path).atLine t.line⟩
    | _ => none

/-- What a template after some items can see. -/
def scopeOf? (path : String) (items : List Placed) : Option Scope :=
  (namespaceOf? items).map fun (namespaceName, autoescape) =>
    { namespaceName, package := packageOf? items, autoescape, aliases := aliasesOf path items }

/-- The doc comment right after some items, if the last of them is one. -/
def docOf? (items : List Placed) : Option (List Char) :=
  match items.getLast? with
  | some ⟨.doc chars, _⟩ => some chars
  | _ => none

/-- A declaration is well-formed by itself. -/
def Item.IsWellFormed : Item → Prop
  | .package text => Text.isDottedName text
  | .namespaceDecl text => (Reader.readNamespace text).isOk
  | .aliasDecl text => Text.isDottedName text
  | .template _ | .doc _ | .comment => True

instance : DecidablePred Item.IsWellFormed
  | .package text => inferInstanceAs (Decidable (Text.isDottedName text))
  | .namespaceDecl text => inferInstanceAs (Decidable (Reader.readNamespace text).isOk)
  | .aliasDecl text => inferInstanceAs (Decidable (Text.isDottedName text))
  | .template _ | .doc _ | .comment => .isTrue trivial

/-- Items that are well-formed each: aliases give different names, and templates can be
    read in their context, which is looked at where templates may stand. -/
structure AreWellFormed (path : String) (types : TypeRegistry) (items : List Placed) : Prop where
  each : ∀ t ∈ items, t.item.IsWellFormed
  distinct : ((aliasesOf path items).map (·.name)).Nodup
  templates : ∀ before raw line after, items = before ++ ⟨.template raw, line⟩ :: after →
    InOrder (kinds before) → ∀ scope, scopeOf? path before = some scope →
    ((RawTemplate.read scope { raw with doc := docOf? before }).run.run types).1.isOk

/-! ### The reader -/

/-- The stage that a reader is at. -/
def Reader.stage (r : Reader Nat) : Stage :=
  if !r.templates.isEmpty then .inTemplates
  else if r.namespaceDecl.isSome then .named
  else if r.package.isSome then .packaged
  else .start

/-- A reader holds what some items have declared. -/
structure Holds (path : String) (items : List Placed) (r : Reader Nat) : Prop where
  package : r.package = packageOf? items
  namespaceDecl : r.namespaceDecl = namespaceOf? items
  aliases : r.aliases = aliasesOf path items
  doc : r.doc = docOf? items
  stage : stage? (kinds items) = some r.stage
  named : r.templates.isEmpty = false → r.namespaceDecl.isSome

variable {path : String} {items : List Placed} {r : Reader Nat} {types : TypeRegistry}

theorem holds_start : Holds path [] {} := ⟨rfl, rfl, rfl, rfl, rfl, fun h => nomatch h⟩

theorem Holds.scope?_eq (h : Holds path items r) : r.scope? = scopeOf? path items := by
  rw [Reader.scope?, h.namespaceDecl, h.package, h.aliases, scopeOf?]

/-- Before the templates there are none. -/
theorem Reader.templates_eq_nil (h : r.stage ≠ .inTemplates) : r.templates = [] := by
  rw [Reader.stage] at h
  cases htemplates : r.templates with
  | nil => rfl
  | cons _ _ => simp [htemplates] at h

theorem Reader.namespaceDecl_eq_none (h : r.stage = .start ∨ r.stage = .packaged) :
    r.namespaceDecl = none := by
  rw [Reader.stage] at h
  cases hname : r.namespaceDecl with
  | none => rfl
  | some _ => cases htemplates : r.templates.isEmpty <;> simp [hname, htemplates] at h

theorem Holds.isSome_namespaceDecl (hr : Holds path items r)
    (h : r.stage = .named ∨ r.stage = .inTemplates) : r.namespaceDecl.isSome := by
  cases hname : r.namespaceDecl with
  | some _ => rfl
  | none =>
    have hnamed := hr.named
    rw [Reader.stage] at h
    cases htemplates : r.templates.isEmpty with
    | true => cases hpackage : r.package <;> simp [hname, htemplates, hpackage] at h
    | false => simp [hname, htemplates] at hnamed

theorem Reader.isSome_package_eq (h : r.stage = .start ∨ r.stage = .packaged) :
    r.package.isSome = (r.stage == .packaged) := by
  have htemplates : r.templates = [] := Reader.templates_eq_nil (by rcases h with h | h <;> simp [h])
  have hname := Reader.namespaceDecl_eq_none h
  rw [Reader.stage, htemplates, hname]
  cases r.package <;> rfl

/-! ### Steps -/

/-- A reader that takes up what one more item declares holds what all of them have. -/
theorem Holds.concat (hr : Holds path items r) {t : Placed} {r' : Reader Nat}
    (hpackage : r'.package = r.package.or (packageOf? [t]))
    (hname : r'.namespaceDecl = r.namespaceDecl.or (namespaceOf? [t]))
    (haliases : r'.aliases = r.aliases ++ aliasesOf path [t]) (hdoc : r'.doc = docOf? [t])
    (hstage : (kinds [t]).foldlM Stage.next? r.stage = some r'.stage)
    (hnamed : r'.templates.isEmpty = false → r'.namespaceDecl.isSome) :
    Holds path (items ++ [t]) r' where
  package := by rw [hpackage, hr.package, packageOf?, packageOf?, packageOf?, List.findSome?_append]
  namespaceDecl := by
    rw [hname, hr.namespaceDecl, namespaceOf?, namespaceOf?, namespaceOf?, List.findSome?_append]
  aliases := by rw [haliases, hr.aliases, aliasesOf, aliasesOf, aliasesOf, List.filterMap_append]
  doc := by rw [hdoc, docOf?, docOf?, List.getLast?_concat, List.getLast?_singleton]
  stage := by
    have hbefore := hr.stage
    rw [stage?] at hbefore ⊢
    rw [kinds_append, List.foldlM_append, hbefore]
    exact hstage
  named := hnamed

variable {line : Nat} {text : List Char}

theorem Holds.step_package (hr : Holds path items r) (hstage : r.stage = .start)
    (htext : Text.isDottedName text) :
    ∃ r', Answers (SameProtos · types) (r.step readTemplate path ⟨.package text, line⟩) (.ok r') ∧
      Holds path (items ++ [⟨.package text, line⟩]) r' := by
  have hname := Reader.namespaceDecl_eq_none (.inl hstage)
  have htemplates := Reader.templates_eq_nil (by rw [hstage]; decide)
  have hpackage : r.package = none := by
    have hsome := Reader.isSome_package_eq (.inl hstage)
    rw [hstage] at hsome
    exact Option.not_isSome_iff_eq_none.1 (Bool.eq_false_iff.1 hsome)
  have hadd : r.addPackage text = .ok { r with package := some (String.ofList text) } := by
    simp [Reader.addPackage, hpackage, hname, htext]
  refine ⟨{ r with package := some (String.ofList text), doc := none }, ?_, ?_⟩
  · simp only [Reader.step, Reader.declared, hadd]
    exact answers_mk _
  · refine hr.concat ?_ ?_ ?_ rfl ?_ ?_
    · rw [hpackage]
      rfl
    · exact (Option.or_none).symm
    · exact (List.append_nil _).symm
    · rw [hstage]
      simp [Reader.stage, htemplates, hname]
      rfl
    · simp [htemplates]

theorem Holds.step_namespaceDecl (hr : Holds path items r)
    (hstage : r.stage = .start ∨ r.stage = .packaged) (htext : (Reader.readNamespace text).isOk) :
    ∃ r', Answers (SameProtos · types) (r.step readTemplate path ⟨.namespaceDecl text, line⟩) (.ok r') ∧
      Holds path (items ++ [⟨.namespaceDecl text, line⟩]) r' := by
  obtain ⟨declared, hdeclared⟩ := isOk_iff.1 htext
  have hname := Reader.namespaceDecl_eq_none hstage
  have htemplates : r.templates = [] :=
    Reader.templates_eq_nil (by rcases hstage with h | h <;> rw [h] <;> decide)
  have hadd : r.addNamespace text = .ok { r with namespaceDecl := some declared } := by
    rw [Reader.addNamespace, hname, hdeclared]
    rfl
  refine ⟨{ r with namespaceDecl := some declared, doc := none }, ?_, ?_⟩
  · simp only [Reader.step, Reader.declared, hadd]
    exact answers_mk _
  · refine hr.concat ?_ ?_ ?_ rfl ?_ ?_
    · exact (Option.or_none).symm
    · rw [hname, Option.none_or, namespaceOf?, List.findSome?_singleton]
      change some declared = (Reader.readNamespace text).toOption
      rw [hdeclared]
      rfl
    · exact (List.append_nil _).symm
    · have hnext : Reader.stage { r with namespaceDecl := some declared, doc := none } = .named := by
        simp [Reader.stage, htemplates]
      rw [hnext]
      rcases hstage with h | h <;> rw [h] <;> rfl
    · exact fun _ => rfl

theorem Holds.step_aliasDecl (hr : Holds path items r) (hstage : r.stage = .named)
    (htext : Text.isDottedName text)
    (hdistinct : ∀ other ∈ aliasesOf path items, other.name ≠ lastSegment text) :
    ∃ r', Answers (SameProtos · types) (r.step readTemplate path ⟨.aliasDecl text, line⟩) (.ok r') ∧
      Holds path (items ++ [⟨.aliasDecl text, line⟩]) r' := by
  have hname := hr.isSome_namespaceDecl (.inl hstage)
  have htemplates := Reader.templates_eq_nil (by rw [hstage]; decide)
  have hfresh : r.aliases.any (·.name == lastSegment text) = false := by
    rw [hr.aliases, List.any_eq_false]
    exact fun other hother => by simpa using hdistinct other hother
  have hadd : r.addAlias text ((Location.ofFile path).atLine line) =
      .ok { r with aliases := r.aliases ++ aliasesOf path [⟨.aliasDecl text, line⟩] } := by
    have hnamed : r.namespaceDecl.isNone = false := by simpa using hname
    have hduplicate : ¬ r.aliases.any (·.name == lastSegment text) := by simp [hfresh]
    rw [Reader.addAlias, htemplates, hnamed, htext]
    exact if_neg hduplicate
  refine ⟨{ r with aliases := r.aliases ++ aliasesOf path [⟨.aliasDecl text, line⟩], doc := none },
    ?_, ?_⟩
  · simp only [Reader.step, Reader.declared, hadd]
    exact answers_mk _
  · refine hr.concat ?_ ?_ rfl rfl ?_ ?_
    · exact (Option.or_none).symm
    · exact (Option.or_none).symm
    · have hnext : Reader.stage { r with
          aliases := r.aliases ++ aliasesOf path [⟨.aliasDecl text, line⟩], doc := none } = .named :=
        hstage
      rw [hnext, hstage]
      rfl
    · exact fun _ => hname

theorem Holds.step_template (hr : Holds path items r)
    (hstage : r.stage = .named ∨ r.stage = .inTemplates) {raw : RawTemplate}
    (hread : ∀ scope, scopeOf? path items = some scope →
      ((RawTemplate.read scope { raw with doc := docOf? items }).run.run types).1.isOk) :
    ∃ r', Answers (SameProtos · types) (r.step readTemplate path ⟨.template raw, line⟩) (.ok r') ∧
      Holds path (items ++ [⟨.template raw, line⟩]) r' := by
  have hname := hr.isSome_namespaceDecl hstage
  obtain ⟨declared, hdeclared⟩ := Option.isSome_iff_exists.1 hname
  obtain ⟨scope, hscope⟩ : ∃ scope, r.scope? = some scope := by
    rw [Reader.scope?, hdeclared]
    exact ⟨_, rfl⟩
  obtain ⟨template, htemplate⟩ := isOk_iff.1 (hread scope (hr.scope?_eq ▸ hscope))
  have hanswers : Answers (SameProtos · types)
      (RawTemplate.read scope { raw with doc := docOf? items }) (.ok template) := by
    rw [← htemplate]
    exact (RawTemplate.steady_read _ _).answers fun _ => rfl
  refine ⟨{ r with templates := template :: r.templates, doc := none }, ?_, ?_⟩
  · change Answers _ (r.addTemplate readTemplate raw) _
    rw [Reader.addTemplate, hscope, hr.doc]
    exact answers_bind_ok (answers_adapt hanswers _) (answers_mk _)
  · refine hr.concat ?_ ?_ ?_ rfl ?_ ?_
    · exact (Option.or_none).symm
    · exact (Option.or_none).symm
    · exact (List.append_nil _).symm
    · rcases hstage with h | h <;> rw [h] <;> rfl
    · exact fun _ => hname

theorem Holds.step_comment (hr : Holds path items r) {t : Placed} (hkind : t.item.kind? = none) :
    ∃ r', Answers (SameProtos · types) (r.step readTemplate path t) (.ok r') ∧ Holds path (items ++ [t]) r' := by
  obtain ⟨item, line⟩ := t
  cases item with
  | doc chars =>
    refine ⟨{ r with doc := some chars }, answers_mk _, ?_⟩
    exact hr.concat (Option.or_none).symm (Option.or_none).symm (List.append_nil _).symm rfl rfl
      hr.named
  | comment =>
    refine ⟨{ r with doc := none }, answers_mk _, ?_⟩
    exact hr.concat (Option.or_none).symm (Option.or_none).symm (List.append_nil _).symm rfl rfl
      hr.named
  | package | namespaceDecl | aliasDecl | template => cases hkind

/-- A declaration that leads on is taken. -/
theorem Holds.step_of_next?_eq_some (hr : Holds path items r) {t : Placed} {rest : List Placed}
    (hformed : AreWellFormed path types (items ++ t :: rest)) {k : Kind} {next : Stage}
    (hkind : t.item.kind? = some k) (hnext : r.stage.next? k = some next) :
    ∃ r', Answers (SameProtos · types) (r.step readTemplate path t) (.ok r') ∧ Holds path (items ++ [t]) r' := by
  have heach := hformed.each t (List.mem_append_right _ List.mem_cons_self)
  obtain ⟨item, line⟩ := t
  cases item with
  | doc | comment => cases hkind
  | package text =>
    cases hkind
    exact hr.step_package (Stage.eq_of_next?_package hnext) heach
  | namespaceDecl text =>
    cases hkind
    exact hr.step_namespaceDecl (Stage.eq_or_of_next?_namespaceDecl hnext) heach
  | aliasDecl text =>
    cases hkind
    have hdistinct := hformed.distinct
    rw [aliasesOf, List.filterMap_append, List.map_append] at hdistinct
    refine hr.step_aliasDecl (Stage.eq_of_next?_aliasDecl hnext) heach fun other hother => ?_
    exact (List.nodup_append.1 hdistinct).2.2 _ (List.mem_map_of_mem hother) _ List.mem_cons_self
  | template raw =>
    cases hkind
    have hstage := Stage.eq_or_of_next?_template hnext
    have horder : InOrder (kinds items) := by
      rw [inOrder_iff, hr.stage]
      exact hstage.imp (congrArg some) (congrArg some)
    exact hr.step_template hstage (hformed.templates items raw line rest rfl horder)

/-! ### Declarations that may not stand where they do -/

theorem Holds.addPackage_eq_error (hr : Holds path items r) (h : r.stage.next? .package = none) :
    ∃ cause : Cause, cause.errorClass = .structural ∧ r.addPackage text = .error cause := by
  by_cases hpackage : r.package.isSome
  · exact ⟨.duplicatePackage, rfl, if_pos hpackage⟩
  · have hname : r.namespaceDecl.isSome := by
      cases hstage : r.stage with
      | start =>
        rw [hstage] at h
        cases h
      | packaged =>
        rw [Reader.isSome_package_eq (.inr hstage), hstage] at hpackage
        exact absurd rfl hpackage
      | named => exact hr.isSome_namespaceDecl (.inl hstage)
      | inTemplates => exact hr.isSome_namespaceDecl (.inr hstage)
    exact ⟨.latePackage, rfl, (if_neg hpackage).trans (if_pos hname)⟩

theorem Holds.addNamespace_eq_error (hr : Holds path items r)
    (h : r.stage.next? .namespaceDecl = none) : r.addNamespace text = .error .duplicateNamespace := by
  refine if_pos (hr.isSome_namespaceDecl ?_)
  cases hstage : r.stage with
  | named => exact .inl rfl
  | inTemplates => exact .inr rfl
  | start | packaged =>
    rw [hstage] at h
    cases h

theorem Reader.addAlias_eq_error (h : r.stage.next? .aliasDecl = none) {loc : Location} :
    ∃ cause : Cause, cause.errorClass = .structural ∧ r.addAlias text loc = .error cause := by
  cases htemplates : r.templates.isEmpty with
  | false => exact ⟨.lateAlias, rfl, if_pos (by simp [htemplates])⟩
  | true =>
    have hname : r.namespaceDecl = none := by
      cases hname : r.namespaceDecl with
      | none => rfl
      | some _ =>
        have hstage : r.stage = .named := by simp [Reader.stage, htemplates, hname]
        rw [hstage] at h
        cases h
    refine ⟨.earlyAlias, rfl, ?_⟩
    rw [Reader.addAlias, htemplates, hname]
    rfl

theorem Reader.scope?_eq_none (h : r.stage.next? .template = none) : r.scope? = none := by
  have hstage : r.stage = .start ∨ r.stage = .packaged := by
    cases hstage : r.stage with
    | start => exact .inl rfl
    | packaged => exact .inr rfl
    | named | inTemplates =>
      rw [hstage] at h
      cases h
  rw [Reader.scope?, Reader.namespaceDecl_eq_none hstage]
  rfl

/-- A declaration that does not lead on is a fault of structure at its line. -/
theorem Holds.step_of_next?_eq_none (hr : Holds path items r) {t : Placed} {k : Kind}
    (hkind : t.item.kind? = some k) (hnext : r.stage.next? k = none)
    (hline : ∀ raw, t.item = .template raw → raw.line = t.line) :
    ∃ cause : Cause, cause.errorClass = .structural ∧
      Answers (SameProtos · types) (r.step readTemplate path t) (.error ⟨cause, t.line⟩) := by
  obtain ⟨item, line⟩ := t
  cases item with
  | doc | comment => cases hkind
  | package text =>
    cases hkind
    obtain ⟨cause, hclass, hadd⟩ := @Holds.addPackage_eq_error _ _ _ text hr hnext
    refine ⟨cause, hclass, ?_⟩
    simp only [Reader.step, Reader.declared, hadd]
    exact answers_mk _
  | namespaceDecl text =>
    cases hkind
    have hadd := @Holds.addNamespace_eq_error _ _ _ text hr hnext
    refine ⟨.duplicateNamespace, rfl, ?_⟩
    simp only [Reader.step, Reader.declared, hadd]
    exact answers_mk _
  | aliasDecl text =>
    cases hkind
    obtain ⟨cause, hclass, hadd⟩ :=
      @Reader.addAlias_eq_error _ text hnext ((Location.ofFile path).atLine line)
    refine ⟨cause, hclass, ?_⟩
    simp only [Reader.step, Reader.declared, hadd]
    exact answers_mk _
  | template raw =>
    cases hkind
    refine ⟨.earlyTemplate, rfl, ?_⟩
    have hline := hline raw rfl
    change Answers _ (r.addTemplate readTemplate raw) (.error ⟨.earlyTemplate, line⟩)
    rw [Reader.addTemplate, Reader.scope?_eq_none hnext, hline]
    exact answers_mk _

/-! ### Runs -/

/-- A reader gets through the items, or it stops at the first that does not fit. -/
theorem Holds.run {before after : List Placed} (hr : Holds path before r)
    (hformed : AreWellFormed path types (before ++ after))
    (hline : ∀ t ∈ after, ∀ raw, t.item = .template raw → raw.line = t.line) :
    (∃ r', Answers (SameProtos · types) (after.foldlM (Reader.step readTemplate path) r) (.ok r') ∧
        Holds path (before ++ after) r') ∨
      ∃ mid t rest, ∃ cause : Cause, after = mid ++ t :: rest ∧ Fits (kinds (before ++ mid)) ∧
        ¬ Fits (kinds (before ++ mid ++ [t])) ∧ cause.errorClass = .structural ∧
        Answers (SameProtos · types) (after.foldlM (Reader.step readTemplate path) r) (.error ⟨cause, t.line⟩) := by
  induction after generalizing before r with
  | nil => exact .inl ⟨r, answers_mk _, by rwa [List.append_nil]⟩
  | cons t after ih =>
    obtain ⟨ht, hlines⟩ := List.forall_mem_cons.1 hline
    have hsplit : before ++ t :: after = before ++ [t] ++ after := by simp
    have htaken : (∃ r', Answers (SameProtos · types) (r.step readTemplate path t) (.ok r') ∧
        Holds path (before ++ [t]) r') ∨
        ∃ k, t.item.kind? = some k ∧ r.stage.next? k = none := by
      cases hkind : t.item.kind? with
      | none => exact .inl (hr.step_comment hkind)
      | some k =>
        cases hnext : r.stage.next? k with
        | none => exact .inr ⟨k, rfl, hnext⟩
        | some next => exact .inl (hr.step_of_next?_eq_some hformed hkind hnext)
    rw [List.foldlM_cons]
    rcases htaken with ⟨r', hstep, hr'⟩ | ⟨k, hkind, hnext⟩
    · rw [hsplit] at hformed ⊢
      rcases ih hr' hformed hlines with ⟨last, hrun, hlast⟩ | h
      · exact .inl ⟨last, answers_bind_ok hstep hrun, hlast⟩
      · obtain ⟨mid, misfit, rest, cause, rfl, hfits, hmisfit, hclass, hrun⟩ := h
        have hmid : before ++ t :: mid = before ++ [t] ++ mid := by simp
        refine .inr ⟨t :: mid, misfit, rest, cause, rfl, hmid ▸ hfits, hmid ▸ hmisfit, hclass, ?_⟩
        exact answers_bind_ok hstep hrun
    · obtain ⟨cause, hclass, hstep⟩ := hr.step_of_next?_eq_none hkind hnext ht
      have hfits : Fits (kinds before) := fits_iff.2 (hr.stage ▸ rfl)
      have hmisfit : ¬ Fits (kinds (before ++ [t])) := by
        have hone : kinds [t] = [k] := by simp [kinds, hkind]
        rw [fits_iff, kinds_append, hone, stage?_concat, hr.stage, Option.bind_some, hnext]
        decide
      refine .inr ⟨[], t, after, cause, rfl, ?_, ?_, hclass, answers_bind_error hstep⟩
      · rwa [List.append_nil]
      · rwa [List.append_nil]

/-! ### Files -/

/-- A reader that got through the items has all of the file, or misses the namespace. -/
theorem Holds.finish (hr : Holds path items r) :
    (InOrder (kinds items) ∧ ∃ file, r.finish path 0 = .ok file) ∨
      (¬ InOrder (kinds items) ∧ FirstMisfit items 0 ∧
        r.finish path 0 = .error ⟨.missingNamespace, 0⟩) := by
  rw [inOrder_iff, hr.stage]
  by_cases hstage : r.stage = .named ∨ r.stage = .inTemplates
  · refine .inl ⟨hstage.imp (congrArg some) (congrArg some), ?_⟩
    obtain ⟨declared, hdeclared⟩ := Option.isSome_iff_exists.1 (hr.isSome_namespaceDecl hstage)
    rw [Reader.finish, Reader.scope?, hdeclared]
    exact ⟨_, rfl⟩
  · have hearly : r.stage = .start ∨ r.stage = .packaged := by
      cases hs : r.stage with
      | start => exact .inl rfl
      | packaged => exact .inr rfl
      | named => exact absurd (.inl hs) hstage
      | inTemplates => exact absurd (.inr hs) hstage
    refine .inr ⟨fun h => hstage (h.imp Option.some.inj Option.some.inj), ?_, ?_⟩
    · exact .noNamespace (fits_iff.2 (hr.stage ▸ rfl)) (namespaceDecl_not_mem hr.stage hearly)
    · rw [Reader.finish, Reader.scope?, Reader.namespaceDecl_eq_none hearly]
      rfl

/-- A file is read if its items are in order, and else there is a fault of structure at
    the first misfit. -/
theorem answers_read {text : List Char} (hlaid : Laid 1 true text items)
    (hformed : AreWellFormed path types items) :
    (InOrder (kinds items) ∧ ∃ file, Answers (SameProtos · types) (read path text) (.ok file)) ∨
      (¬ InOrder (kinds items) ∧ ∃ cause line, cause.errorClass = .structural ∧
        FirstMisfit items line ∧
        Answers (SameProtos · types) (read path text) (.error ⟨cause, line⟩)) := by
  rw [read_eq, scan_of_laid hlaid]
  rcases holds_start.run hformed (fun t ht raw hraw => hlaid.line_eq ht hraw) with h | h
  · obtain ⟨r, hrun, hr⟩ := h
    rcases hr.finish with ⟨horder, file, hfile⟩ | ⟨horder, hmisfit, hfault⟩
    · refine .inl ⟨horder, file, answers_bind_ok hrun ?_⟩
      rw [← hfile]
      exact answers_mk _
    · refine .inr ⟨horder, .missingNamespace, 0, rfl, hmisfit, answers_bind_ok hrun ?_⟩
      rw [← hfault]
      exact answers_mk _
  · obtain ⟨before, t, after, cause, rfl, hfits, hmisfit, hclass, hrun⟩ := h
    refine .inr ⟨not_inOrder_of_not_fits hmisfit, cause, t.line, hclass, ?_, answers_bind_error hrun⟩
    exact .declaration rfl hfits hmisfit

end File

open File (Laid AreWellFormed InOrder FirstMisfit kinds)

theorem Compiler.parseFile_eq_of_answers {types : TypeRegistry} {path text : String}
    {result : Except (Fault File.Cause) (SourceFile Nat)}
    (h : Answers (SameProtos · types) (File.read path text.toList) result) :
    (Compiler.parseFile types ⟨path, text⟩).1 =
      (result.mapError (File.toParseError path)).map (SourceFile.place 0) := by
  have hread := answers_adapt h (File.toParseError path)
  rw [← (hread types fun _ => rfl).1, Compiler.parseFile_eq]
  rfl

/-- **A file is read exactly if its declarations are in order.**  Where they are not, the
    error is one of structure, at the first declaration that does not fit, or at the file
    as a whole if all fit and the namespace is missing. -/
theorem Compiler.parseFile_ok_iff_inOrder {path text : String} {types : TypeRegistry}
    {items : List File.Placed} (hlaid : Laid 1 true text.toList items)
    (hformed : AreWellFormed path types items) :
    ((∃ file, (Compiler.parseFile types ⟨path, text⟩).1 = .ok file) ↔ InOrder (kinds items)) ∧
      (¬ InOrder (kinds items) → ∃ e line, (Compiler.parseFile types ⟨path, text⟩).1 = .error e ∧
        e.errorClass = .structural ∧ e.location = (Location.ofFile path).atLine line ∧
        FirstMisfit items line) := by
  rcases File.answers_read hlaid hformed with ⟨horder, file, hfile⟩ | ⟨horder, h⟩
  · refine ⟨iff_of_true ⟨_, Compiler.parseFile_eq_of_answers hfile⟩ horder, fun h => absurd horder h⟩
  · obtain ⟨cause, line, hclass, hmisfit, hread⟩ := h
    have hparse := Compiler.parseFile_eq_of_answers hread
    refine ⟨iff_of_false ?_ horder, fun _ => ⟨_, line, hparse, hclass, rfl, hmisfit⟩⟩
    rintro ⟨file, hfile⟩
    cases hparse.symm.trans hfile

/-! ### A file that is out of order -/

namespace File

/-- A file with all kinds of declarations, and an alias after its template. -/
def lateAlias : List Char :=
  "// mail\n\x7bdelpackage acme.mail\x7d\n".toList ++
    "\x7bnamespace acme.views autoescape=\"strict\"\x7d".toList ++
    " /* of a page */\n/** A greeting. */\n".toList ++
    "\x7btemplate .hello\x7d\n  Hello!\n\x7b/template\x7d\n".toList ++
    "\x7balias acme.parts\x7d\n".toList

def lateAliasHeader : List Placed :=
  [⟨.comment, 1⟩, ⟨.package "acme.mail".toList, 2⟩,
    ⟨.namespaceDecl "acme.views autoescape=\"strict\"".toList, 3⟩, ⟨.comment, 3⟩,
    ⟨.doc "/** A greeting. */".toList, 4⟩]

def lateAliasTemplate : RawTemplate := ⟨false, ".hello".toList, "\n  Hello!\n".toList, none, 5⟩

def lateAliasItems : List Placed :=
  lateAliasHeader ++ [⟨.template lateAliasTemplate, 5⟩, ⟨.aliasDecl "acme.parts".toList, 8⟩]

theorem laid_lateAlias : Laid 1 true lateAlias lateAliasItems := by
  have hnewline : ∀ {line : Nat} {rest : List Char} {items : List Placed},
      Laid (line + 1) true rest items → Laid line false ('\n' :: rest) items :=
    fun h => .blank (by decide) h
  have halias := @Laid.declaration 8 .aliasDecl ' ' "acme.parts".toList _ _ (by decide)
    (by decide) (hnewline .done)
  have htemplate := @Laid.template 5 false ' ' ".hello".toList "\n  Hello!\n".toList _ _ (by decide)
    (by decide) (by decide) (hnewline halias)
  have hdoc := @Laid.doc 4 true " A greeting. ".toList _ _ (by decide) (by decide)
    (hnewline htemplate)
  have hpage := @Laid.comment 3 false " of a page ".toList _ _ (by decide) (by decide)
    (hnewline hdoc)
  have hnamespace := @Laid.declaration 3 .namespaceDecl ' '
    "acme.views autoescape=\"strict\"".toList _ _ (by decide) (by decide)
    (@Laid.blank 3 false ' ' _ _ (by decide) hpage)
  have hpackage := @Laid.declaration 2 .package ' ' "acme.mail".toList _ _ (by decide) (by decide)
    (hnewline hnamespace)
  have hmail := @Laid.lineComment 1 true " mail".toList _ _ (by decide) hpackage
  have hwritten : ∀ {written laid}, lateAlias = written → lateAliasItems = laid →
      Laid 1 true written laid → Laid 1 true lateAlias lateAliasItems := by
    rintro _ _ rfl rfl h
    exact h
  refine hwritten ?_ ?_ hmail <;> decide +kernel

/-- A template is the only one among some items if it is none of the others. -/
theorem eq_of_append_template_eq {header rest before after : List Placed} {raw raw' : RawTemplate}
    {line line' : Nat} (hheader : ∀ t ∈ header, t.item.kind? ≠ some .template)
    (hrest : ∀ t ∈ rest, t.item.kind? ≠ some .template)
    (h : header ++ ⟨.template raw, line⟩ :: rest = before ++ ⟨.template raw', line'⟩ :: after) :
    header = before ∧ raw = raw' := by
  rcases List.append_eq_append_iff.1 h with ⟨more, rfl, hmore⟩ | ⟨more, rfl, hmore⟩
  · cases more with
    | nil =>
      cases hmore
      exact ⟨(List.append_nil header).symm, rfl⟩
    | cons t more =>
      cases hmore
      exact absurd rfl (hrest _ (List.mem_append_right _ List.mem_cons_self))
  · cases more with
    | nil =>
      cases hmore
      exact ⟨List.append_nil before, rfl⟩
    | cons t more =>
      cases hmore
      exact absurd rfl (hheader _ (List.mem_append_right _ List.mem_cons_self))

theorem areWellFormed_lateAlias : AreWellFormed "mail.soy" {} lateAliasItems := by
  refine ⟨by decide +kernel, by decide +kernel, ?_⟩
  intro before raw line after heq _ scope hscope
  obtain ⟨rfl, rfl⟩ := eq_of_append_template_eq (by decide +kernel) (by decide +kernel) heq
  have hvisible : scopeOf? "mail.soy" lateAliasHeader =
      some ⟨"acme.views", some "acme.mail", .strict, []⟩ := by decide +kernel
  cases hvisible.symm.trans hscope
  decide +kernel

end File

theorem Compiler.parseFile_ok_iff_inOrder_lateAlias :
    Laid 1 true (String.ofList File.lateAlias).toList File.lateAliasItems ∧
      AreWellFormed "mail.soy" {} File.lateAliasItems ∧ ¬ InOrder (kinds File.lateAliasItems) ∧
      ∃ e line, (Compiler.parseFile {} ⟨"mail.soy", String.ofList File.lateAlias⟩).1 = .error e ∧
        e.errorClass = .structural ∧ e.location = (Location.ofFile "mail.soy").atLine line ∧
        FirstMisfit File.lateAliasItems line := by
  have hlaid : Laid 1 true (String.ofList File.lateAlias).toList File.lateAliasItems := by
    rw [String.toList_ofList]
    exact File.laid_lateAlias
  have hlate : ¬ InOrder (kinds File.lateAliasItems) := by
    rw [File.inOrder_iff]
    decide
  have hfault := (Compiler.parseFile_ok_iff_inOrder hlaid File.areWellFormed_lateAlias).2
  exact ⟨hlaid, File.areWellFormed_lateAlias, hlate, hfault hlate⟩

end Stencil
