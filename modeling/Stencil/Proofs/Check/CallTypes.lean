/-
  Stencil/Proofs/Check/CallTypes.lean
  ===================================
  **The check of calls is sound and complete.**

  The check keeps the formal types of a callee under its identity, so what it
  looks up is what it would compute anew as long as identities differ
  (`Remembers`).  With that it finds the misfits of all passings
  (`checkCallTypes_eq`), and the passings are the meetings of arguments with
  formal types that the call graph says (`mem_passings_iff`).
-/
import Stencil.Check.CallTypes
import Stencil.Proofs.Check.IndirectParams
import Stencil.Proofs.Ty.Registry

namespace Stencil

/-! ### Arguments, formal types and when they fit -/

/-- A call in a template passes an argument of a type under a name: a value of
    known type, content of a kind, or a parameter that the template declares by
    a tag and forwards. -/
inductive PassesArgument (caller : PlacedTemplate) (call : Node) : String → Ty → Prop
  | value {param : Node} {key : String} {value : Expr} {ty : Ty} (hparam : param ∈ call.children)
      (hcontent : param.content = .valueParam key value) (hty : value.ty = some ty) :
      PassesArgument caller call key ty
  | content {param : Node} {key : String} {kind : ContentKind} (hparam : param ∈ call.children)
      (hcontent : param.content = .contentParam key (some kind)) :
      PassesArgument caller call key (Ty.ofContentKind kind)
  | forwarded {p : Param} (hall : call.passesAll = true) (hp : p ∈ caller.info.params)
      (hsource : p.source = .header) (hkey : p.name ∉ call.paramKeys) :
      PassesArgument caller call p.name p.ty

/-- A callee expects a type under a name: its own declared type, the latest
    declaration counts, or any type that is declared for an indirect
    parameter. -/
inductive FormalType (templates : List PlacedTemplate) (callee : PlacedTemplate) (name : String) :
    Ty → Prop
  | declared {before after : List Param} {p : Param}
      (hparams : callee.info.params = before ++ p :: after) (hname : p.name = name)
      (hlast : ∀ q ∈ after, q.name ≠ name) : FormalType templates callee name p.ty
  | indirect {t : PlacedTemplate} {p : Param} (hcontributes : Contributes templates callee name t)
      (hp : p ∈ t.info.params) (hname : p.name = name) : FormalType templates callee name p.ty

/-- A type may be passed where a callee expects another under a name. -/
def Acceptable (callee : PlacedTemplate) (name : String) (actual formal : Ty) : Prop :=
  ((formal = .any ∨ formal = .unknown) ∧ actual.isProto = false) ∨
    ((formal ≠ .any ∧ formal ≠ .unknown) ∧
      (actual = .unknown ∨ formal.accepts actual = true ∨
        (¬ Declares callee name ∧ actual.isUnion = true ∧ actual.isNullable = true ∧
          (Ty.join [formal, .null]).accepts actual = true)))

theorem mem_arguments_iff {caller : PlacedTemplate} {call : Node} {name : String} {ty : Ty} :
    (∃ a ∈ arguments caller call, a.name = name ∧ a.ty = ty) ↔
      PassesArgument caller call name ty := by
  constructor
  · rintro ⟨a, ha, rfl, rfl⟩
    rcases List.mem_append.1 ha with ha | ha
    · obtain ⟨param, hparam, harg⟩ := List.mem_filterMap.1 ha
      unfold Tree.argument? at harg
      split at harg
      · rename_i hcontent
        obtain ⟨ty, hty, rfl⟩ := Option.map_eq_some_iff.1 harg
        exact .value hparam hcontent hty
      · rename_i hcontent
        obtain ⟨kind, rfl, rfl⟩ := Option.map_eq_some_iff.1 harg
        exact .content hparam hcontent
      · cases harg
    · unfold forwardedArguments at ha
      split at ha
      · rename_i hall
        obtain ⟨p, hp, rfl⟩ := List.mem_map.1 ha
        obtain ⟨hp, hkey⟩ := List.mem_filter.1 hp
        obtain ⟨hp, hsource⟩ := List.mem_filter.1 hp
        exact .forwarded hall hp (by simpa using hsource) (by simpa using hkey)
      · cases ha
  · intro h
    cases h with
    | @value param key value ty hparam hcontent hty =>
      refine ⟨⟨name, ty, param.loc⟩, ?_, rfl, rfl⟩
      refine List.mem_append_left _ (List.mem_filterMap.2 ⟨param, hparam, ?_⟩)
      simp [Tree.argument?, hcontent, hty]
    | @content param key kind hparam hcontent =>
      refine ⟨⟨name, Ty.ofContentKind kind, param.loc⟩, ?_, rfl, rfl⟩
      refine List.mem_append_left _ (List.mem_filterMap.2 ⟨param, hparam, ?_⟩)
      simp [Tree.argument?, hcontent]
    | @forwarded p hall hp hsource hkey =>
      refine ⟨⟨p.name, p.ty, call.loc⟩, List.mem_append_right _ ?_, rfl, rfl⟩
      rw [forwardedArguments, if_pos hall]
      refine List.mem_map.2 ⟨p, List.mem_filter.2 ⟨?_, by simpa using hkey⟩, rfl⟩
      exact List.mem_filter.2 ⟨hp, by simp [hsource]⟩

theorem Passing.isOpen_iff {formal : Ty} :
    Passing.isOpen formal = true ↔ formal = .any ∨ formal = .unknown := by
  simp [Passing.isOpen]

/-- Why an argument does not fit a formal type. -/
def Passing.misfit? (p : Passing) : Option Misfit := (p.check {}).1

/-- Which types are known does not matter, and only unions are learnt. -/
theorem Passing.check_eq (types : TypeRegistry) (p : Passing) :
    (p.check types).1 = p.misfit? ∧
      ((p.check types).2 = types ∨ ∃ ty, (p.check types).2 = types.remember ty) := by
  unfold misfit? check
  split
  · exact ⟨rfl, .inl rfl⟩
  · split
    · exact ⟨rfl, .inl rfl⟩
    · split
      · exact ⟨rfl, .inl rfl⟩
      · split
        · rw [TypeRegistry.union_eq, TypeRegistry.union_eq]
          exact ⟨rfl, .inr ⟨_, rfl⟩⟩
        · exact ⟨rfl, .inl rfl⟩

theorem Passing.misfit?_eq_none_iff {p : Passing} {callee : PlacedTemplate}
    (hindirect : p.indirect = true ↔ ¬ Declares callee p.argument.name) :
    p.misfit? = none ↔ Acceptable callee p.argument.name p.argument.ty p.formal := by
  unfold Passing.misfit? Passing.check Acceptable
  rw [← hindirect]
  by_cases hopen : Passing.isOpen p.formal = true
  · have hformal := Passing.isOpen_iff.1 hopen
    have hnot : ¬ (p.formal ≠ .any ∧ p.formal ≠ .unknown) := by tauto
    rw [if_pos hopen]
    cases hproto : p.argument.ty.isProto <;> simp [hformal, hnot]
  · have hformal : p.formal ≠ .any ∧ p.formal ≠ .unknown := by
      rw [Passing.isOpen_iff] at hopen
      tauto
    have hnot : ¬ (p.formal = .any ∨ p.formal = .unknown) := by tauto
    rw [if_neg hopen]
    by_cases hunknown : p.argument.ty = .unknown
    · simp [hunknown, hformal]
    · by_cases haccepts : p.formal.accepts p.argument.ty = true
      · simp [haccepts, hformal]
      · simp only [hunknown, haccepts, if_false, Passing.isRelaxed, TypeRegistry.union_eq]
        -- what is left is an indirect parameter that gets a nullable union
        cases hind : p.indirect <;> cases hunion : p.argument.ty.isUnion <;>
          cases hnull : p.argument.ty.isNullable <;> simp_all

/-! ### Formal types -/

section Formals

variable {templates : List PlacedTemplate} {index : TemplateIndex} {callee : PlacedTemplate}

/-- The entry for a parameter that the callee declares is its latest
    declaration. -/
theorem find?_formals_eq_some_iff_of_declares {name : String} {f : Formals}
    (h : Declares callee name) :
    (index.formals callee).find? (·.name == name) = some f ↔
      ∃ before p after, callee.info.params = before ++ p :: after ∧ p.name = name ∧
        (∀ q ∈ after, q.name ≠ name) ∧ f = ⟨p.name, [p.ty], false⟩ := by
  obtain ⟨q, hq, hqname⟩ := h
  have hsome : ∃ p, callee.info.params.reverse.find? (·.name == name) = some p := by
    rw [← Option.isSome_iff_exists, List.find?_isSome]
    exact ⟨q, List.mem_reverse.2 hq, by simp [hqname]⟩
  obtain ⟨p, hfind⟩ := hsome
  have hformals : (index.formals callee).find? (·.name == name) =
      some ⟨p.name, [p.ty], false⟩ := by
    rw [TemplateIndex.formals, List.find?_append, List.find?_map]
    change (Option.map _ (callee.info.params.reverse.find? (·.name == name))).or _ = _
    rw [hfind]
    rfl
  obtain ⟨hname, as, bs, hsplit, hlast⟩ := List.find?_eq_some_iff_append.1 hfind
  have hparams : callee.info.params = bs.reverse ++ p :: as.reverse := by
    have hrev := congrArg List.reverse hsplit
    simpa using hrev
  rw [hformals]
  constructor
  · intro h
    refine ⟨bs.reverse, p, as.reverse, hparams, by simpa using hname, ?_, (Option.some.inj h).symm⟩
    intro r hr
    simpa using hlast r (List.mem_reverse.1 hr)
  · rintro ⟨before, p', after, hparams', hname', hlast', rfl⟩
    have hfind' : callee.info.params.reverse.find? (·.name == name) = some p' := by
      rw [List.find?_eq_some_iff_append]
      refine ⟨by simp [hname'], after.reverse, before.reverse, by simp [hparams'], ?_⟩
      intro r hr
      simpa using hlast' r (List.mem_reverse.1 hr)
    rw [Option.some.inj (hfind.symm.trans hfind')]

/-- The entry for any other parameter is the indirect one. -/
theorem find?_formals_of_not_declares {name : String} (h : ¬ Declares callee name) :
    (index.formals callee).find? (·.name == name) =
      ((index.indirectParams callee).params.find? (·.name == name)).map
        fun e => ⟨e.name, e.types, true⟩ := by
  have hnone : callee.info.params.reverse.find? (·.name == name) = none := by
    rw [List.find?_eq_none]
    intro p hp hname
    exact h ⟨p, List.mem_reverse.1 hp, by simpa using hname⟩
  rw [TemplateIndex.formals, List.find?_append, List.find?_map, List.find?_map]
  change (Option.map _ (callee.info.params.reverse.find? (·.name == name))).or _ = _
  rw [hnone]
  rfl

/-- An argument meets exactly the formal types that the callee expects. -/
theorem mem_meet_formals_iff (hbuild : TemplateIndex.build templates = .ok index)
    (hids : (templates.map (·.mark.id)).Nodup) (hcallee : callee ∈ templates) {a : Argument}
    {p : Passing} :
    p ∈ meet (index.formals callee) a ↔
      p.argument = a ∧ FormalType templates callee a.name p.formal ∧
        (p.indirect = true ↔ ¬ Declares callee a.name) := by
  have hmeet : p ∈ meet (index.formals callee) a ↔
      ∃ f, (index.formals callee).find? (·.name == a.name) = some f ∧
        ∃ formal ∈ f.types, ⟨a, formal, f.indirect⟩ = p := by
    unfold meet
    cases (index.formals callee).find? (·.name == a.name) <;> simp
  rw [hmeet]
  by_cases hdeclares : Declares callee a.name
  · constructor
    · rintro ⟨f, hfind, formal, hformal, rfl⟩
      obtain ⟨before, q, after, hparams, hname, hlast, rfl⟩ :=
        (find?_formals_eq_some_iff_of_declares hdeclares).1 hfind
      rw [List.mem_singleton.1 hformal]
      exact ⟨rfl, .declared hparams hname hlast, by simp [hdeclares]⟩
    · obtain ⟨argument, formal, indirect⟩ := p
      rintro ⟨rfl, hformal, hindirect⟩
      have hdirect : indirect = false := by simpa [hdeclares] using hindirect
      cases hformal with
      | @declared before after q hparams hname hlast =>
        refine ⟨_, (find?_formals_eq_some_iff_of_declares hdeclares).2
          ⟨before, q, after, hparams, hname, hlast, rfl⟩, q.ty, by simp, ?_⟩
        rw [hdirect]
      | indirect hcontributes _ _ => exact absurd hdeclares hcontributes.2.1
  · rw [find?_formals_of_not_declares hdeclares]
    constructor
    · rintro ⟨f, hfind, formal, hformal, rfl⟩
      obtain ⟨e, he, rfl⟩ := Option.map_eq_some_iff.1 hfind
      have hname : e.name = a.name := by simpa using List.find?_some he
      obtain ⟨t, hcontributes, q, hq, hqname, rfl⟩ :=
        (TemplateIndex.mem_types_iff hbuild hids hcallee (List.mem_of_find?_eq_some he) formal).1
          hformal
      rw [hname] at hcontributes hqname
      exact ⟨rfl, .indirect hcontributes hq hqname, by simp [hdeclares]⟩
    · obtain ⟨argument, formal, indirect⟩ := p
      rintro ⟨rfl, hformal, hindirect⟩
      have hind : indirect = true := by simpa [hdeclares] using hindirect
      cases hformal with
      | @declared before after q hparams hname hlast =>
        exact absurd ⟨q, by simp [hparams], hname⟩ hdeclares
      | @indirect t q hcontributes hq hname =>
        obtain ⟨e, he, hename⟩ :=
          (TemplateIndex.exists_indirectParam_iff hbuild hids hcallee _).2 ⟨t, hcontributes⟩
        have hfind : (index.indirectParams callee).params.find? (·.name == argument.name) =
            some e := by
          cases hfind : (index.indirectParams callee).params.find? (·.name == argument.name) with
          | none => simpa [hename] using List.find?_eq_none.1 hfind e he
          | some e' =>
            have hname' : e'.name = argument.name := by simpa using List.find?_some hfind
            rw [(TemplateIndex.sound_indirectParams hbuild hids hcallee).ascending.eq_of_name_eq
              (List.mem_of_find?_eq_some hfind) he (hname'.trans hename.symm)]
        refine ⟨⟨e.name, e.types, true⟩, by rw [hfind]; rfl, q.ty, ?_, by rw [hind]⟩
        rw [← hename] at hcontributes hname
        exact (TemplateIndex.mem_types_iff hbuild hids hcallee he _).2
          ⟨t, hcontributes, q, hq, hname, rfl⟩

end Formals

/-! ### The check as a list of passings -/

/-- The passings of a template's calls in order: call by call, callee by callee,
    argument by argument. -/
def TemplateIndex.passings (index : TemplateIndex) (caller : PlacedTemplate) : List Passing :=
  (Tree.calls caller.body).flatMap fun call =>
    (index.calleesOf call).flatMap fun callee =>
      (arguments caller call).flatMap (meet (index.formals callee))

namespace CallCheck

variable {templates : List PlacedTemplate} {index : TemplateIndex}

/-- What is kept under the identity of a template are its formal types. -/
def Remembers (templates : List PlacedTemplate) (index : TemplateIndex) (c : CallCheck) : Prop :=
  ∀ t ∈ templates, ∀ formals, c.formals.lookup t.mark.id = some formals →
    formals = index.formals t

/-- A later check has the misfits of some passings besides those of an earlier
    one, and what it keeps is right. -/
structure Checks (templates : List PlacedTemplate) (index : TemplateIndex) (c' c : CallCheck)
    (passings : List Passing) : Prop where
  misfits : c'.misfits = c.misfits ++ passings.filterMap Passing.misfit?
  remembers : Remembers templates index c'

/-- Steps that check some passings each check all of them one after the other. -/
theorem checks_foldl {α : Type} {step : CallCheck → α → CallCheck} {passings : α → List Passing}
    (xs : List α)
    (hstep : ∀ x ∈ xs, ∀ c, Remembers templates index c →
      Checks templates index (step c x) c (passings x))
    (c : CallCheck) (hc : Remembers templates index c) :
    Checks templates index (xs.foldl step c) c (xs.flatMap passings) := by
  induction xs generalizing c with
  | nil => exact ⟨by simp, hc⟩
  | cons x rest ih =>
    have hhead := hstep x (by simp) c hc
    have hrest := ih (fun y hy => hstep y (List.mem_cons_of_mem _ hy)) (step c x) hhead.remembers
    refine ⟨?_, hrest.remembers⟩
    rw [List.foldl_cons, hrest.misfits, hhead.misfits]
    simp

theorem checks_checkPassing (c : CallCheck) (hc : Remembers templates index c) (p : Passing) :
    Checks templates index (c.checkPassing p) c [p] := by
  refine ⟨?_, hc⟩
  change c.misfits ++ (p.check c.types).1.toList = _
  rw [(p.check_eq c.types).1]
  cases hp : p.misfit? <;> simp [hp]

theorem formalsOf_spec (index : TemplateIndex) (hids : (templates.map (·.mark.id)).Nodup) {callee : PlacedTemplate}
    (hcallee : callee ∈ templates) {c : CallCheck} (hc : Remembers templates index c) :
    (formalsOf index c callee).1 = index.formals callee ∧
      Checks templates index (formalsOf index c callee).2 c [] := by
  unfold formalsOf
  split
  · rename_i formals hlookup
    exact ⟨hc callee hcallee formals hlookup, by simp, hc⟩
  · refine ⟨rfl, by simp, ?_⟩
    intro t ht formals hlookup
    by_cases hid : t.mark.id = callee.mark.id
    · rw [List.inj_on_of_nodup_map hids ht hcallee hid]
      simpa [hid] using hlookup.symm
    · rw [List.lookup_cons, beq_false_of_ne hid] at hlookup
      exact hc t ht formals hlookup

theorem checks_checkCall (hids : (templates.map (·.mark.id)).Nodup) (caller : PlacedTemplate)
    (call : Node) {callee : PlacedTemplate} (hcallee : callee ∈ templates) (c : CallCheck)
    (hc : Remembers templates index c) :
    Checks templates index (checkCall index caller call c callee) c
      ((arguments caller call).flatMap (meet (index.formals callee))) := by
  obtain ⟨hformals, hlooked⟩ := formalsOf_spec index hids hcallee hc
  have hchecked := checks_foldl ((arguments caller call).flatMap (meet (index.formals callee)))
    (fun p _ c hc => checks_checkPassing c hc p) _ hlooked.remembers
  refine ⟨?_, ?_⟩
  · simpa [checkCall, hformals, hlooked.misfits] using hchecked.misfits
  · simpa [checkCall, hformals] using hchecked.remembers

theorem checks_checkTemplate (hbuild : TemplateIndex.build templates = .ok index)
    (hids : (templates.map (·.mark.id)).Nodup) (caller : PlacedTemplate) (c : CallCheck)
    (hc : Remembers templates index c) :
    Checks templates index (checkTemplate index c caller) c (index.passings caller) := by
  refine checks_foldl _ ?_ c hc
  intro call _ c hc
  refine checks_foldl _ ?_ c hc
  intro callee hcallee c hc
  have hresolves := (TemplateIndex.mem_calleesOf_iff hbuild).1 hcallee
  exact checks_checkCall hids caller call hresolves.1 c hc

end CallCheck

/-- The misfits found are those of all passings in order. -/
theorem checkCallTypes_eq {templates : List PlacedTemplate} {index : TemplateIndex}
    (hbuild : TemplateIndex.build templates = .ok index)
    (hids : (templates.map (·.mark.id)).Nodup) (types : TypeRegistry) :
    (checkCallTypes index templates types).1 =
      (templates.flatMap index.passings).filterMap Passing.misfit? := by
  have hstart : CallCheck.Remembers templates index { types } := by simp [CallCheck.Remembers]
  have hchecks := CallCheck.checks_foldl templates
    (fun caller _ c hc => CallCheck.checks_checkTemplate hbuild hids caller c hc) _ hstart
  simpa [checkCallTypes] using hchecks.misfits

theorem mem_passings_iff {templates : List PlacedTemplate} {index : TemplateIndex}
    (hbuild : TemplateIndex.build templates = .ok index)
    (hids : (templates.map (·.mark.id)).Nodup) {caller : PlacedTemplate} {p : Passing} :
    p ∈ index.passings caller ↔
      ∃ call ∈ Tree.calls caller.body, ∃ callee, Resolves templates call callee ∧
        p.argument ∈ arguments caller call ∧
          FormalType templates callee p.argument.name p.formal ∧
            (p.indirect = true ↔ ¬ Declares callee p.argument.name) := by
  simp only [TemplateIndex.passings, List.mem_flatMap, TemplateIndex.mem_calleesOf_iff hbuild]
  constructor
  · rintro ⟨call, hcall, callee, hresolves, a, ha, hp⟩
    obtain ⟨rfl, hformal, hindirect⟩ := (mem_meet_formals_iff hbuild hids hresolves.1).1 hp
    exact ⟨call, hcall, callee, hresolves, ha, hformal, hindirect⟩
  · rintro ⟨call, hcall, callee, hresolves, ha, hformal, hindirect⟩
    exact ⟨call, hcall, callee, hresolves, p.argument, ha,
      (mem_meet_formals_iff hbuild hids hresolves.1).2 ⟨rfl, hformal, hindirect⟩⟩

/-- **Calls are found right exactly when they are.**  Nothing is found where every
    argument of every call is acceptable for every type that a callee expects,
    and only there. -/
theorem checkCallTypes_eq_nil_iff {set : FileSet} {index : TemplateIndex}
    (hbuild : TemplateIndex.build set.templates = .ok index)
    (hids : (set.templates.map (·.mark.id)).Nodup) (types : TypeRegistry) :
    (checkCallTypes index set.templates types).1 = [] ↔
      ∀ caller ∈ set.templates, ∀ call ∈ Tree.calls caller.body, ∀ callee,
        Resolves set.templates call callee → ∀ name actual formal,
          PassesArgument caller call name actual → FormalType set.templates callee name formal →
            Acceptable callee name actual formal := by
  rw [checkCallTypes_eq hbuild hids, List.filterMap_eq_nil_iff]
  constructor
  · intro h caller hcaller call hcall callee hresolves name actual formal hargument hformal
    obtain ⟨a, ha, rfl, rfl⟩ := mem_arguments_iff.2 hargument
    obtain ⟨indirect, hindirect⟩ : ∃ b : Bool, b = true ↔ ¬ Declares callee a.name := by
      classical exact ⟨decide _, decide_eq_true_iff⟩
    refine (Passing.misfit?_eq_none_iff hindirect).1 (h ⟨a, formal, indirect⟩ ?_)
    refine List.mem_flatMap.2 ⟨caller, hcaller, (mem_passings_iff hbuild hids).2 ?_⟩
    exact ⟨call, hcall, callee, hresolves, ha, hformal, hindirect⟩
  · intro h p hp
    obtain ⟨caller, hcaller, hp⟩ := List.mem_flatMap.1 hp
    obtain ⟨call, hcall, callee, hresolves, ha, hformal, hindirect⟩ :=
      (mem_passings_iff hbuild hids).1 hp
    refine (Passing.misfit?_eq_none_iff hindirect).2 ?_
    exact h caller hcaller call hcall callee hresolves _ _ _
      (mem_arguments_iff.1 ⟨p.argument, ha, rfl, rfl⟩) hformal

theorem checkCallTypes_eq_nil_iff_forwardingCycle :
    let templates := forwardingCycle.templates
    ∃ index, TemplateIndex.build templates = .ok index ∧ (templates.map (·.mark.id)).Nodup ∧
      ((checkCallTypes index templates {}).1 = [] ↔
        ∀ caller ∈ templates, ∀ call ∈ Tree.calls caller.body, ∀ callee,
          Resolves templates call callee → ∀ name actual formal,
            PassesArgument caller call name actual → FormalType templates callee name formal →
              Acceptable callee name actual formal) := by
  have hslots : (forwardingCycle.templates.map (·.slot)).Nodup := by decide
  obtain ⟨index, hbuild⟩ := TemplateIndex.exists_build_iff.2 hslots
  exact ⟨index, hbuild, by decide, checkCallTypes_eq_nil_iff hbuild (by decide) {}⟩

end Stencil
