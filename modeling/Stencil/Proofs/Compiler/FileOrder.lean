/-
  Stencil/Proofs/Compiler/FileOrder.lean
  ======================================
  **The order of files does not matter.**

  Compilers that are set up alike and get the same sources in different orders
  come to the same verdict (`sameVerdict_of_perm`), whatever they have compiled
  before.  What a compiler learns from compiling are unions, which no reader
  sees; and another order of the files makes other identities, which no check
  sees.
-/
import Stencil.Proofs.Check.Views
import Stencil.Proofs.Compiler.Reading

namespace Stencil

open TypeRegistry (SameProtos)

/-! ### Clashes -/

namespace SlotClash

/-- Two of the templates have the slot of the clash and stand at its places. -/
def Among (clash : SlotClash) (ts : List PlacedTemplate) : Prop :=
  [(clash.slot, clash.first), (clash.slot, clash.second)].Subperm
    (ts.map fun t => (t.slot, t.mark.loc))

/-- A clash is reported between two of the templates. -/
theorem among_of_build_eq_error {ts : List PlacedTemplate} {clash : SlotClash}
    (h : TemplateIndex.build ts = .error clash) : clash.Among ts := by
  obtain ⟨t, u, hsub, hslot, rfl⟩ := TemplateIndex.exists_of_build_eq_error h
  have hpair := (hsub.map fun t => (t.slot, t.mark.loc)).subperm
  rwa [List.map_cons, List.map_cons, ← hslot] at hpair

theorem among_iff_of_perm_views {set set' : FileSet} (hviews : set.views.Perm set'.views)
    (clash : SlotClash) : clash.Among set.templates ↔ clash.Among set'.templates := by
  have hmap : ∀ set : FileSet, set.templates.map (fun t => (t.slot, t.mark.loc)) =
      set.views.map fun view => (view.slot, view.mark) := by
    intro set
    rw [FileSet.views, List.map_map]
    rfl
  rw [Among, hmap, (hviews.map _).subperm_left, ← hmap]
  exact Iff.rfl

theorem among_resolveTypes (set : FileSet) (clash : SlotClash) :
    clash.Among set.resolveTypes.templates ↔ clash.Among set.templates := by
  rw [Among, FileSet.templates_resolveTypes, List.map_map]
  exact Iff.rfl

end SlotClash

namespace VersionClash

/-- One of the templates is not valid at the declared version, as the clash says. -/
def Among (clash : VersionClash) (ts : List PlacedTemplate) : Prop :=
  ∃ t ∈ ts, t.versionClash? clash.declared = some clash

theorem declared_eq {t : PlacedTemplate} {declared : SyntaxVersion} {clash : VersionClash}
    (h : t.versionClash? declared = some clash) : clash.declared = declared := by
  rw [Template.versionClash?] at h
  split at h
  · split at h
    · cases h
      rfl
    · cases h
  · cases h

theorem among_of_versionClash? {set : FileSet} {declared : SyntaxVersion} {clash : VersionClash}
    (h : set.versionClash? declared = some clash) : clash.Among set.templates := by
  obtain ⟨t, ht, hclash⟩ := List.exists_of_findSome?_eq_some h
  exact ⟨t, ht, by rwa [declared_eq hclash]⟩

theorem among_of_perm_views {set set' : FileSet} (hviews : set.views.Perm set'.views)
    {clash : VersionClash} (h : clash.Among set.templates) : clash.Among set'.templates := by
  obtain ⟨t, ht, hclash⟩ := h
  obtain ⟨t', ht', hview⟩ := List.mem_map.1 (hviews.mem_iff.1 (List.mem_map_of_mem ht))
  refine ⟨t', ht', ?_⟩
  have hloc : t'.mark.loc = t.mark.loc := congrArg (fun view : Template Location => view.mark) hview
  rw [Template.versionClash?, Template.info_eq_of_view_eq hview, hloc]
  exact hclash

/-- Whether a template is not valid at a version does not depend on the order. -/
theorem exists_of_perm_views {set set' : FileSet} (hviews : set.views.Perm set'.views)
    {declared : SyntaxVersion} {clash : VersionClash} (h : set.versionClash? declared = some clash) :
    ∃ clash', set'.versionClash? declared = some clash' ∧ clash'.Among set.templates := by
  obtain ⟨t, ht, hclash⟩ := among_of_perm_views hviews (among_of_versionClash? h)
  obtain ⟨_, -, hfound⟩ := List.exists_of_findSome?_eq_some h
  rw [declared_eq hfound] at hclash
  have hsome : (set'.versionClash? declared).isSome := by
    refine List.findSome?_isSome_iff.2 ⟨t, ht, ?_⟩
    rw [hclash]
    rfl
  obtain ⟨clash', hclash'⟩ := Option.isSome_iff_exists.1 hsome
  exact ⟨clash', hclash', among_of_perm_views hviews.symm (among_of_versionClash? hclash')⟩

end VersionClash

/-! ### What a compiler keeps -/

theorem foldl_keeps {α β γ : Type} {f : β → γ} {step : β → α → β}
    (h : ∀ b a, f (step b a) = f b) (as : List α) (b : β) : f (as.foldl step b) = f b := by
  induction as generalizing b with
  | nil => rfl
  | cons a as ih => rw [List.foldl_cons, ih, h]

namespace CallCheck

variable (index : TemplateIndex)

theorem protos_checkPassing (c : CallCheck) (p : Passing) :
    (c.checkPassing p).types.protos = c.types.protos := by
  change (p.check c.types).2.protos = _
  rcases (p.check_eq c.types).2 with htypes | ⟨ty, htypes⟩
  · rw [htypes]
  · rw [htypes, TypeRegistry.protos_remember]

theorem types_formalsOf (c : CallCheck) (callee : PlacedTemplate) :
    (c.formalsOf index callee).2.types = c.types := by
  rw [formalsOf]
  split <;> rfl

theorem protos_checkCall (caller : PlacedTemplate) (call : Node) (c : CallCheck)
    (callee : PlacedTemplate) :
    (c.checkCall index caller call callee).types.protos = c.types.protos := by
  rw [← types_formalsOf index c callee]
  exact foldl_keeps (f := fun c : CallCheck => c.types.protos) protos_checkPassing _ _

theorem protos_checkTemplate (c : CallCheck) (caller : PlacedTemplate) :
    (c.checkTemplate index caller).types.protos = c.types.protos :=
  foldl_keeps (f := fun c : CallCheck => c.types.protos) (fun c call =>
    foldl_keeps (f := fun c : CallCheck => c.types.protos)
      (protos_checkCall index caller call) _ c) _ c

end CallCheck

theorem protos_checkCallTypes (index : TemplateIndex) (ts : List PlacedTemplate)
    (types : TypeRegistry) : (checkCallTypes index ts types).2.protos = types.protos :=
  foldl_keeps (f := fun c : CallCheck => c.types.protos) (CallCheck.protos_checkTemplate index) ts _

namespace Compiler

variable {c c' : Compiler} {sources sources' : List Source}

/-- Compilers with the same options and the same registered protos. -/
structure SetUpAlike (c c' : Compiler) : Prop where
  options : c.options = c'.options
  protos : SameProtos c.types c'.types

theorem SetUpAlike.symm (h : c.SetUpAlike c') : c'.SetUpAlike c :=
  ⟨h.options.symm, fun name => (h.protos name).symm⟩

theorem SetUpAlike.trans {c'' : Compiler} (h : c.SetUpAlike c') (h' : c'.SetUpAlike c'') :
    c.SetUpAlike c'' :=
  ⟨h.options.trans h'.options, fun name => (h.protos name).trans (h'.protos name)⟩

/-- How each source is read by any compiler with some protos. -/
theorem exists_answers (types : TypeRegistry) :
    ∃ answer : Source → Except ParseError (SourceFile Nat), ∀ sources : List Source,
      Answers (SameProtos · types) (sources.mapM readSource) (sources.mapM answer) := by
  have hsteady : ∀ source, Steady (SameProtos · types) (readSource source) := steady_readSource
  choose answer hanswer using hsteady
  exact ⟨answer, answers_mapM hanswer⟩

theorem setUpAlike_parse (c : Compiler) (sources : List Source) :
    (c.parse sources).2.SetUpAlike c := by
  obtain ⟨answer, hanswer⟩ := exists_answers c.types
  rw [parse_eq]
  exact ⟨rfl, (hanswer sources c.types fun _ => rfl).2⟩

theorem setUpAlike_check (c : Compiler) (set : FileSet) : (c.check set).2.2.SetUpAlike c := by
  have hcalls : ∀ set : FileSet, (c.checkCalls set).2.SetUpAlike c := by
    intro set
    rw [checkCalls]
    split
    · exact ⟨rfl, fun _ => rfl⟩
    · split
      · exact ⟨rfl, fun name => congrArg (List.lookup name) (protos_checkCallTypes _ _ _)⟩
      · exact ⟨rfl, fun _ => rfl⟩
  rw [check]
  split
  · exact ⟨rfl, fun _ => rfl⟩
  · exact hcalls _

theorem setUpAlike_compile (c : Compiler) (sources : List Source) (bundle : Option Bundle) :
    (c.compile sources bundle).2.SetUpAlike c := by
  have hparse := c.setUpAlike_parse sources
  rw [compile]
  split
  · rename_i heq
    rwa [heq] at hparse
  · rename_i set mid heq
    rw [heq] at hparse
    have hcheck := (mid.setUpAlike_check set).trans hparse
    split
    · rename_i heq'
      rwa [heq'] at hcheck
    · rename_i heq'
      rw [heq'] at hcheck
      split <;> exact hcheck

/-- The compiler after it has compiled other sources, each with a bundle or without. -/
def after (c : Compiler) (runs : List (List Source × Option Bundle)) : Compiler :=
  runs.foldl (fun c run => (c.compile run.1 run.2).2) c

theorem setUpAlike_after (c : Compiler) (runs : List (List Source × Option Bundle)) :
    (c.after runs).SetUpAlike c := by
  induction runs generalizing c with
  | nil => exact ⟨rfl, fun _ => rfl⟩
  | cons run rest ih => exact (ih _).trans (c.setUpAlike_compile run.1 run.2)

/-! ### Reading in another order -/

theorem exists_parse_of_perm (hsetup : c.SetUpAlike c') (hperm : sources.Perm sources')
    {set : FileSet} (h : (c.parse sources).1 = .ok set) :
    ∃ set', (c'.parse sources').1 = .ok set' ∧ set.views.Perm set'.views := by
  obtain ⟨answer, hanswer⟩ := exists_answers c.types
  have hfirst := (hanswer sources c.types fun _ => rfl).1
  have hsecond := (hanswer sources' c'.types hsetup.symm.protos).1
  rw [parse_eq] at h
  obtain ⟨drafts, hdrafts, rfl⟩ := map_eq_ok.1 (mapError_eq_ok.1 h)
  have hdrafts' : sources.mapM answer = .ok drafts := hfirst.symm.trans hdrafts
  obtain ⟨drafts', hdrafts', hperm'⟩ := exists_perm_of_mapM hperm hdrafts'
  refine ⟨FileSet.place drafts', ?_, FileSet.perm_views_place hperm'⟩
  rw [parse_eq]
  exact mapError_eq_ok.2 (map_eq_ok.2 ⟨drafts', hsecond.trans hdrafts', rfl⟩)

/-! ### Checking in another order -/

/-- Verdicts of the same kind on a file set.  Which clash is reported may differ, as
    long as the file set has both; arguments that do not fit are all reported. -/
inductive SameVerdict (set : FileSet) : Except CompileError Unit → Except CompileError Unit → Prop
  | ok : SameVerdict set (.ok ()) (.ok ())
  | version {clash clash' : VersionClash} (h : clash.Among set.templates)
      (h' : clash'.Among set.templates) :
      SameVerdict set (.error (.version clash)) (.error (.version clash'))
  | slots {clash clash' : SlotClash} (h : clash.Among set.templates)
      (h' : clash'.Among set.templates) :
      SameVerdict set (.error (.slots clash)) (.error (.slots clash'))
  | callTypes {misfits misfits' : List Misfit} (h : misfits.Perm misfits') :
      SameVerdict set (.error (.callTypes misfits)) (.error (.callTypes misfits'))

variable {set set' : FileSet}

theorem exists_build_of_perm_views (hviews : set.views.Perm set'.views) {index : TemplateIndex}
    (hbuild : TemplateIndex.build set.templates = .ok index) :
    ∃ index', TemplateIndex.build set'.templates = .ok index' := by
  have hslots : ∀ set : FileSet, set.templates.map (·.slot) = set.views.map (·.slot) := by
    intro set
    rw [FileSet.views, List.map_map]
    rfl
  rw [TemplateIndex.exists_build_iff, hslots, ← (hviews.map _).nodup_iff, ← hslots]
  exact (TemplateIndex.refines_of_build_eq_ok hbuild).nodup

theorem indexed_of_parse (h : (c.parse sources).1 = .ok set) {index : TemplateIndex}
    (hbuild : TemplateIndex.build set.resolveTypes.templates = .ok index) :
    Indexed set.resolveTypes.templates index :=
  have hshaped := FileSet.shapedBody_of_parse h
  ⟨hbuild, (FileSet.WellFormed.resolveTypes hshaped (wellFormed_of_parse h)).nodup_templates,
    FileSet.shapedBody_of_mem_resolveTypes hshaped⟩

theorem sameVerdict_checkCalls (h : (c.parse sources).1 = .ok set)
    (h' : (c'.parse sources').1 = .ok set') (hviews : set.views.Perm set'.views) {d d' : Compiler}
    (hoptions : d.options = d'.options) :
    SameVerdict set (d.checkCalls set.resolveTypes).1 (d'.checkCalls set'.resolveTypes).1 := by
  have hresolved : set.resolveTypes.views.Perm set'.resolveTypes.views := by
    rw [FileSet.views_resolveTypes (FileSet.shapedBody_of_parse h),
      FileSet.views_resolveTypes (FileSet.shapedBody_of_parse h')]
    exact hviews.map _
  rw [checkCalls, checkCalls]
  cases hbuild : TemplateIndex.build set.resolveTypes.templates with
  | error clash =>
    cases hbuild' : TemplateIndex.build set'.resolveTypes.templates with
    | error clash' =>
      refine .slots ?_ ?_
      · exact (clash.among_resolveTypes set).1 (SlotClash.among_of_build_eq_error hbuild)
      · rw [← SlotClash.among_resolveTypes, SlotClash.among_iff_of_perm_views hresolved]
        exact SlotClash.among_of_build_eq_error hbuild'
    | ok index' =>
      obtain ⟨index, hindex⟩ := exists_build_of_perm_views hresolved.symm hbuild'
      rw [hindex] at hbuild
      cases hbuild
  | ok index =>
    obtain ⟨index', hbuild'⟩ := exists_build_of_perm_views hresolved hbuild
    have hmisfits := perm_checkCallTypes (indexed_of_parse h hbuild) (indexed_of_parse h' hbuild')
      hresolved d.types d'.types
    rw [hbuild', hoptions]
    dsimp only
    split
    · dsimp only
      rw [hmisfits.isEmpty_eq]
      split
      · exact .ok
      · exact .callTypes hmisfits
    · exact .ok

theorem sameVerdict_check (h : (c.parse sources).1 = .ok set)
    (h' : (c'.parse sources').1 = .ok set') (hviews : set.views.Perm set'.views) {d d' : Compiler}
    (hoptions : d.options = d'.options) : SameVerdict set (d.check set).1 (d'.check set').1 := by
  rw [check, check, ← hoptions]
  cases hversion : d.options.declaredVersion.bind set.versionClash? with
  | some clash =>
    obtain ⟨declared, hdeclared, hclash⟩ := Option.bind_eq_some_iff.1 hversion
    obtain ⟨clash', hclash', hamong⟩ := VersionClash.exists_of_perm_views hviews hclash
    rw [hdeclared, Option.bind_some, hclash']
    exact .version (VersionClash.among_of_versionClash? hclash) hamong
  | none =>
    have hversion' : d.options.declaredVersion.bind set'.versionClash? = none := by
      rw [Option.bind_eq_none_iff] at hversion ⊢
      intro declared hdeclared
      by_contra hclash'
      obtain ⟨clash', hclash'⟩ := Option.ne_none_iff_exists'.1 hclash'
      obtain ⟨clash, hclash, -⟩ := VersionClash.exists_of_perm_views hviews.symm hclash'
      rw [hversion declared hdeclared] at hclash
      cases hclash
    rw [hversion']
    exact sameVerdict_checkCalls h h' hviews hoptions

/-- **The order of files does not matter.**  Let compilers with the same options and
    registered protos get the same sources in two orders, each after compiling
    anything else.  If one can read them so can the other, and then checking has the
    same outcome: no failure, a template that is not valid at the declared version,
    two templates with one slot, or the same arguments that do not fit. -/
theorem sameVerdict_of_perm (hsetup : c.SetUpAlike c') (hperm : sources.Perm sources')
    (runs runs' : List (List Source × Option Bundle)) :
    (((c.after runs).parse sources).1.isOk ↔ ((c'.after runs').parse sources').1.isOk) ∧
      ∀ set set', ((c.after runs).parse sources).1 = .ok set →
        ((c'.after runs').parse sources').1 = .ok set' →
          SameVerdict set (((c.after runs).parse sources).2.check set).1
            (((c'.after runs').parse sources').2.check set').1 := by
  have halike : (c.after runs).SetUpAlike (c'.after runs') :=
    (c.setUpAlike_after runs).trans (hsetup.trans (c'.setUpAlike_after runs').symm)
  refine ⟨?_, fun set set' h h' => ?_⟩
  · rw [isOk_iff, isOk_iff]
    constructor
    · rintro ⟨set, h⟩
      obtain ⟨set', h', -⟩ := exists_parse_of_perm halike hperm h
      exact ⟨set', h'⟩
    · rintro ⟨set', h'⟩
      obtain ⟨set, h, -⟩ := exists_parse_of_perm halike.symm hperm.symm h'
      exact ⟨set, h⟩
  · obtain ⟨set'', h'', hviews⟩ := exists_parse_of_perm halike hperm h
    rw [h'] at h''
    cases h''
    have hfirst := (c.after runs).setUpAlike_parse sources
    have hsecond := (c'.after runs').setUpAlike_parse sources'
    exact sameVerdict_check h h' hviews (hfirst.trans (halike.trans hsecond.symm)).options

/-- Two calls of a template that pass what it does not expect, each in a file of its
    own; the template takes a union. -/
def wrongCalls : List Source :=
  [{ path := "a.soy"
     text := "\x7bnamespace a\x7d\n\x7btemplate .t\x7d\n" ++
       "\x7bcall lib.show\x7d\x7bparam x: true /\x7d\x7b/call\x7d\n\x7b/template\x7d\n" },
   { path := "lib.soy"
     text := "\x7bnamespace lib\x7d\n\x7btemplate .show\x7d\n\x7b@param x: int|string\x7d\n" ++
       "\x7b$x\x7d\n\x7b/template\x7d\n" },
   { path := "b.soy"
     text := "\x7bnamespace b\x7d\n\x7btemplate .t\x7d\n" ++
       "\x7bcall lib.show\x7d\x7bparam x: null /\x7d\x7b/call\x7d\n\x7b/template\x7d\n" }]

/-- Both calls are found wrong also by a compiler that has compiled two of the files
    before and gets all of them backwards. -/
theorem sameVerdict_of_perm_wrongCalls : ∃ set set' misfits misfits',
    (parse {} wrongCalls).1 = .ok set ∧
      ((after {} [(wrongCalls.tail, none)]).parse wrongCalls.reverse).1 = .ok set' ∧
      ((parse {} wrongCalls).2.check set).1 = .error (.callTypes misfits) ∧
      (((after {} [(wrongCalls.tail, none)]).parse wrongCalls.reverse).2.check set').1 =
        .error (.callTypes misfits') ∧
      misfits.length = 2 ∧ misfits.Perm misfits' := by
  have hcheck : (parse {} wrongCalls).1.toOption.any fun set =>
      match ((parse {} wrongCalls).2.check set).1 with
      | .error (.callTypes misfits) => misfits.length = 2
      | _ => false := by decide +kernel
  obtain ⟨set, hparse, hmisfits⟩ := any_toOption.1 hcheck
  have hsame := @sameVerdict_of_perm {} {} wrongCalls wrongCalls.reverse ⟨rfl, fun _ => rfl⟩
    (List.reverse_perm wrongCalls).symm [] [(wrongCalls.tail, none)]
  obtain ⟨set', hparse'⟩ := isOk_iff.1 (hsame.1.1 (isOk_iff.2 ⟨set, hparse⟩))
  have hverdict := hsame.2 set set' hparse hparse'
  refine ⟨set, set', ?_⟩
  rw [hparse, hparse']
  change SameVerdict set ((parse {} wrongCalls).2.check set).1 _ at hverdict
  generalize ((parse {} wrongCalls).2.check set).1 = outcome at hverdict hmisfits
  generalize (((after {} [(wrongCalls.tail, none)]).parse wrongCalls.reverse).2.check set').1 =
    outcome' at hverdict
  cases hverdict with
  | callTypes hperm => exact ⟨_, _, rfl, rfl, rfl, rfl, of_decide_eq_true hmisfits, hperm⟩
  | _ => cases hmisfits

end Compiler

end Stencil
