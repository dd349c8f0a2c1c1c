/-
  Stencil/Proofs/Check/Likeness.lean
  ==================================
  **Templates that call no more than others.**

  Calls are alike if they call the same, pass the same data and have parameters
  of the same contents; where they stand does not matter.  A template follows
  another one if it declares the same and each of its calls is like a call of
  the other one.  What the data of a template reaches then follows what the data
  of the other one reaches (`exists_walk`), so the check finds no misfit in
  templates that follow templates without one (`checkCallTypes_eq_nil_of_follow`).
-/
import Stencil.Proofs.Check.CallTypes
import Stencil.Proofs.Tree.Bare

namespace Stencil

/-! ### Calls that are alike -/

/-- Calls of the same target that pass the same. -/
structure CallLike (call call' : Node) : Prop where
  content : call.content = call'.content
  params : call.children.map Tree.content = call'.children.map Tree.content

namespace CallLike

variable {call call' call'' : Node}

theorem refl (call : Node) : CallLike call call := ⟨rfl, rfl⟩

theorem trans (h : CallLike call call') (h' : CallLike call' call'') : CallLike call call'' :=
  ⟨h.content.trans h'.content, h.params.trans h'.params⟩

theorem target? (h : CallLike call call') : call.target? = call'.target? := by
  rw [Tree.target?, h.content, Tree.target?]

theorem passesAll (h : CallLike call call') : call.passesAll = call'.passesAll := by
  rw [Tree.passesAll, h.content, Tree.passesAll]

theorem paramKeys (h : CallLike call call') : call.paramKeys = call'.paramKeys := by
  have hkeys : ∀ n : Node, n.paramKeys = (n.children.map Tree.content).filterMap Content.paramKey? := by
    intro n
    rw [List.filterMap_map]
    rfl
  rw [hkeys, hkeys, h.params]

theorem exists_param (h : CallLike call call') {param : Node} (hparam : param ∈ call.children) :
    ∃ param' ∈ call'.children, param'.content = param.content := by
  have hmem : param.content ∈ call'.children.map Tree.content := by
    rw [← h.params]
    exact List.mem_map_of_mem hparam
  exact List.mem_map.1 hmem

end CallLike

/-- Calls of one bare tree are alike. -/
theorem callLike_of_bare_eq {n n' : Node} (h : n.bare = n'.bare) (hshaped : Tree.ShapedAt n')
    (hcall : n.content.isCall) : n'.content.isCall ∧ CallLike n n' := by
  obtain ⟨hcontent, hchildren⟩ := Tree.bare_eq_iff.1 h
  obtain ⟨target, data, hkind⟩ := Content.exists_call hcall
  have heq : n'.content = n.content := by
    refine Content.eq_of_bare_eq hcontent.symm fun name key hplaceholder => ?_
    rw [hkind] at hplaceholder
    cases hplaceholder
  refine ⟨heq ▸ hcall, heq.symm, Tree.map_content_eq_of_map_bare_eq (fun param hparam => ?_) hchildren⟩
  exact Tree.not_placeholder_of_param (Tree.param_of_shapedAt hshaped (heq.trans hkind) hparam)

/-! ### Templates that follow others -/

/-- A template that declares the same as another one, and whose calls are all
    like calls of the other one. -/
structure Template.Follows (t t' : PlacedTemplate) : Prop where
  info : t.info = t'.info
  calls : ∀ call ∈ Tree.calls t.body, ∃ call' ∈ Tree.calls t'.body, CallLike call call'

/-- Each of some templates follows one of some others. -/
def Follow (ts ts' : List PlacedTemplate) : Prop := ∀ t ∈ ts, ∃ t' ∈ ts', t.Follows t'

namespace Template.Follows

variable {t t' : PlacedTemplate}

theorem refl (t : PlacedTemplate) : t.Follows t :=
  ⟨rfl, fun call hcall => ⟨call, hcall, CallLike.refl call⟩⟩

theorem slot (h : t.Follows t') : t.slot = t'.slot := by
  rw [Template.slot, h.info, Template.slot]

theorem delegate? (h : t.Follows t') : t.delegate? = t'.delegate? := by
  rw [Template.delegate?, h.info, Template.delegate?]

theorem declares_iff (h : t.Follows t') (name : String) : Declares t name ↔ Declares t' name := by
  rw [Declares, h.info, Declares]

/-- Calls that are alike pass the same arguments, their places aside. -/
theorem passesArgument (h : t.Follows t') {call call' : Node} (hcall : CallLike call call')
    {name : String} {ty : Ty} (hargument : PassesArgument t call name ty) :
    PassesArgument t' call' name ty := by
  cases hargument with
  | value hparam hcontent hty =>
    obtain ⟨param', hparam', heq⟩ := hcall.exists_param hparam
    exact .value hparam' (heq.trans hcontent) hty
  | content hparam hcontent =>
    obtain ⟨param', hparam', heq⟩ := hcall.exists_param hparam
    exact .content hparam' (heq.trans hcontent)
  | forwarded hall hp hsource hkey =>
    refine .forwarded (hcall.passesAll ▸ hall) (h.info ▸ hp) hsource ?_
    rwa [← hcall.paramKeys]

end Template.Follows

theorem map_slot_of_follows {ts ts' : List PlacedTemplate} (h : List.Forall₂ Template.Follows ts ts') :
    ts.map (·.slot) = ts'.map (·.slot) := by
  induction h with
  | nil => rfl
  | cons h _ ih => rw [List.map_cons, List.map_cons, h.slot, ih]

theorem follow_of_forall₂ {ts ts' : List PlacedTemplate} (h : List.Forall₂ Template.Follows ts ts') :
    Follow ts ts' := by
  induction h with
  | nil => exact fun _ ht => (nomatch ht)
  | cons h _ ih =>
    refine List.forall_mem_cons.2 ⟨⟨_, List.mem_cons_self, h⟩, fun t ht => ?_⟩
    obtain ⟨t', ht', hfollows⟩ := ih t ht
    exact ⟨t', List.mem_cons_of_mem _ ht', hfollows⟩

section Follow

variable {ts ts' : List PlacedTemplate} {t t' start start' callee callee' : PlacedTemplate}

/-- What a call may reach follows what a call like it may reach. -/
theorem Follow.exists_resolves (h : Follow ts ts') {call call' : Node} (hcall : CallLike call call')
    {u : PlacedTemplate} (hresolves : Resolves ts call u) :
    ∃ u', u.Follows u' ∧ Resolves ts' call' u' := by
  obtain ⟨hu, hreaches⟩ := hresolves
  obtain ⟨u', hu', hfollows⟩ := h u hu
  refine ⟨u', hfollows, hu', ?_⟩
  rw [← hcall.target?]
  cases htarget : call.target? with
  | none =>
    rw [htarget] at hreaches
    exact hreaches
  | some target =>
    rw [htarget] at hreaches
    cases target with
    | basic name written =>
      exact ⟨hfollows.delegate? ▸ hreaches.1, hfollows.info ▸ hreaches.2⟩
    | delegate name variant =>
      obtain ⟨d, hd, hname⟩ := hreaches
      exact ⟨d, hfollows.delegate? ▸ hd, hname⟩

/-- A walk along forwarded data is followed by a walk on which the same is passed
    explicitly. -/
theorem Follow.exists_walk (h : Follow ts ts') (hstart : start.Follows start') {calls : List Node}
    (walk : ForwardingWalk ts start calls t) : ∃ calls' t', ForwardingWalk ts' start' calls' t' ∧
      t.Follows t' ∧ calls'.map Tree.paramKeys = calls.map Tree.paramKeys := by
  induction walk with
  | here => exact ⟨[], start', .here, hstart, rfl⟩
  | step _ forwards ih =>
    obtain ⟨calls', t', walk', hfollows, hkeys⟩ := ih
    obtain ⟨hcall, hall, hresolves⟩ := forwards
    obtain ⟨call', hcall', hlike⟩ := hfollows.calls _ hcall
    obtain ⟨u', hu', hresolves'⟩ := h.exists_resolves hlike hresolves
    have forwards' : Forwards ts' t' call' u' := ⟨hcall', hlike.passesAll ▸ hall, hresolves'⟩
    refine ⟨calls' ++ [call'], u', .step walk' forwards', hu', ?_⟩
    rw [List.map_append, List.map_append, hkeys, List.map_singleton, List.map_singleton,
      hlike.paramKeys]

theorem Follow.exists_contributes (h : Follow ts ts') (hstart : start.Follows start')
    {name : String} (hcontributes : Contributes ts start name t) :
    ∃ t', t.Follows t' ∧ Contributes ts' start' name t' := by
  obtain ⟨hdeclares, hown, calls, hne, walk, hpasses⟩ := hcontributes
  obtain ⟨calls', t', walk', hfollows, hkeys⟩ := h.exists_walk hstart walk
  refine ⟨t', hfollows, (hfollows.declares_iff name).1 hdeclares,
    fun hown' => hown ((hstart.declares_iff name).2 hown'), calls', ?_, walk', ?_⟩
  · rintro rfl
    exact hne (List.map_eq_nil_iff.1 hkeys.symm)
  · intro call' hcall'
    have hmem : call'.paramKeys ∈ calls.map Tree.paramKeys := by
      rw [← hkeys]
      exact List.mem_map_of_mem hcall'
    obtain ⟨call, hcall, heq⟩ := List.mem_map.1 hmem
    rw [← heq]
    exact hpasses call hcall

/-- What a callee expects, the callee that it follows expects. -/
theorem Follow.formalType (h : Follow ts ts') (hcallee : callee.Follows callee') {name : String}
    {formal : Ty} (hformal : FormalType ts callee name formal) :
    FormalType ts' callee' name formal := by
  cases hformal with
  | declared hparams hname hlast => exact .declared (hcallee.info ▸ hparams) hname hlast
  | indirect hcontributes hp hname =>
    obtain ⟨t', hfollows, hcontributes'⟩ := h.exists_contributes hcallee hcontributes
    exact .indirect hcontributes' (hfollows.info ▸ hp) hname

theorem Template.Follows.acceptable_iff (h : callee.Follows callee') (name : String)
    (actual formal : Ty) :
    Acceptable callee name actual formal ↔ Acceptable callee' name actual formal := by
  rw [Acceptable, h.declares_iff, Acceptable]

/-! ### The check -/

/-- Templates have no misfits if those that they follow have none. -/
theorem checkCallTypes_eq_nil_of_follow {index index' : TemplateIndex}
    (hbuild : TemplateIndex.build ts = .ok index) (hids : (ts.map (·.mark.id)).Nodup)
    (hbuild' : TemplateIndex.build ts' = .ok index') (hids' : (ts'.map (·.mark.id)).Nodup)
    (h : Follow ts ts') {types types' : TypeRegistry}
    (hnil : (checkCallTypes index' ts' types').1 = []) :
    (checkCallTypes index ts types).1 = [] := by
  rw [checkCallTypes_eq hbuild' hids', List.filterMap_eq_nil_iff] at hnil
  rw [checkCallTypes_eq hbuild hids, List.filterMap_eq_nil_iff]
  intro p hp
  obtain ⟨caller, hcaller, hp⟩ := List.mem_flatMap.1 hp
  obtain ⟨call, hcall, callee, hresolves, hargument, hformal, hindirect⟩ :=
    (mem_passings_iff hbuild hids).1 hp
  -- the same passing in the templates that are followed
  obtain ⟨caller', hcaller', hfollows⟩ := h caller hcaller
  obtain ⟨call', hcall', hlike⟩ := hfollows.calls call hcall
  obtain ⟨callee', hcallee', hresolves'⟩ := h.exists_resolves hlike hresolves
  obtain ⟨a, ha, hname, hty⟩ := mem_arguments_iff.2
    (hfollows.passesArgument hlike (mem_arguments_iff.1 ⟨p.argument, hargument, rfl, rfl⟩))
  have hindirect' : p.indirect = true ↔ ¬ Declares callee' a.name := by
    rw [hname, ← hcallee'.declares_iff]
    exact hindirect
  have hformal' : FormalType ts' callee' a.name p.formal := hname ▸ h.formalType hcallee' hformal
  have hmem : (⟨a, p.formal, p.indirect⟩ : Passing) ∈ ts'.flatMap index'.passings :=
    List.mem_flatMap.2 ⟨caller', hcaller', (mem_passings_iff hbuild' hids').2
      ⟨call', hcall', callee', hresolves', ha, hformal', hindirect'⟩⟩
  have hacceptable := (Passing.misfit?_eq_none_iff hindirect').1 (hnil _ hmem)
  rw [Passing.misfit?_eq_none_iff hindirect, hcallee'.acceptable_iff, ← hname, ← hty]
  exact hacceptable

end Follow

end Stencil
