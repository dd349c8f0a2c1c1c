/-
  Stencil/Proofs/Check/Views.lean
  ===============================
  **The check of calls sees views.**

  Two lists of templates whose views are the same up to their order are checked
  with the same result, up to its order: an index can be built of both or of
  neither, and the same arguments do not fit (`perm_checkCallTypes`).  The
  identities under which formal types are kept, the order of the index and the
  order of the search for indirect parameters all differ between the two.
-/
import Stencil.Proofs.Check.FormalTypes
import Stencil.Proofs.Check.Likeness
import Stencil.Proofs.Compiler.Views

namespace Stencil

/-- Lists with the same images up to order give, element by element, the same up to
    order. -/
theorem perm_flatMap_of_perm_map {α β γ δ : Type} {f : α → γ} {f' : β → γ} {g : α → List δ}
    {g' : β → List δ} {as : List α} {bs : List β} (h : (as.map f).Perm (bs.map f'))
    (hg : ∀ a ∈ as, ∀ b ∈ bs, f a = f' b → (g a).Perm (g' b)) :
    (as.flatMap g).Perm (bs.flatMap g') := by
  induction as generalizing bs with
  | nil =>
    rw [List.map_nil, List.nil_perm, List.map_eq_nil_iff] at h
    rw [h]
    exact .refl _
  | cons a as ih =>
    rw [List.map_cons] at h
    obtain ⟨b, hb, hab⟩ := List.mem_map.1 (h.mem_iff.1 List.mem_cons_self)
    obtain ⟨l, r, rfl⟩ := List.append_of_mem hb
    have hrest : (as.map f).Perm ((l ++ r).map f') := by
      refine List.Perm.cons_inv (a := f a) (h.trans ?_)
      rw [← hab]
      exact List.perm_middle.map f'
    refine List.Perm.trans ?_ (List.perm_middle.flatMap_right g').symm
    rw [List.flatMap_cons, List.flatMap_cons]
    refine (hg a List.mem_cons_self b hb hab.symm).append (ih hrest fun c hc d hd => ?_)
    refine hg c (List.mem_cons_of_mem _ hc) d ?_
    exact List.perm_middle.mem_iff.2 (List.mem_cons_of_mem _ hd)

/-! ### Calls -/

@[simp] theorem Content.isCall_bare (content : Content) : content.bare.isCall = content.isCall := by
  cases content with
  | placeholder name key => cases key <;> rfl
  | _ => rfl

namespace Tree

variable {α β : Type} (f : α → β)

@[simp] theorem target?_view (call : Tree α) : (call.view f).target? = call.target? := by
  rw [target?, content_view, target?]
  cases call.content with
  | placeholder name key => cases key <;> rfl
  | _ => rfl

@[simp] theorem passesAll_view (call : Tree α) : (call.view f).passesAll = call.passesAll := by
  rw [passesAll, content_view, passesAll]
  cases call.content with
  | placeholder name key => cases key <;> rfl
  | _ => rfl

@[simp] theorem paramKeys_view (call : Tree α) : (call.view f).paramKeys = call.paramKeys := by
  rw [paramKeys, children_view, List.filterMap_map, paramKeys]
  refine List.filterMap_congr fun param _ => ?_
  rw [Function.comp_apply, content_view]
  cases param.content with
  | placeholder name key => cases key <;> rfl
  | _ => rfl

/-- The argument that a parameter is does not depend on identities. -/
theorem argument?_eq (param : Node) :
    param.argument? = match (param.view Mark.loc).content with
      | .valueParam key value => value.ty.map fun ty => ⟨key, ty, (param.view Mark.loc).mark⟩
      | .contentParam key kind =>
        kind.map fun kind => ⟨key, Ty.ofContentKind kind, (param.view Mark.loc).mark⟩
      | _ => none := by
  rw [argument?, content_view, mark_view]
  cases param.content with
  | placeholder name key => cases key <;> rfl
  | _ => rfl

theorem map_view_calls {ts : List (Tree α)} (h : ∀ t ∈ ts, Shaped t ∧ t.content.isStatement) :
    (calls ts).map (view f) = (preorderAll (ts.map (view f))).filter (·.content.isCall) := by
  rw [calls_eq (fun t ht => (h t ht).1) fun t ht => (h t ht).2, preorderAll_map_view,
    List.filter_map]
  congr 2
  funext n
  rw [Function.comp_apply, content_view, Content.isCall_bare]

end Tree

theorem arguments_eq {caller caller' : PlacedTemplate} {call call' : Node}
    (hinfo : caller.info = caller'.info) (hcall : call.view Mark.loc = call'.view Mark.loc) :
    arguments caller call = arguments caller' call' := by
  have hpassesAll : call.passesAll = call'.passesAll := by
    rw [← Tree.passesAll_view Mark.loc, hcall, Tree.passesAll_view]
  have hparamKeys : call.paramKeys = call'.paramKeys := by
    rw [← Tree.paramKeys_view Mark.loc, hcall, Tree.paramKeys_view]
  have hloc : call.loc = call'.loc := by
    have hmark := congrArg Tree.mark hcall
    rwa [Tree.mark_view, Tree.mark_view] at hmark
  have hown : ∀ call : Node, call.children.filterMap (·.argument?) =
      (call.view Mark.loc).children.filterMap fun param => match param.content with
        | .valueParam key value => value.ty.map fun ty => ⟨key, ty, param.mark⟩
        | .contentParam key kind => kind.map fun kind => ⟨key, Ty.ofContentKind kind, param.mark⟩
        | _ => none := by
    intro call
    rw [Tree.children_view, List.filterMap_map]
    exact List.filterMap_congr fun param _ => param.argument?_eq
  rw [arguments, arguments, forwardedArguments, forwardedArguments, hown, hown, hcall, hinfo,
    hpassesAll, hparamKeys, hloc]

/-! ### Templates -/

/-- A body of the shape of a body. -/
abbrev ShapedTemplate (t : PlacedTemplate) : Prop :=
  ∀ n ∈ t.body, Tree.Shaped n ∧ n.content.isStatement

section View

variable {t t' : PlacedTemplate}

theorem Template.info_eq_of_view_eq (hview : t.view Mark.loc = t'.view Mark.loc) :
    t.info = t'.info := congrArg (fun view : Template Location => view.info) hview

theorem map_view_calls_eq (hview : t.view Mark.loc = t'.view Mark.loc) (ht : ShapedTemplate t)
    (ht' : ShapedTemplate t') :
    (Tree.calls t.body).map (Tree.view Mark.loc) = (Tree.calls t'.body).map (Tree.view Mark.loc) := by
  have hbody : t.body.map (Tree.view Mark.loc) = t'.body.map (Tree.view Mark.loc) :=
    congrArg (fun view : Template Location => view.body) hview
  rw [Tree.map_view_calls _ ht, Tree.map_view_calls _ ht', hbody]

theorem Template.follows_of_view_eq (hview : t.view Mark.loc = t'.view Mark.loc)
    (ht : ShapedTemplate t) (ht' : ShapedTemplate t') : t.Follows t' := by
  refine ⟨info_eq_of_view_eq hview, fun call hcall => ?_⟩
  have hmem := List.mem_map_of_mem (f := Tree.view Mark.loc) hcall
  rw [map_view_calls_eq hview ht ht'] at hmem
  obtain ⟨call', hcall', heq⟩ := List.mem_map.1 hmem
  have hbare : call.bare = call'.bare := by
    rw [← Tree.bare_view Mark.loc, ← heq, Tree.bare_view]
  obtain ⟨hbelow, -⟩ := Tree.mem_preorderAll_of_mem_calls hcall'
  obtain ⟨n, hn, hbelow⟩ := Tree.mem_preorderAll.1 hbelow
  refine ⟨call', hcall', (callLike_of_bare_eq hbare ((ht' n hn).1 call' hbelow) ?_).2⟩
  exact (Tree.mem_preorderAll_of_mem_calls hcall).2

theorem follow_of_perm_views {ts ts' : List PlacedTemplate} (ht : ∀ t ∈ ts, ShapedTemplate t)
    (ht' : ∀ t ∈ ts', ShapedTemplate t)
    (hviews : (ts.map (Template.view Mark.loc)).Perm (ts'.map (Template.view Mark.loc))) :
    Follow ts ts' := by
  intro t hmem
  obtain ⟨t', hmem', hview⟩ := List.mem_map.1 (hviews.mem_iff.1 (List.mem_map_of_mem hmem))
  exact ⟨t', hmem', Template.follows_of_view_eq hview.symm (ht t hmem) (ht' t' hmem')⟩

end View

/-! ### Callees -/

/-- A call of a target may reach a template. -/
def CallTarget.reaches {α : Type} (target : CallTarget) (t : Template α) : Bool :=
  match target with
  | .basic name _ => t.slot == .basic name
  | .delegate name _ => t.delegate?.any (·.name == name)

/-- The templates that a call may reach are those among all templates that its target
    reaches, in some order. -/
theorem TemplateIndex.perm_callees {ts : List PlacedTemplate} {index : TemplateIndex}
    (hbuild : build ts = .ok index) (hids : (ts.map (·.mark.id)).Nodup) (target : CallTarget) :
    (index.callees target).Perm (ts.filter target.reaches) := by
  have hrefines := refines_of_build_eq_ok hbuild
  cases target with
  | basic name written =>
    rw [callees, List.perm_ext_iff_of_nodup (by cases index.basic? name <;> simp)
      ((List.Nodup.of_map _ hids).filter _)]
    intro t
    have hstores : t ∈ (index.basic? name).toList ↔ index.Stores (.basic name) t :=
      Option.mem_toList
    rw [hstores, hrefines.stores_iff, List.mem_filter, CallTarget.reaches, beq_iff_eq]
  | delegate name variant =>
    change (index.implementations name).Perm _
    rw [hrefines.implementations_eq]
    exact hrefines.perm.filter _

/-! ### The check -/

/-- Templates of the shape of a template and with identities of their own, and
    their index. -/
structure Indexed (ts : List PlacedTemplate) (index : TemplateIndex) : Prop where
  build : TemplateIndex.build ts = .ok index
  nodup : (ts.map (·.mark.id)).Nodup
  shaped : ∀ t ∈ ts, ShapedTemplate t

section Check

variable {ts ts' : List PlacedTemplate} {index index' : TemplateIndex} {t t' : PlacedTemplate}
  (h : Indexed ts index) (h' : Indexed ts' index')
  (hviews : (ts.map (Template.view Mark.loc)).Perm (ts'.map (Template.view Mark.loc)))

include h h' hviews

theorem perm_map_view_calleesOf {call call' : Node} (hcall : call.view Mark.loc = call'.view Mark.loc) :
    ((index.calleesOf call).map (Template.view Mark.loc)).Perm
      ((index'.calleesOf call').map (Template.view Mark.loc)) := by
  have htarget : call.target? = call'.target? := by
    rw [← Tree.target?_view Mark.loc, hcall, Tree.target?_view]
  rw [TemplateIndex.calleesOf, TemplateIndex.calleesOf, htarget]
  cases call'.target? with
  | none => exact .refl _
  | some target =>
    have hfilter : ∀ ts : List PlacedTemplate, (ts.filter target.reaches).map (Template.view Mark.loc) =
        (ts.map (Template.view Mark.loc)).filter target.reaches := by
      intro ts
      rw [List.filter_map]
      rfl
    refine ((TemplateIndex.perm_callees h.build h.nodup target).map _).trans ?_
    refine List.Perm.trans ?_ ((TemplateIndex.perm_callees h'.build h'.nodup target).map _).symm
    rw [hfilter, hfilter]
    exact hviews.filter _

/-- An argument meets the same formal types. -/
theorem perm_meet (ht : t ∈ ts) (ht' : t' ∈ ts') (hview : t.view Mark.loc = t'.view Mark.loc)
    (a : Argument) : (meet (index.formals t) a).Perm (meet (index'.formals t') a) := by
  have hfollows := Template.follows_of_view_eq hview (h.shaped t ht) (h'.shaped t' ht')
  have hfollows' := Template.follows_of_view_eq hview.symm (h'.shaped t' ht') (h.shaped t ht)
  have hfollow := follow_of_perm_views h.shaped h'.shaped hviews
  have hfollow' := follow_of_perm_views h'.shaped h.shaped hviews.symm
  rw [List.perm_ext_iff_of_nodup (index.nodup_meet t a) (index'.nodup_meet t' a)]
  intro p
  rw [mem_meet_formals_iff h.build h.nodup ht, mem_meet_formals_iff h'.build h'.nodup ht',
    hfollows.declares_iff]
  have hformal : FormalType ts t a.name p.formal ↔ FormalType ts' t' a.name p.formal :=
    ⟨hfollow.formalType hfollows, hfollow'.formalType hfollows'⟩
  rw [hformal]

theorem perm_passings (ht : t ∈ ts) (ht' : t' ∈ ts') (hview : t.view Mark.loc = t'.view Mark.loc) :
    (index.passings t).Perm (index'.passings t') := by
  have hcalls := map_view_calls_eq hview (h.shaped t ht) (h'.shaped t' ht')
  refine perm_flatMap_of_perm_map (.of_eq hcalls) fun call _ call' _ hcall => ?_
  refine perm_flatMap_of_perm_map (perm_map_view_calleesOf h h' hviews hcall) ?_
  intro callee hcallee callee' hcallee' hview'
  have hmem := ((TemplateIndex.mem_calleesOf_iff h.build).1 hcallee).1
  have hmem' := ((TemplateIndex.mem_calleesOf_iff h'.build).1 hcallee').1
  rw [arguments_eq (Template.info_eq_of_view_eq hview) hcall]
  exact List.Perm.flatMap_left _ fun a _ => perm_meet h h' hviews hmem hmem' hview' a

/-- The same arguments do not fit in templates with the same views. -/
theorem perm_checkCallTypes (types types' : TypeRegistry) :
    (checkCallTypes index ts types).1.Perm (checkCallTypes index' ts' types').1 := by
  rw [checkCallTypes_eq h.build h.nodup, checkCallTypes_eq h'.build h'.nodup]
  exact (perm_flatMap_of_perm_map hviews fun t ht t' ht' hview =>
    perm_passings h h' hviews ht ht' hview).filterMap _

end Check

end Stencil
