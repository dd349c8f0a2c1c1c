/-
  Stencil/Proofs/Message/Calls.lean
  =================================
  **The calls that an insertion leaves.**

  An insertion drops calls, moves them and copies them, and it replaces messages
  in the parameters of calls; but it makes no call of its own.  Each call that is
  there after it is like one that was there before, also where it fails.  So
  every template follows the one that it was, and calls that were right stay
  right (`checkCallTypes_insertMsgs_eq_nil`).
-/
import Stencil.Proofs.Check.Likeness
import Stencil.Proofs.Compiler.Typing
import Stencil.Proofs.Message.Remaining
import Stencil.Proofs.Message.WellFormed

namespace Stencil

open Stencil.Tree (Shaped ShapedBody Each)

namespace Message

/-! ### Calls that come from others -/

/-- A node that is like one of some calls if it is a call itself. -/
def ComesFrom (calls : List Node) (n : Node) : Prop :=
  n.content.isCall → ∃ call ∈ calls, CallLike n call

variable {calls : List Node}

theorem comesFrom_leaf (mark : Mark) (text : String) :
    ComesFrom calls (.leaf mark (.rawText text)) := fun h => (nomatch h)

theorem ComesFrom.of_like {n n' : Node} (h : ComesFrom calls n) (hlike : n'.content.isCall →
    n.content.isCall ∧ CallLike n' n) : ComesFrom calls n' := by
  intro hcall
  obtain ⟨hcall, hlike⟩ := hlike hcall
  obtain ⟨call, hmem, hcalls⟩ := h hcall
  exact ⟨call, hmem, hlike.trans hcalls⟩

/-! ### Copies -/

theorem comesFrom_copy {n : Node} (h : Each (ComesFrom calls) n) (hshaped : Shaped n)
    (next : NodeId) : Each (ComesFrom calls) (n.copy next).1 := by
  intro k hk
  have hmem : k.bare ∈ n.preorder.map Tree.bare := by
    rw [← Tree.preorder_bare, ← Tree.bare_copy next n, Tree.preorder_bare]
    exact List.mem_map_of_mem hk
  obtain ⟨k', hk', hbare⟩ := List.mem_map.1 hmem
  exact (h k' hk').of_like (callLike_of_bare_eq hbare.symm (hshaped k' hk'))

theorem exists_copy_of_mem_copyAll {next : NodeId} {ns : List Node} {s : Node}
    (hs : s ∈ (copyAll next ns).1) : ∃ n ∈ ns, ∃ start, s = (n.copy start).1 := by
  induction ns generalizing next with
  | nil => cases hs
  | cons n rest ih =>
    rw [copyAll] at hs
    rcases List.mem_cons.1 hs with rfl | hs
    · exact ⟨n, List.mem_cons_self, next, rfl⟩
    · obtain ⟨n', hn', start, rfl⟩ := ih hs
      exact ⟨n', List.mem_cons_of_mem _ hn', start, rfl⟩

/-! ### Statements that replace a group -/

theorem comesFrom_placeholderStatements {p : Node} (h : Each (ComesFrom calls) p)
    (hshaped : Shaped p) (used : Bool) (next : NodeId) :
    ∀ s ∈ (placeholderStatements used next p).1, Each (ComesFrom calls) s := by
  have hown : ∀ s ∈ flattenAll p.children, Each (ComesFrom calls) s := fun s hs =>
    each_of_mem_flattenAll (fun k hk => h.child hk) hs
  intro s hs
  cases used with
  | false => exact hown s hs
  | true =>
    obtain ⟨n, hn, start, rfl⟩ := exists_copy_of_mem_copyAll hs
    exact comesFrom_copy (hown n hn) (each_of_mem_flattenAll (fun k hk => hshaped.child hk) hn) start

theorem comesFrom_translatedStatements {msg : Node} (h : Each (ComesFrom calls) msg)
    (hshaped : Shaped msg) {id : MsgId} {used : List String} {next : NodeId}
    {parts : List TranslationPart} {ns : List Node}
    (hns : (translatedStatements msg id used next parts).1 = .ok ns) :
    ∀ s ∈ ns, Each (ComesFrom calls) s := by
  induction parts generalizing used next ns with
  | nil =>
    cases hns
    exact fun _ hs => (nomatch hs)
  | cons part rest ih =>
    cases part with
    | text text =>
      rw [translatedStatements] at hns
      obtain ⟨ns', hns', rfl⟩ := map_eq_ok.1 hns
      exact List.forall_mem_cons.2 ⟨Tree.each_leaf (comesFrom_leaf _ _), ih hns'⟩
    | placeholder name =>
      rw [translatedStatements] at hns
      cases hp : placeholder? msg.children name with
      | none =>
        rw [hp] at hns
        cases hns
      | some p =>
        rw [hp] at hns
        obtain ⟨ns', hns', rfl⟩ := map_eq_ok.1 hns
        have hbelow : p ∈ msg.preorder := Tree.mem_preorder_iff.2
          (.inr (mem_preorderAll_of_mem_placeholders _ (mem_placeholders_of_placeholder? hp)))
        exact List.forall_mem_append.2
          ⟨comesFrom_placeholderStatements (h.below hbelow) (hshaped.below hbelow) _ _, ih hns'⟩

namespace Insertion

variable (ins : Insertion)

/-- What replaces a group is of the shape of a body, and its calls come from those
    of the group. -/
theorem comesFrom_replacement {group : Node} (h : Each (ComesFrom calls) group)
    (hshaped : Shaped group) (progress : Progress) {ns : List Node}
    (hns : (ins.replacement progress group).1 = .ok (some ns)) :
    ∀ s ∈ ns, Shaped s ∧ Each (ComesFrom calls) s := by
  by_cases hchoice : hasChoice group
  · rcases ins.replacement_of_hasChoice hchoice progress with ⟨e, -, heq⟩ | ⟨-, heq⟩
    · rw [heq] at hns
      cases hns
    · rw [heq] at hns
      cases hns
  · obtain ⟨-, -, hstands⟩ := ins.replacement_of_not_hasChoice hshaped hchoice progress
    refine fun s hs => ⟨(hstands ns hns s hs).shaped, ?_⟩
    rw [replacement, find?_eq_none_iff.2 hchoice] at hns
    dsimp only at hns
    split at hns
    · rename_i msg t htranslation
      obtain ⟨bundle, -, hfind⟩ := Option.bind_eq_some_iff.1 htranslation
      obtain ⟨msg', hmsg', hget⟩ := List.exists_of_findSome?_eq_some hfind
      obtain ⟨t', -, heq⟩ := Option.map_eq_some_iff.1 hget
      cases heq
      obtain ⟨ns', hns', hsome⟩ := map_eq_ok.1 hns
      cases hsome
      exact comesFrom_translatedStatements (h.child hmsg') (hshaped.child hmsg') hns' s hs
    · cases hns
      split at hs
      · cases hs
      · rename_i primary rest hmsgs
        have hprimary : primary ∈ group.children := by
          rw [hmsgs]
          exact List.mem_cons_self
        exact each_of_mem_sourceStatements (fun _ _ _ => comesFrom_leaf _ _) (h.child hprimary) s hs

/-! ### Visits -/

/-- The insides of nodes of the shape of a body are visited without new calls. -/
def KeepsCalls (calls : List Node) (inside : Progress → Node → Visit Node) : Prop :=
  ∀ progress n, Shaped n → Each (ComesFrom calls) n → Each (ComesFrom calls) (inside progress n).result

variable {inside : Progress → Node → Visit Node}

theorem comesFrom_visitEach (hinside : KeepsCalls calls inside) (progress : Progress)
    {ns : List Node} (h : ∀ n ∈ ns, Shaped n ∧ Each (ComesFrom calls) n) :
    ∀ n ∈ (visitEach inside progress ns).result, Each (ComesFrom calls) n := by
  induction ns generalizing progress with
  | nil => exact fun _ hn => (nomatch hn)
  | cons n rest ih =>
    obtain ⟨hn, hrest⟩ := List.forall_mem_cons.1 h
    have hfirst := hinside progress n hn.1 hn.2
    rw [visitEach]
    split
    · exact List.forall_mem_cons.2 ⟨hfirst, fun k hk => (hrest k hk).2⟩
    · exact List.forall_mem_cons.2 ⟨hfirst, ih _ hrest⟩

theorem comesFrom_withParent {n : Node} (h : Each (ComesFrom calls) n) (parent : Option NodeId) :
    Each (ComesFrom calls) (n.withParent parent) := by
  rw [Tree.each_iff] at h ⊢
  rw [Tree.children_withParent]
  refine ⟨h.1.of_like fun hcall => ?_, h.2⟩
  rw [Tree.content_withParent] at hcall
  exact ⟨hcall, Tree.content_withParent n parent, by rw [Tree.children_withParent]⟩

theorem comesFrom_visitStatement (hinside : KeepsCalls calls inside) (owner : NodeId)
    (progress : Progress) {n : Node} (hshaped : Shaped n) (h : Each (ComesFrom calls) n) :
    ∀ k ∈ (ins.visitStatement inside owner progress n).result, Each (ComesFrom calls) k := by
  have hstay : ∀ k ∈ [n], Each (ComesFrom calls) k := List.forall_mem_singleton.2 h
  have hvisit : ∀ progress', ∀ k ∈ ((inside progress' n).map ([·])).result,
      Each (ComesFrom calls) k := fun progress' =>
    List.forall_mem_singleton.2 (hinside progress' n hshaped h)
  rw [visitStatement]
  split
  · split
    · exact hstay
    · exact hvisit _
    · rename_i nodes progress' hreplacement
      have hnodes := ins.comesFrom_replacement h hshaped progress (congrArg Prod.fst hreplacement)
      have heach := comesFrom_visitEach hinside progress' hnodes
      dsimp only
      split
      · exact hstay
      · rw [ChildList.adopt, List.forall_mem_map]
        exact fun k hk => comesFrom_withParent (heach k hk) _
  · exact hvisit progress

theorem comesFrom_visitBlock (hinside : KeepsCalls calls inside) (owner : NodeId)
    (progress : Progress) {ns : List Node} (h : ∀ n ∈ ns, Shaped n ∧ Each (ComesFrom calls) n) :
    ∀ n ∈ (ins.visitBlock inside owner progress ns).result, Each (ComesFrom calls) n := by
  induction ns generalizing progress with
  | nil => exact fun _ hn => (nomatch hn)
  | cons n rest ih =>
    obtain ⟨hn, hrest⟩ := List.forall_mem_cons.1 h
    have hfirst := ins.comesFrom_visitStatement hinside owner progress hn.1 hn.2
    rw [visitBlock]
    split
    · exact List.forall_mem_append.2 ⟨hfirst, fun k hk => (hrest k hk).2⟩
    · exact List.forall_mem_append.2 ⟨hfirst, ih _ hrest⟩

/-- A call keeps what it calls and what it passes when its inside is visited. -/
theorem callLike_visitInside (height : Nat) (progress : Progress) {n : Node}
    (hshaped : Shaped n) (hcall : n.content.isCall) :
    CallLike (ins.visitInside height progress n).result n := by
  obtain ⟨target, data, hcontent⟩ := Content.exists_call hcall
  refine ⟨ins.content_visitInside height progress n,
    ins.map_content_visitInside height progress fun param hparam => ?_⟩
  refine not_isMsgGroup_of_holds (hshaped.root param hparam) ?_
  rw [hcontent]
  rfl

theorem keepsCalls_visitInside (calls : List Node) (height : Nat) :
    KeepsCalls calls (ins.visitInside height) := by
  induction height with
  | zero => exact fun _ _ _ h => h
  | succ height ih =>
    intro progress n hshaped h
    have hblock := ins.comesFrom_visitBlock ih n.owner progress
      fun k hk => ⟨hshaped.child hk, h.child hk⟩
    refine Tree.each_iff.2 ⟨h.root.of_like fun hcall => ?_, fun k hk => ?_⟩
    · rw [content_visitInside] at hcall
      exact ⟨hcall, ins.callLike_visitInside _ progress hshaped hcall⟩
    · rw [visitInside, Visit.map, Tree.children_withChildren] at hk
      exact hblock k hk

/-! ### Templates and files -/

/-- A template follows the one that it was before the visit. -/
theorem follows_visitTemplate (progress : Progress) {t : Template Mark}
    (h : ShapedBody t.body) : (ins.visitTemplate progress t).result.Follows t := by
  have hown : ∀ n ∈ t.body, Shaped n ∧ Each (ComesFrom (Tree.calls t.body)) n := by
    refine fun n hn => ⟨(h n hn).1, fun k hk hcall => ⟨k, ?_, CallLike.refl k⟩⟩
    rw [Tree.calls_eq (fun n hn => (h n hn).1) fun n hn => (h n hn).2]
    exact List.mem_filter.2 ⟨Tree.mem_preorderAll.2 ⟨n, hn, hk⟩, hcall⟩
  refine ⟨rfl, fun call hmem => ?_⟩
  obtain ⟨hcall, hkind⟩ := Tree.mem_preorderAll_of_mem_calls hmem
  obtain ⟨n, hn, hcall⟩ := Tree.mem_preorderAll.1 hcall
  exact ins.comesFrom_visitBlock (ins.keepsCalls_visitInside _ _) _ _ hown n hn call hcall hkind

theorem follows_visitTemplates (progress : Progress)
    {ts : List (Template Mark)} (h : ∀ t ∈ ts, ShapedBody t.body) :
    List.Forall₂ Template.Follows (ins.visitTemplates progress ts).result ts := by
  induction ts generalizing progress with
  | nil => exact .nil
  | cons t rest ih =>
    obtain ⟨ht, hrest⟩ := List.forall_mem_cons.1 h
    have hfirst := ins.follows_visitTemplate progress ht
    rw [visitTemplates]
    split
    · exact .cons hfirst (List.forall₂_same.2 fun t _ => .refl t)
    · exact .cons hfirst (ih _ hrest)

theorem follows_visitFiles (progress : Progress)
    {files : List (SourceFile Mark)} (h : ∀ file ∈ files, ∀ t ∈ file.templates, ShapedBody t.body) :
    List.Forall₂ Template.Follows ((ins.visitFiles progress files).result.flatMap (·.templates))
      (files.flatMap (·.templates)) := by
  induction files generalizing progress with
  | nil => exact .nil
  | cons file rest ih =>
    obtain ⟨hfile, hrest⟩ := List.forall_mem_cons.1 h
    have hfirst := ins.follows_visitTemplates progress hfile
    rw [visitFiles, List.flatMap_cons]
    split
    · exact List.rel_append hfirst (List.forall₂_same.2 fun t _ => .refl t)
    · exact List.rel_append hfirst (ih _ hrest)

end Insertion

end Message

namespace FileSet

variable {c : Compiler} {sources : List Source} {set : FileSet}

/-- After an insertion every template follows the one that was in its place, also
    if the insertion failed. -/
theorem follows_insertMsgs (ins : Message.Insertion) {set : FileSet}
    (h : ∀ t ∈ set.templates, ShapedBody t.body) :
    List.Forall₂ Template.Follows (set.insertMsgs ins).2.templates set.templates := by
  have hfiles : List.Forall₂ Template.Follows
      ((ins.visitFiles { next := set.next } set.files).result.flatMap (·.templates))
      set.templates :=
    ins.follows_visitFiles _ fun file hfile t ht => h t (List.mem_flatMap.2 ⟨file, hfile, ht⟩)
  rw [insertMsgs]
  split
  · exact hfiles
  · exact hfiles

/-- **Insertion keeps calls right.**  If an index of the templates of a file set
    that is read can be built and no argument of a call is a misfit, then this
    still holds after an insertion, whatever the bundle and the mode, and also if
    the insertion fails. -/
theorem checkCallTypes_insertMsgs_eq_nil (hparse : (c.parse sources).1 = .ok set)
    {index : TemplateIndex} (hbuild : TemplateIndex.build set.resolveTypes.templates = .ok index)
    {types : TypeRegistry} (hnil : (checkCallTypes index set.resolveTypes.templates types).1 = [])
    (ins : Message.Insertion) (types' : TypeRegistry) :
    ∃ index', TemplateIndex.build (set.resolveTypes.insertMsgs ins).2.templates = .ok index' ∧
      (checkCallTypes index' (set.resolveTypes.insertMsgs ins).2.templates types').1 = [] := by
  have hshaped := shapedBody_of_parse hparse
  have hwell := WellFormed.resolveTypes hshaped (Compiler.wellFormed_of_parse hparse)
  have hfollows := follows_insertMsgs ins (shapedBody_of_mem_resolveTypes hshaped)
  obtain ⟨index', hindex'⟩ : ∃ index',
      TemplateIndex.build (set.resolveTypes.insertMsgs ins).2.templates = .ok index' := by
    rw [TemplateIndex.exists_build_iff, map_slot_of_follows hfollows, ← TemplateIndex.exists_build_iff]
    exact ⟨index, hbuild⟩
  exact ⟨index', hindex', checkCallTypes_eq_nil_of_follow hindex'
    (hwell.insertMsgs ins).nodup_templates hbuild hwell.nodup_templates
    (follow_of_forall₂ hfollows) hnil⟩

/-- A message with a call whose parameter holds a message with another call. -/
def nestedCalls : Source :=
  { path := "t.soy"
    text := "\x7bnamespace n\x7d\n\x7btemplate .a\x7d\n\x7b@param x: string\x7d\n" ++
      "\x7bmsg desc=\"\"\x7dDear \x7bcall .b data=\"all\"\x7d\x7bparam y kind=\"text\"\x7d" ++
      "\x7bmsg desc=\"\"\x7dor \x7bcall .b data=\"all\" /\x7d\x7b/msg\x7d" ++
      "\x7b/param\x7d\x7b/call\x7d\x7b/msg\x7d\n\x7b/template\x7d\n" ++
      "\x7btemplate .b\x7d\n\x7b@param x: string\x7d\n\x7b@param y: string\x7d\n" ++
      "\x7b$x\x7d\n\x7b/template\x7d\n" }

/-- A translation that uses the outer call twice. -/
def outerCallTwice : Message.Insertion :=
  { bundle := some (Bundle.ofList none [{
      id := 1182275009115581959
      parts := [.placeholder "XXX", .text ", ", .placeholder "XXX"] }])
    mode := .strict }

/-- The translation makes four calls of two, and they are right. -/
theorem checkCallTypes_insertMsgs_eq_nil_nestedCalls : ∃ set index,
    (Compiler.parse {} [nestedCalls]).1 = .ok set ∧
      TemplateIndex.build set.resolveTypes.templates = .ok index ∧
      (checkCallTypes index set.resolveTypes.templates {}).1 = [] ∧
      ((set.resolveTypes.insertMsgs outerCallTwice).2.templates.flatMap
        fun t => Tree.calls t.body).length = 4 ∧
      ∃ index', TemplateIndex.build (set.resolveTypes.insertMsgs outerCallTwice).2.templates =
          .ok index' ∧
        (checkCallTypes index' (set.resolveTypes.insertMsgs outerCallTwice).2.templates {}).1 = [] := by
  have hcheck : (Compiler.parse {} [nestedCalls]).1.toOption.any fun set =>
      (TemplateIndex.build set.resolveTypes.templates).toOption.any fun index =>
        (checkCallTypes index set.resolveTypes.templates {}).1 = [] ∧
          ((set.resolveTypes.insertMsgs outerCallTwice).2.templates.flatMap
            fun t => Tree.calls t.body).length = 4 := by decide +kernel
  obtain ⟨set, hparse, hset⟩ := any_toOption.1 hcheck
  obtain ⟨index, hbuild, hindex⟩ := any_toOption.1 hset
  obtain ⟨hnil, hcount⟩ := of_decide_eq_true hindex
  exact ⟨set, index, hparse, hbuild, hnil, hcount,
    checkCallTypes_insertMsgs_eq_nil hparse hbuild hnil outerCallTwice {}⟩

end FileSet

end Stencil
