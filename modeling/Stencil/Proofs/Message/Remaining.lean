/-
  Stencil/Proofs/Message/Remaining.lean
  =====================================
  **The message groups that an insertion leaves.**

  An insertion that succeeds visits every group there is.  It replaces those
  that it can, by statements that are no groups themselves and whose insides it
  visits too; what is left are the groups with a plural or select, in the order
  in which they were skipped (`insertMsgs_leaves`).  A second pass finds nothing
  else and so changes nothing.
-/
import Stencil.Message.Extraction
import Stencil.Proofs.Compiler.FileSets
import Stencil.Proofs.Message.Formed
import Stencil.Proofs.Message.Replacement

namespace Stencil

open Stencil.Tree (Shaped ShapedBody groups)

namespace Message

/-- A message of the group is a plural or select. -/
def hasChoice {α : Type} (group : Tree α) : Bool :=
  group.children.any fun msg => isChoiceBody msg.children

theorem find?_eq_none_iff {group : Node} :
    (group.children.find? fun msg => isChoiceBody msg.children) = none ↔ ¬ hasChoice group := by
  rw [List.find?_eq_none, hasChoice, List.any_eq_true]
  simp

/-- Whether a body is a plural or select depends on the contents of its parts. -/
theorem isChoiceBody_congr {α : Type} {body body' : List (Tree α)}
    (h : body.map Tree.content = body'.map Tree.content) :
    isChoiceBody body = isChoiceBody body' := by
  match body, body' with
  | [], [] => rfl
  | [part], [part'] =>
    rw [List.map_singleton, List.map_singleton, List.singleton_inj] at h
    rw [isChoiceBody, isChoiceBody, h]
  | _ :: _ :: _, _ :: _ :: _ => rfl
  | [], _ :: _ | _ :: _, [] | [_], _ :: _ :: _ | _ :: _ :: _, [_] => simp at h

/-- From one progress to another the groups were left, which have a plural or
    select, and which only a tolerant insertion leaves. -/
structure Leaves (ins : Insertion) (progress progress' : Progress) (left : List Node) : Prop where
  skipped : progress'.skipped = progress.skipped ++ left.map Tree.id
  choice : ∀ g ∈ left, hasChoice g
  tolerant : ∀ g ∈ left, ins.mode = .tolerant

namespace Leaves

variable {ins : Insertion} {progress mid progress' : Progress} {left left' : List Node}

theorem nil (h : progress'.skipped = progress.skipped) : Leaves ins progress progress' [] :=
  ⟨by rw [h, List.map_nil, List.append_nil], fun _ hg => (nomatch hg), fun _ hg => (nomatch hg)⟩

theorem append (h : Leaves ins progress mid left) (h' : Leaves ins mid progress' left') :
    Leaves ins progress progress' (left ++ left') := by
  refine ⟨?_, List.forall_mem_append.2 ⟨h.choice, h'.choice⟩,
    List.forall_mem_append.2 ⟨h.tolerant, h'.tolerant⟩⟩
  rw [h'.skipped, h.skipped, List.map_append, List.append_assoc]

end Leaves

namespace Insertion

variable (ins : Insertion)

/-! ### Replacing one group -/

theorem replacement_of_hasChoice {group : Node} (h : hasChoice group) (progress : Progress) :
    (∃ e, ins.mode = .strict ∧ ins.replacement progress group = (.error e, progress)) ∨
      (ins.mode = .tolerant ∧ ins.replacement progress group =
        (.ok none, { progress with skipped := progress.skipped ++ [group.id] })) := by
  cases hfind : group.children.find? fun msg => isChoiceBody msg.children with
  | none => exact absurd h (find?_eq_none_iff.1 hfind)
  | some msg =>
    rw [replacement, hfind]
    cases hmode : ins.mode with
    | strict => exact .inl ⟨_, rfl, rfl⟩
    | tolerant => exact .inr ⟨rfl, rfl⟩

/-- A group without plurals and selects is replaced, or there is an error; no
    group is skipped. -/
theorem replacement_of_not_hasChoice {group : Node} (hgroup : Shaped group)
    (h : ¬ hasChoice group) (progress : Progress) :
    (ins.replacement progress group).2.skipped = progress.skipped ∧
      (ins.replacement progress group).1 ≠ .ok none ∧
      ∀ ns, (ins.replacement progress group).1 = .ok (some ns) →
        ∀ s ∈ ns, Stands group.height s := by
  have hheight : ∀ msg ∈ group.children, msg.height ≤ group.height := fun msg hmsg =>
    Tree.height_le_of_mem_preorder group (Tree.mem_preorder_of_mem_children hmsg)
  rw [replacement, find?_eq_none_iff.2 h]
  dsimp only
  split
  · rename_i msg t htranslation
    obtain ⟨bundle, -, hfind⟩ := Option.bind_eq_some_iff.1 htranslation
    obtain ⟨msg', hmsg', hget⟩ := List.exists_of_findSome?_eq_some hfind
    obtain ⟨t', -, heq⟩ := Option.map_eq_some_iff.1 hget
    cases heq
    refine ⟨rfl, fun hnone => ?_, fun ns hns s hs => ?_⟩
    · obtain ⟨ns, -, hsome⟩ := map_eq_ok.1 hnone
      cases hsome
    · obtain ⟨ns', hns', hsome⟩ := map_eq_ok.1 hns
      cases hsome
      exact (stands_of_mem_translatedStatements (hgroup.child hmsg') hns' s hs).mono
        (hheight _ hmsg')
  · refine ⟨rfl, fun hnone => (nomatch hnone), fun ns hns s hs => ?_⟩
    cases hns
    split at hs
    · cases hs
    · rename_i primary rest hmsgs
      have hprimary : primary ∈ group.children := by
        rw [hmsgs]
        exact List.mem_cons_self
      exact (stands_of_mem_sourceStatements (hgroup.child hprimary) s hs).mono
        (hheight primary hprimary)

/-- A group without plurals and selects that has no translation is replaced by the
    statements of its first message. -/
theorem replacement_of_untranslated {group primary : Node} {rest : List Node}
    (h : ¬ hasChoice group) (hmsgs : group.children = primary :: rest)
    (hnone : (ins.bundle.bind fun bundle => translation? bundle group.children) = none)
    (progress : Progress) :
    ins.replacement progress group = (.ok (some (sourceStatements primary)), progress) := by
  rw [replacement, find?_eq_none_iff.2 h]
  dsimp only
  rw [hnone, hmsgs]

/-! ### Lists without groups -/

/-- In a list without groups every node stays where it is. -/
theorem map_visitBlock {β : Type} (f : Node → β) (inside : Progress → Node → Visit Node)
    (owner : NodeId) (progress : Progress) {ns : List Node} (hgroup : ∀ n ∈ ns, ¬ n.content.isMsgGroup)
    (hf : ∀ progress, ∀ n ∈ ns, f (inside progress n).result = f n) :
    (ins.visitBlock inside owner progress ns).result.map f = ns.map f := by
  induction ns generalizing progress with
  | nil => rfl
  | cons n rest ih =>
    have hrest := fun progress => ih progress
      (fun k hk => hgroup k (List.mem_cons_of_mem _ hk))
      fun progress k hk => hf progress k (List.mem_cons_of_mem _ hk)
    have hn := hf progress n List.mem_cons_self
    rw [visitBlock, visitStatement, if_neg (hgroup n List.mem_cons_self)]
    split
    · rw [Visit.map, List.map_append, List.map_singleton, hn]
      rfl
    · rw [Visit.map, List.map_append, hrest]
      rw [Visit.map, List.map_singleton, hn]
      rfl

theorem content_visitInside (height : Nat) (progress : Progress) (n : Node) :
    (ins.visitInside height progress n).result.content = n.content := by
  cases height with
  | zero => rfl
  | succ height => exact Tree.content_withChildren n _

theorem id_visitInside (height : Nat) (progress : Progress) (n : Node) :
    (ins.visitInside height progress n).result.id = n.id := by
  cases height with
  | zero => rfl
  | succ height => exact Tree.id_withChildren n _

/-- Where no group is among the children of a node, their contents stay. -/
theorem map_content_visitInside (height : Nat) (progress : Progress) {n : Node}
    (h : ∀ k ∈ n.children, ¬ k.content.isMsgGroup) :
    (ins.visitInside height progress n).result.children.map Tree.content =
      n.children.map Tree.content := by
  cases height with
  | zero => rfl
  | succ height =>
    rw [visitInside, Visit.map, Tree.children_withChildren]
    exact ins.map_visitBlock _ _ _ _ h fun progress k _ => ins.content_visitInside height progress k

theorem not_isMsgGroup_of_holds {content child : Content} (h : content.holds child)
    (hcontent : content.holds .msgGroup = false) : ¬ child.isMsgGroup := by
  intro hgroup
  cases child with
  | msgGroup =>
    rw [h] at hcontent
    cases hcontent
  | _ => cases hgroup

/-- A group keeps the plurals and selects that it has. -/
theorem hasChoice_visitInside (height : Nat) (progress : Progress) {group : Node}
    (h : Shaped group) (hcontent : group.content = .msgGroup) :
    hasChoice (ins.visitInside height progress group).result = hasChoice group := by
  have hmsg : ∀ msg ∈ group.children, ∃ desc meaning hidden,
      msg.content = .msg desc meaning hidden := by
    intro msg hmsg
    have hholds := h.root msg hmsg
    rw [hcontent] at hholds
    exact Content.exists_msg_of_holds hholds
  have hbody : ∀ height progress, ∀ msg ∈ group.children,
      isChoiceBody (ins.visitInside height progress msg).result.children =
        isChoiceBody msg.children := by
    intro height progress msg hmem
    obtain ⟨desc, meaning, hidden, hkind⟩ := hmsg msg hmem
    refine isChoiceBody_congr (ins.map_content_visitInside height progress fun part hpart => ?_)
    refine not_isMsgGroup_of_holds ((h.child hmem).root part hpart) ?_
    rw [hkind]
    rfl
  cases height with
  | zero => rfl
  | succ height =>
    have hmap := ins.map_visitBlock (fun msg => isChoiceBody msg.children) (ins.visitInside height)
      group.owner progress (fun msg hmem hgroup => ?_)
      fun progress msg hmem => hbody height progress msg hmem
    · rw [visitInside, Visit.map, hasChoice, Tree.children_withChildren, hasChoice]
      have hany := congrArg (List.any · id) hmap
      simpa only [List.any_map, Function.comp_def, id] using hany
    · obtain ⟨desc, meaning, hidden, hkind⟩ := hmsg msg hmem
      rw [hkind] at hgroup
      cases hgroup

/-! ### What a visit leaves -/

/-- A visit of the inside of a node that succeeds. -/
structure ClearsNode (progress : Progress) (n : Node) (v : Visit Node) : Prop where
  shaped : Shaped v.result
  leaves : Leaves ins progress v.progress (groups v.result.children)

/-- A visit of a list that succeeds. -/
structure ClearsList (progress : Progress) (v : Visit (List Node)) : Prop where
  shaped : ∀ n ∈ v.result, Shaped n
  leaves : Leaves ins progress v.progress (groups v.result)

/-- The insides of nodes of at most so many levels are visited. -/
def ClearsInside (height : Nat) : Prop :=
  ∀ progress n, Shaped n → n.height ≤ height → (ins.visitInside height progress n).error = none →
    ClearsNode ins progress n (ins.visitInside height progress n)

variable {ins} {height : Nat} {progress : Progress}

theorem ClearsNode.clearsList {n : Node} {v : Visit Node} (h : ClearsNode ins progress n v)
    (hgroup : ¬ v.result.content.isMsgGroup) : ClearsList ins progress (v.map ([·])) := by
  refine ⟨fun k hk => ?_, ?_⟩
  · rw [Visit.map, List.mem_singleton] at hk
    rw [hk]
    exact h.shaped
  · rw [Visit.map, Tree.groups_of_not_isMsgGroup hgroup]
    exact h.leaves

theorem ClearsList.append {v v' : Visit (List Node)} (h : ClearsList ins progress v)
    (h' : ClearsList ins v.progress v') : ClearsList ins progress (v'.map (v.result ++ ·)) := by
  refine ⟨List.forall_mem_append.2 ⟨h.shaped, h'.shaped⟩, ?_⟩
  rw [Visit.map, Tree.groups_append]
  exact h.leaves.append h'.leaves

/-- Of what replaces a group, the groups inside are left. -/
theorem clears_visitEach (hinside : ClearsInside ins height) {ns : List Node}
    (hns : ∀ n ∈ ns, Stands height n)
    (hok : (visitEach (ins.visitInside height) progress ns).error = none) :
    ClearsList ins progress (visitEach (ins.visitInside height) progress ns) ∧
      ∀ n ∈ (visitEach (ins.visitInside height) progress ns).result, isInline n.content := by
  induction ns generalizing progress with
  | nil => exact ⟨⟨fun _ hn => (nomatch hn), .nil rfl⟩, fun _ hn => (nomatch hn)⟩
  | cons n rest ih =>
    have hn := hns n List.mem_cons_self
    have hinline : isInline (ins.visitInside height progress n).result.content := by
      rw [ins.content_visitInside]
      exact hn.inline
    rw [visitEach] at hok ⊢
    split at hok
    · cases hok
    · rename_i hnone
      have hfirst := (hinside progress n hn.shaped hn.height_le hnone).clearsList
        (not_isMsgGroup_of_isInline hinline)
      obtain ⟨hrest, hinlines⟩ := ih (fun k hk => hns k (List.mem_cons_of_mem _ hk)) hok
      exact ⟨hfirst.append hrest, List.forall_mem_cons.2 ⟨hinline, hinlines⟩⟩

theorem groups_adopt {owner : NodeId} {ns : List Node}
    (h : ∀ n ∈ ns, ¬ n.content.isMsgGroup) : groups (ChildList.adopt owner ns) = groups ns := by
  rw [ChildList.adopt, Tree.groups_eq_flatMap, Tree.groups_eq_flatMap ns, List.flatMap_map]
  apply List.flatMap_congr
  intro n hn
  rw [Tree.groups_of_not_isMsgGroup (h n hn), Tree.groups_of_not_isMsgGroup, Tree.children_withParent]
  rw [Tree.content_withParent]
  exact h n hn

theorem shaped_withParent {n : Node} (h : Shaped n) (parent : Option NodeId) :
    Shaped (n.withParent parent) := by
  rwa [← Tree.shaped_bare, Tree.bare_withParent, Tree.shaped_bare]

/-- A group that is left is left itself, and before the groups inside. -/
theorem clears_left {progress' : Progress} {group : Node} (hshaped : Shaped group)
    (hgroup : group.content.isMsgGroup) (hchoice : hasChoice group) (hmode : ins.mode = .tolerant)
    (hskipped : progress'.skipped = progress.skipped ++ [group.id])
    (hnode : ClearsNode ins progress' group (ins.visitInside height progress' group)) :
    ClearsList ins progress ((ins.visitInside height progress' group).map ([·])) := by
  refine ⟨fun k hk => ?_, ?_⟩
  · rw [Visit.map, List.mem_singleton] at hk
    rw [hk]
    exact hnode.shaped
  · rw [Visit.map, Tree.groups_singleton, ins.content_visitInside, if_pos hgroup]
    refine Leaves.append ⟨?_, ?_, ?_⟩ hnode.leaves
    · rw [List.map_singleton, ins.id_visitInside]
      exact hskipped
    · rw [List.forall_mem_singleton, ins.hasChoice_visitInside height _ hshaped
        (Content.eq_msgGroup_of_isMsgGroup hgroup)]
      exact hchoice
    · exact fun _ _ => hmode

/-- Of a group that is replaced, the groups in its statements are left. -/
theorem clears_replaced (owner : NodeId) {progress' : Progress} {v : Visit (List Node)}
    (hskipped : progress'.skipped = progress.skipped) (heach : ClearsList ins progress' v)
    (hinline : ∀ n ∈ v.result, isInline n.content) :
    ClearsList ins progress ⟨ChildList.adopt owner v.result,
      { v.progress with replaced := v.progress.replaced + 1 }, none⟩ := by
  refine ⟨fun k hk => ?_, ?_⟩
  · obtain ⟨s, hs, rfl⟩ := List.mem_map.1 hk
    exact shaped_withParent (heach.shaped s hs) _
  · have hleaves := Leaves.append (.nil hskipped) heach.leaves
    rw [groups_adopt fun s hs => not_isMsgGroup_of_isInline (hinline s hs)]
    exact ⟨hleaves.skipped, hleaves.choice, hleaves.tolerant⟩

theorem clears_visitStatement (hinside : ClearsInside ins height) (owner : NodeId) {n : Node}
    (hn : Shaped n) (hheight : n.height ≤ height)
    (hok : (ins.visitStatement (ins.visitInside height) owner progress n).error = none) :
    ClearsList ins progress (ins.visitStatement (ins.visitInside height) owner progress n) ∧
      (n.content.isStatement → ∀ k ∈
        (ins.visitStatement (ins.visitInside height) owner progress n).result,
          k.content.isStatement) := by
  -- a node that stays keeps its content
  have hstays : ∀ progress', n.content.isStatement →
      ∀ k ∈ ((ins.visitInside height progress' n).map ([·])).result, k.content.isStatement := by
    intro progress' hstatement k hk
    rw [Visit.map, List.mem_singleton] at hk
    rw [hk, ins.content_visitInside]
    exact hstatement
  by_cases hgroup : n.content.isMsgGroup
  · rw [visitStatement, if_pos hgroup] at hok ⊢
    by_cases hchoice : hasChoice n
    · rcases ins.replacement_of_hasChoice hchoice progress with
        ⟨e, -, hreplacement⟩ | ⟨hmode, hreplacement⟩
      · rw [hreplacement] at hok
        cases hok
      · rw [hreplacement] at hok ⊢
        exact ⟨clears_left hn hgroup hchoice hmode rfl (hinside _ n hn hheight hok), hstays _⟩
    · obtain ⟨hskipped, hsome, hstands⟩ := ins.replacement_of_not_hasChoice hn hchoice progress
      rcases hreplacement : ins.replacement progress n with ⟨e | _ | nodes, progress'⟩
      · rw [hreplacement] at hok
        cases hok
      · rw [hreplacement] at hsome
        exact absurd rfl hsome
      · rw [hreplacement] at hok hskipped hstands
        dsimp only at hok ⊢
        cases hnone : (visitEach (ins.visitInside height) progress' nodes).error with
        | some e =>
          rw [hnone] at hok
          cases hok
        | none =>
          obtain ⟨heach, hinline⟩ := clears_visitEach hinside
            (fun s hs => (hstands nodes rfl s hs).mono hheight) hnone
          refine ⟨clears_replaced owner hskipped heach hinline, fun _ k hk => ?_⟩
          obtain ⟨s, hs, rfl⟩ := List.mem_map.1 hk
          rw [Tree.content_withParent]
          exact isStatement_of_isInline (hinline s hs)
  · rw [visitStatement, if_neg hgroup] at hok ⊢
    refine ⟨(hinside progress n hn hheight hok).clearsList ?_, hstays progress⟩
    rw [ins.content_visitInside]
    exact hgroup

theorem clears_visitBlock (hinside : ClearsInside ins height) (owner : NodeId) {ns : List Node}
    (hns : ∀ n ∈ ns, Shaped n) (hheight : ∀ n ∈ ns, n.height ≤ height)
    (hok : (ins.visitBlock (ins.visitInside height) owner progress ns).error = none) :
    ClearsList ins progress (ins.visitBlock (ins.visitInside height) owner progress ns) ∧
      ((∀ n ∈ ns, n.content.isStatement) → ∀ k ∈
        (ins.visitBlock (ins.visitInside height) owner progress ns).result,
          k.content.isStatement) := by
  induction ns generalizing progress with
  | nil => exact ⟨⟨hns, .nil rfl⟩, fun h => h⟩
  | cons n rest ih =>
    rw [visitBlock] at hok ⊢
    split at hok
    · cases hok
    · rename_i hnone
      obtain ⟨hfirst, hstatement⟩ := clears_visitStatement hinside owner (hns n List.mem_cons_self)
        (hheight n List.mem_cons_self) hnone
      obtain ⟨hrest, hstatements⟩ := ih (fun k hk => hns k (List.mem_cons_of_mem _ hk))
        (fun k hk => hheight k (List.mem_cons_of_mem _ hk)) hok
      refine ⟨hfirst.append hrest, fun h => List.forall_mem_append.2 ⟨?_, ?_⟩⟩
      · exact hstatement (h n List.mem_cons_self)
      · exact hstatements fun k hk => h k (List.mem_cons_of_mem _ hk)

theorem isStatement_iff_holds {content child : Content} (h : content.holds .msgGroup) :
    content.holds child ↔ child.isStatement := by
  cases content with
  | branch | contentParam => exact Iff.rfl
  | _ => cases h

/-- What a visit puts below a node fits the node. -/
theorem shapedAt_visitBlock {n : Node} (h : Tree.ShapedAt n)
    (hstatement : (∀ k ∈ n.children, k.content.isStatement) → ∀ k ∈
      (ins.visitBlock (ins.visitInside height) n.owner progress n.children).result,
        k.content.isStatement) :
    Tree.ShapedAt (n.withChildren
      (ins.visitBlock (ins.visitInside height) n.owner progress n.children).result) := by
  intro k hk
  rw [Tree.children_withChildren] at hk
  rw [Tree.content_withChildren]
  by_cases hholds : n.content.holds .msgGroup
  · refine (isStatement_iff_holds hholds).2 (hstatement (fun c hc => ?_) k hk)
    exact (isStatement_iff_holds hholds).1 (h c hc)
  · have hcontents := ins.map_visitBlock Tree.content (ins.visitInside height) n.owner progress
      (fun c hc => not_isMsgGroup_of_holds (h c hc) (Bool.of_not_eq_true hholds))
      fun progress c _ => ins.content_visitInside height progress c
    have hmem : k.content ∈ n.children.map Tree.content := by
      rw [← hcontents]
      exact List.mem_map_of_mem hk
    obtain ⟨c, hc, heq⟩ := List.mem_map.1 hmem
    rw [← heq]
    exact h c hc

variable (ins) in
theorem clears_visitInside (height : Nat) : ClearsInside ins height := by
  induction height with
  | zero => exact fun _ n _ hheight => absurd (height_pos n) (Nat.not_lt.2 hheight)
  | succ height ih =>
    intro progress n hn hheight hok
    have hchildren : ∀ k ∈ n.children, k.height ≤ height := by
      rw [Tree.height_eq, Nat.succ_le_succ_iff] at hheight
      exact Tree.heightAll_le_iff.1 hheight
    obtain ⟨hlist, hstatement⟩ := clears_visitBlock ih n.owner
      (fun k hk => hn.child hk) hchildren hok
    refine ⟨Tree.each_iff.2 ⟨shapedAt_visitBlock hn.root hstatement, fun k hk => ?_⟩, ?_⟩
    · rw [visitInside, Visit.map, Tree.children_withChildren] at hk
      exact hlist.shaped k hk
    · rw [visitInside, Visit.map, Tree.children_withChildren]
      exact hlist.leaves

/-! ### Templates and files -/

/-- The message groups in a template. -/
def templateGroups (t : Template Mark) : List Node := groups t.body

theorem clears_visitTemplate {t : Template Mark} (h : ShapedBody t.body)
    (hok : (ins.visitTemplate progress t).error = none) :
    ShapedBody (ins.visitTemplate progress t).result.body ∧
      Leaves ins progress (ins.visitTemplate progress t).progress
        (templateGroups (ins.visitTemplate progress t).result) := by
  obtain ⟨hlist, hstatement⟩ := clears_visitBlock (ins.clears_visitInside _)
    t.mark.owner (fun n hn => (h n hn).1)
    (Tree.heightAll_le_iff.1 (Nat.le_refl (Tree.heightAll t.body))) hok
  refine ⟨fun n hn => ⟨hlist.shaped n hn, ?_⟩, hlist.leaves⟩
  exact hstatement (fun k hk => (h k hk).2) n hn

theorem clears_visitTemplates {ts : List (Template Mark)} (h : ∀ t ∈ ts, ShapedBody t.body)
    (hok : (ins.visitTemplates progress ts).error = none) :
    (∀ t ∈ (ins.visitTemplates progress ts).result, ShapedBody t.body) ∧
      Leaves ins progress (ins.visitTemplates progress ts).progress
        ((ins.visitTemplates progress ts).result.flatMap templateGroups) := by
  induction ts generalizing progress with
  | nil => exact ⟨h, .nil rfl⟩
  | cons t rest ih =>
    rw [visitTemplates] at hok ⊢
    split at hok
    · cases hok
    · rename_i hnone
      obtain ⟨hshaped, hleaves⟩ := clears_visitTemplate (h t List.mem_cons_self) hnone
      obtain ⟨hshapeds, hleaveses⟩ := ih (fun u hu => h u (List.mem_cons_of_mem _ hu)) hok
      exact ⟨List.forall_mem_cons.2 ⟨hshaped, hshapeds⟩, hleaves.append hleaveses⟩

theorem clears_visitFiles {files : List (SourceFile Mark)}
    (h : ∀ file ∈ files, ∀ t ∈ file.templates, ShapedBody t.body)
    (hok : (ins.visitFiles progress files).error = none) :
    (∀ file ∈ (ins.visitFiles progress files).result, ∀ t ∈ file.templates, ShapedBody t.body) ∧
      Leaves ins progress (ins.visitFiles progress files).progress
        ((ins.visitFiles progress files).result.flatMap fun file =>
          file.templates.flatMap templateGroups) := by
  induction files generalizing progress with
  | nil => exact ⟨h, .nil rfl⟩
  | cons file rest ih =>
    rw [visitFiles] at hok ⊢
    split at hok
    · cases hok
    · rename_i hnone
      obtain ⟨hshaped, hleaves⟩ := clears_visitTemplates (h file List.mem_cons_self) hnone
      obtain ⟨hshapeds, hleaveses⟩ := ih (fun f hf => h f (List.mem_cons_of_mem _ hf)) hok
      exact ⟨List.forall_mem_cons.2 ⟨hshaped, hshapeds⟩, hleaves.append hleaveses⟩

/-! ### A second pass -/

/-- A visit that changes nothing: it comes by the groups, which a tolerant
    insertion skips and at which a strict one fails. -/
structure Idles {β : Type} (ins : Insertion) (progress : Progress) (before : β) (gs : List Node)
    (v : Visit β) : Prop where
  result_eq : v.result = before
  next_eq : v.progress.next = progress.next
  tolerant : ins.mode = .tolerant → v.error = none
  progress_eq : v.error = none →
    v.progress = { progress with skipped := progress.skipped ++ gs.map Tree.id }
  strict : v.error = none → ins.mode = .strict → gs = []

section Idles

variable {β γ : Type} {before before' : β} {gs gs' : List Node}

theorem Idles.map {v : Visit β} (h : Idles ins progress before gs v) (f : β → γ) :
    Idles ins progress (f before) gs (v.map f) :=
  ⟨congrArg f h.result_eq, h.next_eq, h.tolerant, h.progress_eq, h.strict⟩

/-- One visit after the other. -/
theorem Idles.append {bs bs' : List β} {v v' : Visit (List β)} (h : Idles ins progress bs gs v)
    (hnone : v.error = none) (h' : Idles ins v.progress bs' gs' v') :
    Idles ins progress (bs ++ bs') (gs ++ gs') (v'.map (v.result ++ ·)) := by
  refine ⟨?_, h'.next_eq.trans h.next_eq, h'.tolerant, fun hok => ?_, fun hok hmode => ?_⟩
  · rw [Visit.map, h.result_eq, h'.result_eq]
  · have hprogress := h'.progress_eq hok
    rw [h.progress_eq hnone] at hprogress
    rw [Visit.map, hprogress, List.map_append, List.append_assoc]
  · rw [h.strict hnone hmode, h'.strict hok hmode, List.append_nil]

/-- A visit that fails before the others. -/
theorem Idles.stop {bs bs' : List β} {v : Visit (List β)} {e : InsertionError}
    (h : Idles ins progress bs gs v) (herror : v.error = some e) :
    Idles ins progress (bs ++ bs') (gs ++ gs') ⟨v.result ++ bs', v.progress, some e⟩ := by
  refine ⟨by rw [h.result_eq], h.next_eq, fun hmode => ?_, fun hok => (nomatch hok),
    fun hok => (nomatch hok)⟩
  rw [h.tolerant hmode] at herror
  cases herror

theorem Idles.nil : Idles ins progress ([] : List β) [] ⟨[], progress, none⟩ := by
  refine ⟨rfl, rfl, fun _ => rfl, fun _ => ?_, fun _ _ => rfl⟩
  rw [List.map_nil, List.append_nil]

/-- The insides of nodes of at most so many levels, in which all groups have a
    plural or select, are visited for nothing. -/
def IdlesInside (ins : Insertion) (height : Nat) : Prop :=
  ∀ progress n, n.height ≤ height → (∀ g ∈ groups n.children, hasChoice g) →
    Idles ins progress n (groups n.children) (ins.visitInside height progress n)

theorem idles_visitStatement (hinside : IdlesInside ins height) (owner : NodeId)
    (progress : Progress) {n : Node}
    (hheight : n.height ≤ height) (hchoice : ∀ g ∈ groups [n], hasChoice g) :
    Idles ins progress [n] (groups [n])
      (ins.visitStatement (ins.visitInside height) owner progress n) := by
  have hbelow : ∀ g ∈ groups n.children, hasChoice g := by
    intro g hg
    refine hchoice g ?_
    rw [Tree.groups_singleton]
    exact List.mem_append_right _ hg
  rw [visitStatement]
  by_cases hgroup : n.content.isMsgGroup
  · rw [if_pos hgroup]
    have hn : hasChoice n := by
      refine hchoice n ?_
      rw [Tree.groups_singleton, if_pos hgroup]
      exact List.mem_cons_self
    rcases ins.replacement_of_hasChoice hn progress with
      ⟨e, hmode, hreplacement⟩ | ⟨hmode, hreplacement⟩
    · rw [hreplacement]
      refine ⟨rfl, rfl, fun htolerant => ?_, fun hok => (nomatch hok), fun hok => (nomatch hok)⟩
      rw [hmode] at htolerant
      cases htolerant
    · rw [hreplacement, Tree.groups_singleton, if_pos hgroup]
      have hvisit := (hinside { progress with skipped := progress.skipped ++ [n.id] } n hheight
        hbelow).map ([·])
      refine ⟨hvisit.result_eq, hvisit.next_eq, hvisit.tolerant, fun hok => ?_, fun _ hstrict => ?_⟩
      · rw [hvisit.progress_eq hok, List.map_append, List.map_singleton, ← List.append_assoc]
      · rw [hmode] at hstrict
        cases hstrict
  · rw [if_neg hgroup, Tree.groups_of_not_isMsgGroup hgroup]
    exact (hinside progress n hheight hbelow).map ([·])

theorem idles_visitBlock (hinside : IdlesInside ins height) (owner : NodeId)
    (progress : Progress) {ns : List Node}
    (hheight : ∀ n ∈ ns, n.height ≤ height) (hchoice : ∀ g ∈ groups ns, hasChoice g) :
    Idles ins progress ns (groups ns)
      (ins.visitBlock (ins.visitInside height) owner progress ns) := by
  induction ns generalizing progress with
  | nil => exact Idles.nil
  | cons n rest ih =>
    rw [Tree.groups_cons, List.forall_mem_append] at hchoice
    have hfirst := idles_visitStatement hinside owner progress
      (hheight n List.mem_cons_self) hchoice.1
    rw [Tree.groups_cons, visitBlock]
    split
    · rename_i e herror
      exact hfirst.stop herror
    · rename_i hnone
      exact hfirst.append hnone (ih _ (fun k hk => hheight k (List.mem_cons_of_mem _ hk)) hchoice.2)

variable (ins) in
theorem idles_visitInside (height : Nat) : IdlesInside ins height := by
  induction height with
  | zero => exact fun _ n hheight => absurd (height_pos n) (Nat.not_lt.2 hheight)
  | succ height ih =>
    intro progress n hheight hchoice
    have hchildren : ∀ k ∈ n.children, k.height ≤ height := by
      rw [Tree.height_eq, Nat.succ_le_succ_iff] at hheight
      exact Tree.heightAll_le_iff.1 hheight
    have hblock := (idles_visitBlock ih n.owner progress hchildren hchoice).map n.withChildren
    rwa [Tree.withChildren_children] at hblock

/-! ### Templates and files once more -/

variable (ins) in
theorem idles_visitTemplate (progress : Progress) {t : Template Mark} (h : ∀ g ∈ templateGroups t, hasChoice g) :
    Idles ins progress t (templateGroups t) (ins.visitTemplate progress t) :=
  (idles_visitBlock (ins.idles_visitInside _) _ _
    (Tree.heightAll_le_iff.1 (Nat.le_refl (Tree.heightAll t.body))) h).map
      fun body => { t with body }

variable (ins) in
theorem idles_visitTemplates (progress : Progress) {ts : List (Template Mark)}
    (h : ∀ g ∈ ts.flatMap templateGroups, hasChoice g) :
    Idles ins progress ts (ts.flatMap templateGroups) (ins.visitTemplates progress ts) := by
  induction ts generalizing progress with
  | nil => exact Idles.nil
  | cons t rest ih =>
    rw [List.flatMap_cons, List.forall_mem_append] at h
    have hfirst := (ins.idles_visitTemplate progress h.1).map ([·])
    rw [List.flatMap_cons, visitTemplates]
    split
    · rename_i e herror
      exact hfirst.stop herror
    · rename_i hnone
      exact hfirst.append hnone (ih _ h.2)

variable (ins) in
theorem idles_visitFiles (progress : Progress) {files : List (SourceFile Mark)}
    (h : ∀ g ∈ files.flatMap (fun file => file.templates.flatMap templateGroups), hasChoice g) :
    Idles ins progress files (files.flatMap fun file => file.templates.flatMap templateGroups)
      (ins.visitFiles progress files) := by
  induction files generalizing progress with
  | nil => exact Idles.nil
  | cons file rest ih =>
    rw [List.flatMap_cons, List.forall_mem_append] at h
    have hfirst := (ins.idles_visitTemplates progress h.1).map
      fun templates => [{ file with templates }]
    rw [List.flatMap_cons, visitFiles]
    split
    · rename_i e herror
      exact hfirst.stop herror
    · rename_i hnone
      exact hfirst.append hnone (ih _ h.2)

end Idles

end Insertion

end Message

/-! ### File sets -/

namespace FileSet

open Message (Insertion hasChoice)

theorem flatMap_templateGroups (set : FileSet) :
    (set.files.flatMap fun file => file.templates.flatMap Insertion.templateGroups) =
      set.templates.flatMap Insertion.templateGroups := by
  rw [templates, List.flatMap_assoc]

/-- A pass over a file set whose groups all have a plural or select. -/
theorem insertMsgs_idles {set : FileSet} (ins : Insertion)
    (h : ∀ g ∈ set.templates.flatMap Insertion.templateGroups, hasChoice g) :
    (set.insertMsgs ins).2 = set ∧
      (ins.mode = .tolerant → (set.insertMsgs ins).1 =
        .ok ⟨0, (set.templates.flatMap Insertion.templateGroups).map Tree.id⟩) ∧
      (ins.mode = .strict → ∀ summary, (set.insertMsgs ins).1 = .ok summary →
        summary = ⟨0, []⟩) := by
  rw [← flatMap_templateGroups] at h ⊢
  have hidles := ins.idles_visitFiles { next := set.next } h
  have hset : { set with
      files := (ins.visitFiles { next := set.next } set.files).result
      next := (ins.visitFiles { next := set.next } set.files).progress.next } = set := by
    rw [hidles.result_eq, hidles.next_eq]
  rw [insertMsgs]
  split
  · rename_i e herror
    refine ⟨hset, fun hmode => ?_, fun _ summary hsummary => (nomatch hsummary)⟩
    rw [hidles.tolerant hmode] at herror
    cases herror
  · rename_i hnone
    have hprogress := hidles.progress_eq hnone
    refine ⟨hset, fun _ => ?_, fun hmode summary hsummary => ?_⟩
    · rw [hprogress]
      rfl
    · cases hsummary
      rw [hprogress, hidles.strict hnone hmode]
      rfl

/-- If an insertion into a file set that is read succeeds, the message groups
    anywhere in it are those that a walk comes by, and they are the ones that
    the summary lists, in order; each has a plural or select, and a strict
    insertion leaves none.  A second pass changes nothing: a tolerant one reports
    the same groups, a strict one fails or has nothing to do. -/
theorem insertMsgs_leaves {c : Compiler} {sources : List Source} {set set' : FileSet}
    {ins : Insertion} {summary : InsertionSummary} (hparse : (c.parse sources).1 = .ok set)
    (hinsert : set.insertMsgs ins = (.ok summary, set')) :
    (set'.templates.flatMap fun t =>
        (Tree.preorderAll t.body).filter (·.content.isMsgGroup)) = set'.msgGroups ∧
      set'.msgGroups.map Tree.id = summary.skipped ∧
      (∀ g ∈ set'.msgGroups, hasChoice g) ∧
      (ins.mode = .strict → set'.msgGroups = []) ∧
      (∀ bundle, set'.insertMsgs { bundle, mode := .tolerant } =
        (.ok ⟨0, summary.skipped⟩, set')) ∧
      ∀ bundle, (set'.insertMsgs { bundle, mode := .strict }).2 = set' ∧
        ∀ again, (set'.insertMsgs { bundle, mode := .strict }).1 = .ok again → again = ⟨0, []⟩ := by
  have hbodies : ∀ file ∈ set.files, ∀ t ∈ file.templates, ShapedBody t.body := by
    intro file hfile t ht n hn
    have hplaced := Compiler.isPlacedBody_of_parse hparse t (List.mem_flatMap.2 ⟨file, hfile, ht⟩)
    obtain ⟨hformed, hstatement⟩ := Message.formed_of_isPlacedBody hplaced n hn
    exact ⟨hformed.shaped, hstatement⟩
  rw [insertMsgs] at hinsert
  split at hinsert
  · cases hinsert
  rename_i hnone
  cases hinsert
  obtain ⟨hshaped, hleaves⟩ := Insertion.clears_visitFiles hbodies hnone
  generalize hset' : { set with
      files := (ins.visitFiles { next := set.next } set.files).result
      next := (ins.visitFiles { next := set.next } set.files).progress.next } = set'
  have hfiles : (ins.visitFiles { next := set.next } set.files).result = set'.files := by
    rw [← hset']
  rw [hfiles] at hshaped hleaves
  rw [flatMap_templateGroups] at hleaves
  have hwalk : set'.msgGroups = set'.templates.flatMap Insertion.templateGroups := by
    refine List.flatMap_congr fun t ht => ?_
    obtain ⟨file, hfile, ht⟩ := List.mem_flatMap.1 ht
    exact Tree.msgGroups_eq_groups (fun n hn => (hshaped file hfile t ht n hn).1)
      fun n hn => (hshaped file hfile t ht n hn).2
  have hskipped : (set'.templates.flatMap Insertion.templateGroups).map Tree.id =
      (ins.visitFiles { next := set.next } set.files).progress.skipped := by
    rw [hleaves.skipped]
    rfl
  rw [hwalk]
  refine ⟨rfl, hskipped, hleaves.choice, fun hmode => ?_, fun bundle => ?_, fun bundle => ?_⟩
  · refine List.eq_nil_iff_forall_not_mem.2 fun g hg => ?_
    have htolerant := hleaves.tolerant g hg
    rw [hmode] at htolerant
    cases htolerant
  · obtain ⟨hsame, htolerant, -⟩ := insertMsgs_idles { bundle, mode := .tolerant } hleaves.choice
    rw [← hskipped]
    exact Prod.ext (htolerant rfl) hsame
  · obtain ⟨hsame, -, hstrict⟩ := insertMsgs_idles { bundle, mode := .strict } hleaves.choice
    exact ⟨hsame, hstrict rfl⟩

/-- A plural with a call that is given a message and a select. -/
def nestedChoices : Source :=
  { path := "t.soy"
    text := "\x7bnamespace n\x7d\n\x7btemplate .t\x7d\n" ++
      "\x7bmsg desc=\"\"\x7d\x7bplural $n\x7d\x7bdefault\x7d" ++
      "\x7bcall .f\x7d\x7bparam x kind=\"text\"\x7d\x7bmsg desc=\"\"\x7da\x7b/msg\x7d" ++
      "\x7bmsg desc=\"\"\x7d\x7bselect $g\x7d\x7bdefault\x7db\x7b/select\x7d\x7b/msg\x7d" ++
      "\x7b/param\x7d\x7b/call\x7d\x7b/plural\x7d\x7b/msg\x7d\n\x7b/template\x7d\n" }

/-- The message in the plural is replaced; the plural and the select in it are
    left, in this order, and reported again. -/
theorem insertMsgs_leaves_nestedChoices : ∃ set set' summary,
    (Compiler.parse {} [nestedChoices]).1 = .ok set ∧
      set.insertMsgs { bundle := none, mode := .tolerant } = (.ok summary, set') ∧
      summary.replaced = 1 ∧ summary.skipped.length = 2 ∧
      set'.msgGroups.map Tree.id = summary.skipped ∧
      set'.insertMsgs { bundle := none, mode := .tolerant } = (.ok ⟨0, summary.skipped⟩, set') := by
  have hcheck : (Compiler.parse {} [nestedChoices]).1.toOption.any fun set =>
      (set.insertMsgs { bundle := none, mode := .tolerant }).1.toOption.any fun summary =>
        summary.replaced = 1 ∧ summary.skipped.length = 2 := by decide +kernel
  obtain ⟨set, hparse, hset⟩ := any_toOption.1 hcheck
  obtain ⟨summary, hsummary, hcounts⟩ := any_toOption.1 hset
  obtain ⟨hreplaced, hlength⟩ := of_decide_eq_true hcounts
  have hinsert : set.insertMsgs { bundle := none, mode := .tolerant } = (.ok summary, _) :=
    Prod.ext hsummary rfl
  obtain ⟨-, hskipped, -, -, hagain, -⟩ := insertMsgs_leaves hparse hinsert
  exact ⟨set, _, summary, hparse, hinsert, hreplaced, hlength, hskipped, hagain none⟩

end FileSet

end Stencil
