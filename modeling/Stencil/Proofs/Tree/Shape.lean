/-
  Stencil/Proofs/Tree/Shape.lean
  ==============================
  **Which nodes stand below which, and what a walk finds.**

  A node of a template's tree has children of a few kinds only: a conditional has
  branches, a branch has statements, a message group has messages.  In a tree of
  that shape every statement stands in a child block of the statement around it,
  so a walk through child blocks comes by every statement there is, in the order
  of the text (`walkBlock_eq_statements`).
-/
import Mathlib.Data.List.Basic
import Stencil.Proofs.Tree.Nodes
import Stencil.Tree.Walk

namespace Stencil

namespace Content

/-- A node of the one content may have children of the other. -/
def holds : Content → Content → Bool
  | conditional, branch _ => true
  | branch _, child | contentParam _ _, child => child.isStatement
  | call _ _, valueParam _ _ | call _ _, contentParam _ _ => true
  | msgGroup, msg _ _ _ => true
  | msg _ _ _, msgText _ | msg _ _ _, placeholder _ _ => true
  | msg _ _ _, plural _ _ _ | msg _ _ _, select _ _ => true
  | plural _ _ _, case _ | select _ _, case _ => true
  | case _, msgText _ | case _, placeholder _ _ => true
  | placeholder _ _, print _ _ _ | placeholder _ _, call _ _ | placeholder _ _, htmlTag _ _ _ => true
  | htmlTag _ _ _, rawText _ | htmlTag _ _ _, print _ _ _ => true
  | _, _ => false

/-- The content without what a print shows and what a placeholder is called. -/
def form : Content → Content
  | print _ _ _ => print { text := "", kind := .other } [] false
  | placeholder _ _ => placeholder "" (.own 0)
  | content => content

theorem form_gist (content : Content) : content.gist.form = content.form := by
  cases content with
  | placeholder name key => cases key <;> rfl
  | _ => rfl

@[simp] theorem isStatement_form (content : Content) :
    content.form.isStatement = content.isStatement := by
  cases content <;> rfl

@[simp] theorem isMsgGroup_form (content : Content) :
    content.form.isMsgGroup = content.isMsgGroup := by
  cases content <;> rfl

@[simp] theorem isChoice_form (content : Content) : content.form.isChoice = content.isChoice := by
  cases content <;> rfl

/-- Which children a content may have is a matter of forms. -/
theorem holds_form (content child : Content) :
    content.form.holds child.form = content.holds child := by
  have hright : content.holds child.form = content.holds child := by
    cases child with
    | print | placeholder => cases content <;> rfl
    | _ => rfl
  rw [← hright]
  generalize child.form = other
  cases content with
  | print | placeholder => cases other <;> rfl
  | _ => rfl

theorem holds_gist (content child : Content) :
    content.gist.holds child.gist = content.holds child := by
  rw [← holds_form, form_gist, form_gist, holds_form]

/-- The contents whose children are statements. -/
def holdsStatements : Content → Bool
  | branch _ | contentParam _ _ | placeholder _ _ | htmlTag _ _ _ => true
  | _ => false

theorem isStatement_of_holds {content child : Content} (hcontent : content.holdsStatements)
    (h : content.holds child) : child.isStatement := by
  cases content with
  | branch | contentParam => exact h
  | placeholder | htmlTag => cases child <;> first | rfl | cases h
  | _ => cases hcontent

theorem eq_msgGroup_of_isMsgGroup {content : Content} (h : content.isMsgGroup) :
    content = msgGroup := by
  cases content <;> first | rfl | cases h

/-- A message group holds messages. -/
theorem exists_msg_of_holds {child : Content} (h : msgGroup.holds child) :
    ∃ desc meaning hidden, child = msg desc meaning hidden := by
  cases child <;> first | exact ⟨_, _, _, rfl⟩ | cases h

/-- The contents of messages and of their parts. -/
def isPart : Content → Bool
  | msg _ _ _ | msgText _ | placeholder _ _ | plural _ _ _ | select _ _ | case _ => true
  | _ => false

theorem not_isStatement_of_isPart {content : Content} (h : content.isPart) :
    ¬ content.isStatement := by
  cases content <;> simp [isPart, isStatement] at h ⊢

theorem isStatement_of_isMsgGroup {content : Content} (h : content.isMsgGroup) :
    content.isStatement := by
  cases content <;> first | rfl | cases h

theorem isStatement_of_isCall {content : Content} (h : content.isCall) : content.isStatement := by
  cases content <;> first | rfl | cases h

end Content

namespace Tree

variable {α : Type}

/-- The children of a node are such as its content may have. -/
def ShapedAt (n : Tree α) : Prop := ∀ k ∈ n.children, n.content.holds k.content

/-- All nodes of a tree have fitting children. -/
def Shaped (t : Tree α) : Prop := Each ShapedAt t

/-- The statements of a body, all of them of the shape of a body. -/
def ShapedBody (body : List (Tree α)) : Prop := ∀ t ∈ body, Shaped t ∧ t.content.isStatement

theorem shapedAt_gist (n : Tree α) : ShapedAt n.gist ↔ ShapedAt n := by
  simp only [ShapedAt, children_gist, content_gist, List.forall_mem_map, Content.holds_gist]

theorem children_eq_nil_of_shapedAt {n : Tree α} (h : ShapedAt n)
    (hcontent : ∀ child, n.content.holds child = false) : n.children = [] := by
  apply List.eq_nil_iff_forall_not_mem.2
  intro k hk
  have := h k hk
  rw [hcontent] at this
  cases this

/-! ### Message groups -/

/-- The message groups among several trees and everything below them. -/
def groups (ts : List (Tree α)) : List (Tree α) := (preorderAll ts).filter (·.content.isMsgGroup)

@[simp] theorem groups_nil : groups ([] : List (Tree α)) = [] := rfl

theorem mem_groups {g : Tree α} {ts : List (Tree α)} :
    g ∈ groups ts ↔ g ∈ preorderAll ts ∧ g.content.isMsgGroup := List.mem_filter

theorem groups_append (ts ts' : List (Tree α)) : groups (ts ++ ts') = groups ts ++ groups ts' := by
  rw [groups, preorderAll_eq_flatMap, List.flatMap_append, List.filter_append,
    ← preorderAll_eq_flatMap, ← preorderAll_eq_flatMap]
  rfl

theorem groups_cons (t : Tree α) (rest : List (Tree α)) :
    groups (t :: rest) = groups [t] ++ groups rest := groups_append [t] rest

theorem groups_flatMap {β : Type} (f : β → List (Tree α)) (bs : List β) :
    groups (bs.flatMap f) = bs.flatMap fun b => groups (f b) := by
  induction bs with
  | nil => rfl
  | cons b bs ih => rw [List.flatMap_cons, List.flatMap_cons, groups_append, ih]

theorem groups_eq_flatMap (ts : List (Tree α)) : groups ts = ts.flatMap fun t => groups [t] := by
  have h := groups_flatMap (fun t : Tree α => [t]) ts
  rwa [List.flatMap_singleton'] at h

theorem groups_singleton (t : Tree α) :
    groups [t] = (if t.content.isMsgGroup then [t] else []) ++ groups t.children := by
  cases t
  rw [groups, preorderAll, preorderAll, List.append_nil, preorder, List.filter_cons, content_node,
    children_node]
  split <;> rfl

theorem groups_of_not_isMsgGroup {t : Tree α} (h : ¬ t.content.isMsgGroup) :
    groups [t] = groups t.children := by
  rw [groups_singleton, if_neg h, List.nil_append]

/-! ### Statements -/

/-- The statements among several trees and everything below them. -/
def statements (ts : List (Tree α)) : List (Tree α) :=
  (preorderAll ts).filter (·.content.isStatement)

theorem statements_append (ts ts' : List (Tree α)) :
    statements (ts ++ ts') = statements ts ++ statements ts' := by
  rw [statements, preorderAll_eq_flatMap, List.flatMap_append, List.filter_append,
    ← preorderAll_eq_flatMap, ← preorderAll_eq_flatMap]
  rfl

theorem statements_cons (t : Tree α) (rest : List (Tree α)) :
    statements (t :: rest) = statements [t] ++ statements rest := statements_append [t] rest

theorem statements_flatMap {β : Type} (f : β → List (Tree α)) (bs : List β) :
    statements (bs.flatMap f) = bs.flatMap fun b => statements (f b) := by
  induction bs with
  | nil => rfl
  | cons b bs ih => rw [List.flatMap_cons, List.flatMap_cons, statements_append, ih]

theorem statements_eq_flatMap (ts : List (Tree α)) :
    statements ts = ts.flatMap fun t => statements [t] := by
  have h := statements_flatMap (fun t : Tree α => [t]) ts
  rwa [List.flatMap_singleton'] at h

theorem statements_singleton (t : Tree α) :
    statements [t] = (if t.content.isStatement then [t] else []) ++ statements t.children := by
  cases t
  rw [statements, preorderAll, preorderAll, List.append_nil, preorder, List.filter_cons,
    content_node, children_node]
  split <;> rfl

theorem statements_of_not_isStatement {t : Tree α} (h : ¬ t.content.isStatement) :
    statements [t] = statements t.children := by
  rw [statements_singleton, if_neg h, List.nil_append]

/-- What is looked for among statements is found among all nodes, if only
    statements are looked for. -/
theorem filter_statements {p : Content → Bool} (hp : ∀ content, p content → content.isStatement)
    (ts : List (Tree α)) :
    (statements ts).filter (p ·.content) = (preorderAll ts).filter (p ·.content) := by
  rw [statements, List.filter_filter]
  refine List.filter_congr fun t _ => ?_
  cases ht : p t.content with
  | false => rfl
  | true => rw [hp _ ht, Bool.and_true]

/-! ### Child blocks -/

section Blocks

variable {mark : α} {content : Content} {children : List (Tree α)}

theorem isPart_of_holds {child : Content} (hcontent : content.isPart ∨ content = .msgGroup)
    (hplaceholder : ∀ name key, content ≠ .placeholder name key) (h : content.holds child) :
    child.isPart := by
  rcases hcontent with hcontent | rfl
  · cases content with
    | placeholder name key => exact absurd rfl (hplaceholder name key)
    | msg | msgText | plural | select | case =>
      cases child <;> first | rfl | cases h
    | _ => cases hcontent
  · cases child <;> first | rfl | cases h

mutual

/-- The statements below a part of a message stand in its blocks. -/
theorem statements_partBlocks : (t : Tree α) → Shaped t → t.content.isPart →
    statements [t] = statements t.partBlocks.flatten
  | node mark content children, h, hpart => by
    have hstatement : ¬ (node mark content children).content.isStatement :=
      Content.not_isStatement_of_isPart hpart
    have hall : (∀ name key, content ≠ .placeholder name key) →
        statements children = statements (partBlocksAll children).flatten := by
      intro hplaceholder
      exact statements_partBlocksAll children (fun k hk => h.child hk)
        fun k hk => isPart_of_holds (.inl hpart) hplaceholder (h.root k hk)
    rw [statements_of_not_isStatement hstatement, children_node]
    cases content with
    | placeholder name key => rw [partBlocks, List.flatten_singleton]
    | msgText text =>
      have hnil : children = [] := children_eq_nil_of_shapedAt h.root fun _ => rfl
      rw [hnil]
      rfl
    | msg | plural | select | case => exact hall (by simp)
    | _ => cases hpart

theorem statements_partBlocksAll : (ts : List (Tree α)) → (∀ t ∈ ts, Shaped t) →
    (∀ t ∈ ts, t.content.isPart) → statements ts = statements (partBlocksAll ts).flatten
  | [], _, _ => rfl
  | t :: rest, h, hpart => by
    rw [statements_cons, partBlocksAll, List.flatten_append, statements_append,
      statements_partBlocks t (h t List.mem_cons_self) (hpart t List.mem_cons_self),
      statements_partBlocksAll rest (fun k hk => h k (List.mem_cons_of_mem _ hk))
        fun k hk => hpart k (List.mem_cons_of_mem _ hk)]

end

/-- The statements below the parameters of a call stand in its content
    parameters. -/
theorem statements_params {params : List (Tree α)} (h : ∀ param ∈ params, Shaped param)
    (hparams : ∀ param ∈ params, (∃ key value, param.content = .valueParam key value) ∨
      ∃ key kind, param.content = .contentParam key kind) :
    (params.flatMap fun param => statements [param]) =
      statements (params.filterMap fun param =>
        match param.content with
        | .contentParam _ _ => some param.children
        | _ => none).flatten := by
  induction params with
  | nil => rfl
  | cons param rest ih =>
    have ih := ih (fun p hp => h p (List.mem_cons_of_mem _ hp))
      fun p hp => hparams p (List.mem_cons_of_mem _ hp)
    rw [List.flatMap_cons, ih]
    rcases hparams param List.mem_cons_self with ⟨key, value, hcontent⟩ | ⟨key, kind, hcontent⟩
    · have hnil : param.children = [] := by
        refine children_eq_nil_of_shapedAt (h param List.mem_cons_self).root fun child => ?_
        rw [hcontent]
        rfl
      rw [List.filterMap_cons_none (by rw [hcontent]),
        statements_of_not_isStatement (by simp [hcontent, Content.isStatement]), hnil]
      rfl
    · rw [List.filterMap_cons_some (b := param.children) (by rw [hcontent]), List.flatten_cons,
        statements_append,
        statements_of_not_isStatement (by simp [hcontent, Content.isStatement])]

/-- A call has parameters. -/
theorem param_of_shapedAt {call param : Tree α} {target : CallTarget} {data : CallData}
    (h : ShapedAt call) (hcall : call.content = .call target data) (hparam : param ∈ call.children) :
    (∃ key value, param.content = .valueParam key value) ∨
      ∃ key kind, param.content = .contentParam key kind := by
  have hholds := h param hparam
  rw [hcall] at hholds
  cases hcontent : param.content <;> rw [hcontent] at hholds <;>
    simp [Content.holds] at hholds ⊢

/-- The statements below a statement stand in its child blocks. -/
theorem statements_childBlocks {t : Tree α} (h : Shaped t) (hstatement : t.content.isStatement) :
    statements t.children = statements t.childBlocks.flatten := by
  obtain ⟨mark, content, children⟩ := t
  have hroot := h.root
  cases content with
  | conditional =>
    change statements children = statements (children.map Tree.children).flatten
    rw [← List.flatMap_def, statements_flatMap, statements_eq_flatMap]
    apply List.flatMap_congr
    intro branch hbranch
    apply statements_of_not_isStatement
    have hholds := hroot branch hbranch
    cases hcontent : branch.content <;> rw [hcontent, content_node] at hholds <;>
      simp [Content.holds, Content.isStatement] at hholds ⊢
  | call target data =>
    rw [children_node, statements_eq_flatMap]
    exact statements_params (fun param hparam => h.child hparam)
      fun param hparam => param_of_shapedAt hroot rfl hparam
  | msgGroup =>
    exact statements_partBlocksAll children (fun k hk => h.child hk)
      fun k hk => isPart_of_holds (.inr rfl) (by simp) (hroot k hk)
  | htmlTag => rw [childBlocks]; simp
  | rawText | print | xid =>
    rw [children_eq_nil_of_shapedAt hroot fun _ => rfl]
    rfl
  | _ => cases hstatement

mutual

theorem shaped_of_mem_partBlocks : (t : Tree α) → Shaped t → {block : List (Tree α)} →
    block ∈ t.partBlocks → {s : Tree α} → s ∈ block → Shaped s ∧ s.content.isStatement
  | node mark content children, h, block, hblock, s, hs => by
    cases content with
    | placeholder name key =>
      rw [partBlocks, List.mem_singleton] at hblock
      subst hblock
      exact ⟨h.child hs, Content.isStatement_of_holds rfl (h.root s hs)⟩
    | msg | plural | select | case =>
      exact shaped_of_mem_partBlocksAll children (fun k hk => h.child hk) hblock hs
    | _ => cases hblock

theorem shaped_of_mem_partBlocksAll : (ts : List (Tree α)) → (∀ t ∈ ts, Shaped t) →
    {block : List (Tree α)} → block ∈ partBlocksAll ts → {s : Tree α} → s ∈ block →
      Shaped s ∧ s.content.isStatement
  | t :: rest, h, block, hblock, s, hs => by
    rw [partBlocksAll, List.mem_append] at hblock
    rcases hblock with hblock | hblock
    · exact shaped_of_mem_partBlocks t (h t List.mem_cons_self) hblock hs
    · exact shaped_of_mem_partBlocksAll rest (fun k hk => h k (List.mem_cons_of_mem _ hk)) hblock hs

end

/-- A child block holds statements. -/
theorem shaped_of_mem_childBlocks {t s : Tree α} {block : List (Tree α)} (h : Shaped t)
    (hblock : block ∈ t.childBlocks) (hs : s ∈ block) : Shaped s ∧ s.content.isStatement := by
  obtain ⟨mark, content, children⟩ := t
  have hroot := h.root
  cases content with
  | conditional =>
    obtain ⟨branch, hbranch, rfl⟩ := List.mem_map.1 hblock
    have hholds := hroot branch hbranch
    refine ⟨(h.child hbranch).child hs, ?_⟩
    refine Content.isStatement_of_holds ?_ ((h.child hbranch).root s hs)
    cases hcontent : branch.content <;> rw [hcontent, content_node] at hholds <;>
      simp [Content.holds, Content.holdsStatements] at hholds ⊢
  | call target data =>
    obtain ⟨param, hparam, hmatch⟩ := List.mem_filterMap.1 hblock
    split at hmatch
    · rename_i key kind hcontent
      cases hmatch
      refine ⟨(h.child hparam).child hs, ?_⟩
      refine Content.isStatement_of_holds ?_ ((h.child hparam).root s hs)
      rw [hcontent]
      rfl
    · cases hmatch
  | msgGroup => exact shaped_of_mem_partBlocksAll children (fun k hk => h.child hk) hblock hs
  | htmlTag name isEnd selfEnding =>
    rw [childBlocks, content_node, List.mem_singleton] at hblock
    subst hblock
    exact ⟨h.child hs, Content.isStatement_of_holds rfl (hroot s hs)⟩
  | _ => cases hblock

end Blocks

/-! ### The walk -/

theorem walk_eq (t : Tree α) : t.walk = t :: walkBlock t.childBlocks.flatten := by
  rw [walk, walkBlock, List.flatMap_subtype (g := walk) (fun _ _ => rfl), List.unattach_attach]

mutual

theorem mem_preorder_of_mem_partBlocks {block : List (Tree α)} {s : Tree α} :
    (t : Tree α) → block ∈ t.partBlocks → s ∈ block → s ∈ t.preorder
  | node mark content children, hblock, hs => by
    cases content with
    | placeholder name key =>
      rw [partBlocks, List.mem_singleton] at hblock
      subst hblock
      exact mem_preorder_of_mem_children hs
    | msg | plural | select | case =>
      exact mem_preorder_iff.2 (.inr (mem_preorderAll_of_mem_partBlocksAll children hblock hs))
    | _ => cases hblock

theorem mem_preorderAll_of_mem_partBlocksAll {block : List (Tree α)} {s : Tree α} :
    (ts : List (Tree α)) → block ∈ partBlocksAll ts → s ∈ block → s ∈ preorderAll ts
  | t :: rest, hblock, hs => by
    rw [partBlocksAll, List.mem_append] at hblock
    rw [preorderAll, List.mem_append]
    rcases hblock with hblock | hblock
    · exact .inl (mem_preorder_of_mem_partBlocks t hblock hs)
    · exact .inr (mem_preorderAll_of_mem_partBlocksAll rest hblock hs)

end

theorem mem_preorder_of_mem_childBlocks {t s : Tree α} {block : List (Tree α)}
    (hblock : block ∈ t.childBlocks) (hs : s ∈ block) : s ∈ t.preorder := by
  obtain ⟨mark, content, children⟩ := t
  cases content with
  | conditional =>
    obtain ⟨branch, hbranch, rfl⟩ := List.mem_map.1 hblock
    exact mem_preorder_trans (mem_preorder_of_mem_children hs) _
      (mem_preorder_of_mem_children hbranch)
  | call target data =>
    obtain ⟨param, hparam, hmatch⟩ := List.mem_filterMap.1 hblock
    split at hmatch
    · cases hmatch
      exact mem_preorder_trans (mem_preorder_of_mem_children hs) _
        (mem_preorder_of_mem_children hparam)
    · cases hmatch
  | msgGroup =>
    exact mem_preorder_iff.2 (.inr (mem_preorderAll_of_mem_partBlocksAll children hblock hs))
  | htmlTag name isEnd selfEnding =>
    rw [childBlocks, content_node, List.mem_singleton] at hblock
    subst hblock
    exact mem_preorder_of_mem_children hs
  | _ => cases hblock

/-- The walk comes by nodes of the tree only, whatever its shape. -/
theorem mem_preorder_of_mem_walk {s : Tree α} (t : Tree α) (hs : s ∈ t.walk) : s ∈ t.preorder := by
  rw [walk_eq, List.mem_cons] at hs
  rcases hs with rfl | hs
  · exact mem_preorder_self s
  · obtain ⟨k, hk, hs⟩ := List.mem_flatMap.1 hs
    obtain ⟨block, hblock, hk⟩ := List.mem_flatten.1 hk
    have hlt : k.size < t.size := size_lt_of_mem_childBlocks hblock hk
    exact mem_preorder_trans (mem_preorder_of_mem_walk k hs) t
      (mem_preorder_of_mem_childBlocks hblock hk)
termination_by t.size

theorem mem_preorderAll_of_mem_calls {call : Tree α} {ts : List (Tree α)} (h : call ∈ calls ts) :
    call ∈ preorderAll ts ∧ call.content.isCall := by
  obtain ⟨hwalk, hcall⟩ := List.mem_filter.1 h
  obtain ⟨t, ht, hwalk⟩ := List.mem_flatMap.1 hwalk
  exact ⟨mem_preorderAll.2 ⟨t, ht, mem_preorder_of_mem_walk t hwalk⟩, hcall⟩

/-- The walk through a statement of the shape of a body comes by every statement
    at it and below it. -/
theorem walk_eq_statements (t : Tree α) (h : Shaped t) (hstatement : t.content.isStatement) :
    t.walk = statements [t] := by
  rw [walk_eq, statements_singleton, if_pos hstatement, statements_childBlocks h hstatement,
    statements_eq_flatMap, walkBlock, List.singleton_append]
  congr 1
  apply List.flatMap_congr
  intro s hs
  obtain ⟨block, hblock, hs⟩ := List.mem_flatten.1 hs
  have hlt : s.size < t.size := size_lt_of_mem_childBlocks hblock hs
  obtain ⟨hshaped, hstatement⟩ := shaped_of_mem_childBlocks h hblock hs
  exact walk_eq_statements s hshaped hstatement
termination_by t.size

/-- The walk through statements of the shape of a body comes by every statement
    among them and below them. -/
theorem walkBlock_eq_statements {ts : List (Tree α)} (h : ∀ t ∈ ts, Shaped t)
    (hstatement : ∀ t ∈ ts, t.content.isStatement) : walkBlock ts = statements ts := by
  rw [walkBlock, statements_eq_flatMap]
  exact List.flatMap_congr fun t ht => walk_eq_statements t (h t ht) (hstatement t ht)

theorem msgGroups_eq_groups {ts : List (Tree α)} (h : ∀ t ∈ ts, Shaped t)
    (hstatement : ∀ t ∈ ts, t.content.isStatement) : msgGroups ts = groups ts := by
  rw [msgGroups, walkBlock_eq_statements h hstatement,
    filter_statements fun _ => Content.isStatement_of_isMsgGroup, groups]

/-- The walk comes by every call there is. -/
theorem calls_eq {ts : List (Tree α)} (h : ∀ t ∈ ts, Shaped t)
    (hstatement : ∀ t ∈ ts, t.content.isStatement) :
    calls ts = (preorderAll ts).filter (·.content.isCall) := by
  rw [calls, walkBlock_eq_statements h hstatement,
    filter_statements fun _ => Content.isStatement_of_isCall]

end Tree

end Stencil
