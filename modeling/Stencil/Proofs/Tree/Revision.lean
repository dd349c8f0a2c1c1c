/-
  Stencil/Proofs/Tree/Revision.lean
  =================================
  **A revision of expressions comes by every expression.**

  In a tree of the shape of a body every expression is held by one statement: it
  stands in the content of the statement or of a part of it, and not in a child
  block.  So changing the expressions that each statement holds itself, in a
  walk through child blocks, changes the expressions of all nodes and nothing
  else (`reviseM_mapOwnExprs`).
-/
import Stencil.Proofs.Outcome
import Stencil.Proofs.Tree.Bare
import Stencil.Tree.Revision

namespace Stencil

/-! ### Contents -/

namespace Content

variable (f : Expr → Expr)

theorem exists_mapExpr_call (target : CallTarget) (data : CallData) :
    ∃ data', (call target data).mapExpr f = call target data' := by
  cases data <;> exact ⟨_, rfl⟩

theorem holds_mapExpr (content child : Content) :
    (content.mapExpr f).holds (child.mapExpr f) = content.holds child := by
  have hleft : ∀ child, (content.mapExpr f).holds child = content.holds child := by
    intro child
    cases content with
    | call target data =>
      obtain ⟨data', h⟩ := exists_mapExpr_call f target data
      rw [h]
      cases child <;> rfl
    | print | branch | valueParam | plural | select => cases child <;> rfl
    | _ => rfl
  rw [hleft]
  cases child with
  | call target data =>
    obtain ⟨data', h⟩ := exists_mapExpr_call f target data
    rw [h]
    cases content <;> rfl
  | print | branch | valueParam | plural | select => cases content <;> rfl
  | _ => rfl

@[simp] theorem isStatement_mapExpr (content : Content) :
    (content.mapExpr f).isStatement = content.isStatement := by
  cases content with
  | call target data =>
    obtain ⟨data', h⟩ := exists_mapExpr_call f target data
    rw [h]
    rfl
  | _ => rfl

end Content

namespace Tree

variable {α : Type}

/-- The tree with `f` applied to the expressions of all nodes. -/
def mapExprs (f : Expr → Expr) (t : Tree α) : Tree α := t.mapContent (Content.mapExpr f)

@[simp] theorem mapExprs_node (f : Expr → Expr) (mark : α) (content : Content)
    (children : List (Tree α)) : (node mark content children).mapExprs f =
      node mark (content.mapExpr f) (children.map (mapExprs f)) := by
  rw [mapExprs, mapContent, mapContentAll_eq_map]
  rfl

@[simp] theorem mark_mapExprs (f : Expr → Expr) (t : Tree α) : (t.mapExprs f).mark = t.mark := by
  cases t; rfl

@[simp] theorem content_mapExprs (f : Expr → Expr) (t : Tree α) :
    (t.mapExprs f).content = t.content.mapExpr f := content_mapContent _ t

@[simp] theorem children_mapExprs (f : Expr → Expr) (t : Tree α) :
    (t.mapExprs f).children = t.children.map (mapExprs f) := children_mapContent _ t

theorem preorderAll_map_mapExprs (f : Expr → Expr) (ts : List (Tree α)) :
    preorderAll (ts.map (mapExprs f)) = (preorderAll ts).map (mapExprs f) := by
  have h := preorderAll_mapContentAll (Content.mapExpr f) ts
  rwa [mapContentAll_eq_map] at h

/-- Child blocks are lower than the statement that they belong to. -/
theorem height_lt_of_mem_childBlocks {t s : Tree α} {block : List (Tree α)}
    (hblock : block ∈ t.childBlocks) (hs : s ∈ block) : s.height < t.height := by
  have hbelow : s ∈ preorderAll t.children := by
    rcases mem_preorder_iff.1 (mem_preorder_of_mem_childBlocks hblock hs) with rfl | hbelow
    · exact absurd (size_lt_of_mem_childBlocks hblock hs) (Nat.lt_irrefl _)
    · exact hbelow
  rw [height_eq t]
  exact Nat.lt_succ_of_le (height_le_of_mem_preorderAll _ hbelow)

variable {m : Type → Type} [Monad m] [LawfulMonad m] {F : List (Tree α) → m (List (Tree α))}
  {f : Expr → Expr}

/-! ### Parts of messages -/

mutual

/-- The expressions of a part of a message are those of its plurals and selects and
    those in its blocks. -/
theorem mapPartBlocksM_mapPartExprs : (t : Tree α) → Shaped t → t.content.isPart →
    (∀ block ∈ t.partBlocks, F block = pure (block.map (mapExprs f))) →
      mapPartBlocksM F (mapPartExprs f t) = pure (t.mapExprs f)
  | node mark content children, h, hpart, hF => by
    rw [mapExprs_node]
    have hall : (∀ name key, content ≠ .placeholder name key) → (∀ block ∈ partBlocksAll children,
        F block = pure (block.map (mapExprs f))) →
        mapPartBlocksAllM F (mapPartExprsAll f children) =
          pure (children.map (mapExprs f)) := by
      intro hplaceholder
      exact mapPartBlocksAllM_mapPartExprsAll children (fun k hk => h.child hk)
        fun k hk => isPart_of_holds (.inl hpart) hplaceholder (h.root k hk)
    cases content with
    | placeholder name key =>
      change node mark _ <$> F children = _
      rw [hF children List.mem_cons_self]
      exact map_pure _ _
    | msgText text =>
      have hnil : children = [] := children_eq_nil_of_shapedAt h.root fun _ => rfl
      rw [hnil]
      rfl
    | msg | case | plural | select =>
      change node mark _ <$> mapPartBlocksAllM F (mapPartExprsAll f children) = _
      rw [hall (fun _ _ heq => (nomatch heq)) hF]
      exact map_pure _ _
    | _ => cases hpart

theorem mapPartBlocksAllM_mapPartExprsAll : (ts : List (Tree α)) → (∀ t ∈ ts, Shaped t) →
    (∀ t ∈ ts, t.content.isPart) →
    (∀ block ∈ partBlocksAll ts, F block = pure (block.map (mapExprs f))) →
      mapPartBlocksAllM F (mapPartExprsAll f ts) = pure (ts.map (mapExprs f))
  | [], _, _, _ => rfl
  | t :: rest, h, hpart, hF => by
    rw [mapPartExprsAll, mapPartBlocksAllM,
      mapPartBlocksM_mapPartExprs t (h t List.mem_cons_self) (hpart t List.mem_cons_self)
        fun block hblock => hF block (List.mem_append_left _ hblock),
      mapPartBlocksAllM_mapPartExprsAll rest (fun k hk => h k (List.mem_cons_of_mem _ hk))
        (fun k hk => hpart k (List.mem_cons_of_mem _ hk))
        fun block hblock => hF block (List.mem_append_right _ hblock),
      pure_bind, pure_bind, List.map_cons]

end

/-! ### Statements -/

/-- The expressions of a branch are its condition and those in its block. -/
theorem map_withChildren_branch {b : Tree α}
    (hF : F b.children = pure (b.children.map (mapExprs f))) :
    (b.withContent (b.content.mapExpr f)).withChildren <$>
      F (b.withContent (b.content.mapExpr f)).children = pure (b.mapExprs f) := by
  obtain ⟨mark, content, children⟩ := b
  rw [mapExprs_node]
  exact (congrArg (node mark _ <$> ·) hF).trans (map_pure _ _)

/-- The expressions of a parameter are its value and those in its block. -/
theorem mapParamBlockM_withContent {p : Tree α} (h : Shaped p)
    (hparam : (∃ key value, p.content = .valueParam key value) ∨
      ∃ key kind, p.content = .contentParam key kind)
    (hF : ∀ key kind, p.content = .contentParam key kind →
      F p.children = pure (p.children.map (mapExprs f))) :
    mapParamBlockM F (p.withContent (p.content.mapExpr f)) =
      pure (p.mapExprs f) := by
  obtain ⟨mark, content, children⟩ := p
  rw [mapExprs_node]
  rcases hparam with ⟨key, value, rfl⟩ | ⟨key, kind, rfl⟩
  · have hnil : children = [] := children_eq_nil_of_shapedAt h.root fun _ => rfl
    rw [hnil]
    rfl
  · exact (congrArg (node mark _ <$> ·) (hF key kind rfl)).trans (map_pure _ _)

/-- The expressions of a statement are those that it holds itself and those in its
    child blocks. -/
theorem mapChildBlocksM_mapOwnExprs {t : Tree α} (h : Shaped t) (hstatement : t.content.isStatement)
    (hF : ∀ block ∈ t.childBlocks, F block = pure (block.map (mapExprs f))) :
    mapChildBlocksM F (t.mapOwnExprs f) = pure (t.mapExprs f) := by
  obtain ⟨mark, content, children⟩ := t
  have hroot := h.root
  rw [mapExprs_node]
  cases content with
  | conditional =>
    have hbranches : (children.map fun b => b.withContent (b.content.mapExpr f)).mapM
        (fun b => b.withChildren <$> F b.children) =
          pure (children.map (mapExprs f)) := by
      rw [List.mapM_map]
      exact mapM_eq_pure fun b hb => map_withChildren_branch (hF b.children (List.mem_map_of_mem hb))
    exact (congrArg (node mark _ <$> ·) hbranches).trans (map_pure _ _)
  | call target data =>
    have hparams : (children.map fun p => p.withContent (p.content.mapExpr f)).mapM
        (mapParamBlockM F) = pure (children.map (mapExprs f)) := by
      rw [List.mapM_map]
      refine mapM_eq_pure fun p hp => mapParamBlockM_withContent (h.child hp)
        (param_of_shapedAt hroot rfl hp) fun key kind hkind => hF p.children ?_
      exact List.mem_filterMap.2 ⟨p, hp, by rw [hkind]⟩
    cases data with
    | nothing | all | value =>
      exact (congrArg (node mark _ <$> ·) hparams).trans (map_pure _ _)
  | msgGroup =>
    have hparts : mapPartBlocksAllM F (mapPartExprsAll f children) =
        pure (children.map (mapExprs f)) :=
      mapPartBlocksAllM_mapPartExprsAll children (fun k hk => h.child hk)
        (fun k hk => isPart_of_holds (.inr rfl) (by simp) (hroot k hk)) hF
    exact (congrArg (node mark _ <$> ·) hparts).trans (map_pure _ _)
  | htmlTag name isEnd selfEnding =>
    exact (congrArg (node mark _ <$> ·) (hF children (List.mem_singleton_self _))).trans
      (map_pure _ _)
  | rawText | print | xid =>
    have hnil : children = [] := children_eq_nil_of_shapedAt hroot fun _ => rfl
    rw [hnil]
    rfl
  | _ => cases hstatement

/-- **A revision of expressions** changes all expressions of a block of the shape of
    a body, and nothing else. -/
theorem reviseM_mapOwnExprs {height : Nat} {block : List (Tree α)}
    (h : ShapedBody block) (hheight : heightAll block ≤ height) :
    reviseM (fun t => pure (t.mapOwnExprs f)) height block =
      (pure (block.map (mapExprs f)) : m (List (Tree α))) := by
  induction height generalizing block with
  | zero =>
    cases block with
    | nil => rfl
    | cons t rest =>
      rw [heightAll, height_eq] at hheight
      omega
  | succ height ih =>
    refine mapM_eq_pure fun t ht => ?_
    obtain ⟨hshaped, hstatement⟩ := h t ht
    rw [pure_bind]
    refine mapChildBlocksM_mapOwnExprs hshaped hstatement fun child hchild => ih ?_ ?_
    · exact fun s hs => shaped_of_mem_childBlocks hshaped hchild hs
    · refine heightAll_le_iff.2 fun s hs => ?_
      have hlt := height_lt_of_mem_childBlocks hchild hs
      have hle := heightAll_le_iff.1 hheight t ht
      omega

end Tree

end Stencil
