/-
  Stencil/Proofs/Tree/Visits.lean
  ===============================
  **A revision visits the statements that a walk visits, in the same order.**

  A walk lists the child blocks of a statement, a revision goes into them to change
  what stands there; the two go through branches, parameters, messages, cases and
  tags on their own.  Whatever a visit does, a revision does it for the statements
  of the walk one after the other, as long as a visit leaves the child blocks of its
  statement to the visits to come (`discard_reviseM`).
-/
import Stencil.Proofs.Tree.Revision

namespace Stencil.Tree

variable {α : Type} {m : Type → Type} [Monad m] [LawfulMonad m]

/-! ### Effects without results -/

section Discard

variable {β γ : Type}

theorem discard_eq (x : m β) : discard x = x >>= fun _ => pure ⟨⟩ := by
  rw [discard, LawfulFunctor.map_const, Function.comp_apply, map_eq_pure_bind]

theorem discard_pure (b : β) : (discard (pure b) : m PUnit) = pure ⟨⟩ := by
  rw [discard_eq, pure_bind]

theorem discard_bind (x : m β) (f : β → m γ) :
    discard (x >>= f) = x >>= fun b => discard (f b) := by
  simp only [discard_eq, bind_assoc]

theorem discard_map (f : β → γ) (x : m β) : discard (f <$> x) = discard x := by
  simp only [discard_eq, bind_map_left]

/-- A computation whose result is not looked at. -/
theorem bind_discard (x : m β) (y : m γ) :
    (x >>= fun _ => y) = discard x >>= fun _ => y := by
  rw [discard_eq, bind_assoc]
  simp only [pure_bind]

theorem discard_cons (x : m β) (xs : m (List β)) :
    discard (do let b ← x; let bs ← xs; pure (b :: bs)) = discard x >>= fun _ => discard xs := by
  simp only [discard_bind, discard_pure]
  rw [← discard_eq, bind_discard]

/-- A list is mapped with the effects of its elements one after the other. -/
theorem discard_mapM (f : β → m γ) (bs : List β) :
    discard (bs.mapM f) = forM bs fun b => discard (f b) := by
  induction bs with
  | nil => exact discard_pure _
  | cons b rest ih => rw [List.mapM_cons, discard_cons, ih, List.forM_cons]

theorem forM_flatMap (g : β → List γ) (f : γ → m PUnit) (bs : List β) :
    forM (bs.flatMap g) f = forM bs fun b => forM (g b) f := by
  induction bs with
  | nil => rfl
  | cons b rest ih => rw [List.flatMap_cons, List.forM_append, ih, List.forM_cons]

omit [LawfulMonad m] in
theorem forM_congr {f g : β → m PUnit} {bs : List β} (h : ∀ b ∈ bs, f b = g b) :
    forM bs f = forM bs g := by
  induction bs with
  | nil => rfl
  | cons b rest ih =>
    obtain ⟨hb, hrest⟩ := List.forall_mem_cons.1 h
    rw [List.forM_cons, List.forM_cons, hb, ih hrest]

theorem forM_singleton (b : β) (f : β → m PUnit) : forM [b] f = f b := by
  rw [List.forM_cons, List.forM_nil, bind_pure_unit]

end Discard

/-! ### Child blocks -/

variable (f : List (Tree α) → m (List (Tree α)))

mutual

/-- The blocks in a part of a message are gone into in the order in which they are
    listed. -/
theorem discard_mapPartBlocksM : (t : Tree α) →
    discard (mapPartBlocksM f t) = forM t.partBlocks fun block => discard (f block)
  | node mark content children => by
    have hchildren := discard_mapPartBlocksAllM children
    cases content with
    | placeholder name key =>
      exact (discard_map _ _).trans (forM_singleton children fun block => discard (f block)).symm
    | msg | plural | select | case => exact (discard_map _ _).trans hchildren
    | _ => exact discard_pure _

theorem discard_mapPartBlocksAllM : (ts : List (Tree α)) →
    discard (mapPartBlocksAllM f ts) = forM (partBlocksAll ts) fun block => discard (f block)
  | [] => discard_pure _
  | t :: rest => by
    rw [mapPartBlocksAllM, discard_cons, discard_mapPartBlocksM t, discard_mapPartBlocksAllM rest,
      partBlocksAll, List.forM_append]

end

theorem discard_mapM_mapParamBlockM (params : List (Tree α)) :
    discard (params.mapM (mapParamBlockM f)) =
      forM (params.filterMap fun param =>
        match param.content with
        | .contentParam _ _ => some param.children
        | _ => none) fun block => discard (f block) := by
  rw [discard_mapM]
  induction params with
  | nil => rfl
  | cons param rest ih =>
    obtain ⟨mark, content, children⟩ := param
    rw [List.forM_cons, ih]
    cases content with
    | contentParam key kind =>
      rw [List.filterMap_cons_some (b := children) (by rfl), List.forM_cons]
      exact congrArg (· >>= _) (discard_map _ _)
    | _ =>
      rw [List.filterMap_cons_none (by rfl), mapParamBlockM, content_node]
      dsimp only
      rw [discard_pure, pure_bind]

/-- The child blocks of a statement are gone into in the order in which they are
    listed. -/
theorem discard_mapChildBlocksM (t : Tree α) :
    discard (mapChildBlocksM f t) = forM t.childBlocks fun block => discard (f block) := by
  obtain ⟨mark, content, children⟩ := t
  cases content with
  | conditional =>
    refine (discard_map _ _).trans ?_
    rw [discard_mapM, childBlocks, content_node, children_node, List.forM_map]
    exact forM_congr fun branch _ => discard_map _ _
  | call target data => exact (discard_map _ _).trans (discard_mapM_mapParamBlockM f children)
  | msgGroup => exact (discard_map _ _).trans (discard_mapPartBlocksAllM f children)
  | htmlTag name isEnd selfEnding =>
    exact (discard_map _ _).trans (forM_singleton children fun block => discard (f block)).symm
  | _ => exact discard_pure _

/-! ### Expressions and child blocks -/

mutual

theorem partBlocks_mapPartExprs (g : Expr → Expr) : (t : Tree α) →
    (mapPartExprs g t).partBlocks = t.partBlocks
  | node mark content children => by
    have hchildren := partBlocksAll_mapPartExprsAll g children
    cases content with
    | msg | plural | select | case => exact hchildren
    | _ => rfl

theorem partBlocksAll_mapPartExprsAll (g : Expr → Expr) : (ts : List (Tree α)) →
    partBlocksAll (mapPartExprsAll g ts) = partBlocksAll ts
  | [] => rfl
  | t :: rest => by
    rw [mapPartExprsAll, partBlocksAll, partBlocks_mapPartExprs g t,
      partBlocksAll_mapPartExprsAll g rest, partBlocksAll]

end

/-- A change of the expressions that a statement holds itself leaves its child blocks
    alone. -/
theorem childBlocks_mapOwnExprs (g : Expr → Expr) (t : Tree α) :
    (t.mapOwnExprs g).childBlocks = t.childBlocks := by
  obtain ⟨mark, content, children⟩ := t
  cases content with
  | conditional =>
    refine (List.map_map ..).trans (List.map_congr_left fun branch _ => ?_)
    cases branch
    rfl
  | call target data =>
    change childBlocks (node mark ((Content.call target data).mapExpr g)
      (children.map fun param => param.withContent (param.content.mapExpr g))) = _
    obtain ⟨data', hdata⟩ := Content.exists_mapExpr_call g target data
    rw [hdata]
    refine (List.filterMap_map ..).trans (List.filterMap_congr fun param _ => ?_)
    obtain ⟨mark, content, inside⟩ := param
    cases content with
    | call target data => cases data <;> rfl
    | _ => rfl
  | msgGroup => exact partBlocksAll_mapPartExprsAll g children
  | _ => rfl

/-! ### Revisions -/

theorem walkBlock_flatten (blocks : List (List (Tree α))) :
    walkBlock blocks.flatten = blocks.flatMap walkBlock := by
  induction blocks with
  | nil => rfl
  | cons block rest ih =>
    rw [List.flatten_cons, List.flatMap_cons, ← ih, walkBlock, List.flatMap_append, walkBlock,
      walkBlock]

/-- **A revision goes the way of a walk.**  What the visits do is done for the
    statements that the walk comes by, in its order, if no visit changes the child
    blocks of its statement. -/
theorem discard_reviseM (visit : (t : Tree α) → m { s : Tree α // s.childBlocks = t.childBlocks })
    {height : Nat} {block : List (Tree α)} (hheight : heightAll block ≤ height) :
    discard (reviseM (fun t => Subtype.val <$> visit t) height block) =
      forM (walkBlock block) fun t => discard (visit t) := by
  induction height generalizing block with
  | zero =>
    cases block with
    | nil =>
      rw [reviseM]
      exact discard_pure _
    | cons t rest =>
      rw [heightAll, height_eq] at hheight
      omega
  | succ height ih =>
    rw [reviseM, discard_mapM, walkBlock, forM_flatMap]
    refine forM_congr fun t ht => ?_
    have hbelow : ∀ child ∈ t.childBlocks,
        discard (reviseM (fun t => Subtype.val <$> visit t) height child) =
          forM (walkBlock child) fun t => discard (visit t) := by
      intro child hchild
      refine ih (heightAll_le_iff.2 fun s hs => ?_)
      have hlt := height_lt_of_mem_childBlocks hchild hs
      have hle := heightAll_le_iff.1 hheight t ht
      omega
    rw [walk_eq, List.forM_cons, discard_bind, bind_map_left, ← bind_discard]
    refine congrArg (visit t >>= ·) (funext fun s => ?_)
    rw [discard_mapChildBlocksM, s.2, walkBlock_flatten, forM_flatMap]
    exact forM_congr hbelow

/-- The visit that notes a statement down and changes the expressions that it holds
    itself. -/
def noting (g : Expr → Expr) (t : Tree α) :
    StateM (List (Tree α)) { s : Tree α // s.childBlocks = t.childBlocks } := do
  modify (· ++ [t])
  pure ⟨t.mapOwnExprs g, childBlocks_mapOwnExprs g t⟩

theorem run_forM_noting (g : Expr → Expr) (ts seen : List (Tree α)) :
    ((forM ts fun t => discard (noting g t)).run seen).2 = seen ++ ts := by
  induction ts generalizing seen with
  | nil => exact (List.append_nil seen).symm
  | cons t rest ih =>
    rw [List.forM_cons, StateT.run_bind]
    exact (ih (seen ++ [t])).trans (by rw [List.append_assoc, List.singleton_append])

/-- The statements noted down in a revision are those of the walk. -/
theorem noted_reviseM (g : Expr → Expr) (block : List (Tree α)) :
    ((reviseM (fun t => Subtype.val <$> noting g t) (heightAll block) block).run []).2 =
      walkBlock block := by
  have hrun := congrArg (fun x => (x.run []).2)
    (discard_reviseM (noting g) (Nat.le_refl (heightAll block)))
  exact hrun.trans (run_forM_noting g (walkBlock block) [])

end Stencil.Tree
