/-
  Stencil/Proofs/Check/FormalTypes.lean
  =====================================
  **Every formal type comes once.**

  Two callees that declare an indirect parameter with one type make one formal
  type of it: the search keeps the types of a parameter in ascending order.  So
  an argument meets no formal type twice, and how often an argument is found not
  to fit does not depend on the number of declarations or on their order.
-/
import Stencil.Proofs.Check.CallTypes
import Stencil.Proofs.Ty.Order

namespace Stencil

namespace ParamSearch

variable {P : List IndirectParam → Prop}

/-! ### What the search keeps -/

/-- Adding a declaration of a callee keeps the property. -/
def KeptByInsert (P : List IndirectParam → Prop) : Prop :=
  ∀ callee p params, P params → P (IndirectParam.insert callee p params)

theorem record_keeps (hP : KeptByInsert P) (own : List String) (callee : PlacedTemplate)
    (keys : List String) (s : ParamSearch) (hs : P s.found.params) :
    P (s.record own callee keys).found.params :=
  List.foldlRecOn (motive := P) _ _ hs fun params h p _ => hP callee.info.name p params h

mutual

/-- What adding a declaration keeps, a visit keeps. -/
theorem visit_keeps (hP : KeptByInsert P) (index : TemplateIndex) (own : List String)
    (free : List NodeId) (t : PlacedTemplate) (keys : List String) (s : ParamSearch)
    (hs : P s.found.params) : P (visit index own free t keys s).found.params := by
  rw [visit]
  split
  · split
    · exact hs
    · exact visitAll_keeps hP index own _ _ (s.enter index t keys) hs
  · exact hs
termination_by (free.length, 0)
decreasing_by exact Prod.Lex.left _ _ (length_without_lt (by assumption))

theorem visitAll_keeps (hP : KeptByInsert P) (index : TemplateIndex) (own : List String)
    (free : List NodeId) (items : List (PlacedTemplate × List String)) (s : ParamSearch)
    (hs : P s.found.params) : P (visitAll index own free items s).found.params := by
  match items with
  | [] =>
    rw [visitAll]
    exact hs
  | (callee, keys) :: rest =>
    rw [visitAll]
    exact visitAll_keeps hP index own free rest _ (visit_keeps hP index own free callee keys _
      (record_keeps hP own callee keys s hs))
termination_by (free.length, items.length + 1)
decreasing_by
  · exact Prod.Lex.right _ (Nat.succ_pos _)
  · exact Prod.Lex.right _ (Nat.lt_succ_self _)

end

end ParamSearch

/-! ### Types in ascending order -/

theorem IndirectParam.keptByInsert_ascending :
    ParamSearch.KeptByInsert fun params => ∀ e ∈ params, Ty.Ascending e.types := by
  intro callee p params h e he
  rcases eq_of_mem_insert he with he | rfl | ⟨old, hold, -, rfl⟩
  · exact h e he
  · exact List.pairwise_singleton _ _
  · exact (h old hold).insertSorted p.ty

namespace TemplateIndex

variable (index : TemplateIndex) (t : PlacedTemplate)

theorem ascending_types : ∀ e ∈ (index.indirectParams t).params, Ty.Ascending e.types :=
  ParamSearch.visit_keeps IndirectParam.keptByInsert_ascending index _ _ t [] {}
    fun _ he => (nomatch he)

theorem nodup_types : ∀ f ∈ index.formals t, f.types.Nodup := by
  intro f hf
  rcases List.mem_append.1 hf with hf | hf
  · obtain ⟨p, -, rfl⟩ := List.mem_map.1 hf
    exact List.nodup_singleton _
  · obtain ⟨e, he, rfl⟩ := List.mem_map.1 hf
    exact (index.ascending_types t e he).nodup

/-- An argument meets every formal type of a callee once. -/
theorem nodup_meet (a : Argument) : (meet (index.formals t) a).Nodup := by
  unfold meet
  split
  · rename_i f hfind
    refine (index.nodup_types t f (List.mem_of_find?_eq_some hfind)).map fun formal formal' h => ?_
    exact (Passing.mk.inj h).2.1
  · exact List.nodup_nil

end TemplateIndex

end Stencil
