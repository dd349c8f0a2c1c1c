/-
  Stencil/Proofs/Ty/Order.lean
  ============================
  **Types are ordered.**

  The order of types is a strict total one: comparing the other way round gives
  the other answer (`eq_swap`), and what is less than something less is less
  (`lt_trans`).  So a list of types that is kept in ascending order has every
  type once (`pairwise_insertSorted`).
-/
import Mathlib.Order.Defs.LinearOrder
import Stencil.Ty.Order

namespace Stencil.Ty

/-! ### Types of different shapes -/

theorem compare_of_rank_ne {s t : Ty} (h : s.rank ≠ t.rank) :
    compare s t = Ord.compare s.rank t.rank := by
  cases s <;> cases t <;> first | exact absurd rfl h | simp [compare]

theorem rank_le_of_lt {s t : Ty} (h : compare s t = .lt) : s.rank ≤ t.rank := by
  by_contra hrank
  rw [compare_of_rank_ne (by omega), Nat.compare_eq_lt] at h
  omega

theorem eq_swap_of_rank_ne {s t : Ty} (h : s.rank ≠ t.rank) : compare s t = (compare t s).swap := by
  rw [compare_of_rank_ne h, compare_of_rank_ne h.symm]
  exact Std.OrientedOrd.eq_swap

/-! ### The other way round -/

theorem then_eq_swap {a b a' b' : Ordering} (ha : a = a'.swap) (hb : b = b'.swap) :
    a.then b = (a'.then b').swap := by
  rw [Ordering.swap_then, ha, hb]

mutual

theorem eq_swap : (s t : Ty) → compare s t = (compare t s).swap
  | .any, t | .unknown, t | .null, t | .bool, t | .int, t | .float, t | .string, t => by
    cases t <;> rfl
  | .sanitized k, t => by
    cases t with
    | sanitized l =>
      rw [compare, compare]
      exact Std.OrientedOrd.eq_swap
    | _ => exact eq_swap_of_rank_ne (by simp [rank])
  | .list s, t => by
    cases t with
    | list t =>
      rw [compare, compare]
      exact eq_swap s t
    | _ => exact eq_swap_of_rank_ne (by simp [rank])
  | .map k v, t => by
    cases t with
    | map l w =>
      rw [compare, compare]
      exact then_eq_swap (eq_swap k l) (eq_swap v w)
    | _ => exact eq_swap_of_rank_ne (by simp [rank])
  | .record f, t => by
    cases t with
    | record g =>
      rw [compare, compare]
      exact eq_swapFields f g
    | _ => exact eq_swap_of_rank_ne (by simp [rank])
  | .proto m f, t => by
    cases t with
    | proto n g =>
      rw [compare, compare]
      exact then_eq_swap Std.OrientedOrd.eq_swap (eq_swapFields f g)
    | _ => exact eq_swap_of_rank_ne (by simp [rank])
  | .union m, t => by
    cases t with
    | union n =>
      rw [compare, compare]
      exact eq_swapAll m n
    | _ => exact eq_swap_of_rank_ne (by simp [rank])

theorem eq_swapFields : (f g : List (String × Ty)) → compareFields f g = (compareFields g f).swap
  | [], [] | [], _ :: _ | _ :: _, [] => by simp [compareFields]
  | (m, s) :: f, (n, t) :: g => by
    rw [compareFields, compareFields]
    exact then_eq_swap (then_eq_swap Std.OrientedOrd.eq_swap (eq_swap s t)) (eq_swapFields f g)

theorem eq_swapAll : (m n : List Ty) → compareAll m n = (compareAll n m).swap
  | [], [] | [], _ :: _ | _ :: _, [] => by simp [compareAll]
  | s :: m, t :: n => by
    rw [compareAll, compareAll]
    exact then_eq_swap (eq_swap s t) (eq_swapAll m n)

end

/-! ### Transitivity -/

/-- Orderings of three things: the last one is what the other two imply. -/
structure Chained (ab bc ac : Ordering) : Prop where
  lt : ab = .lt → bc = .lt → ac = .lt
  left : ab = .eq → ac = bc
  right : bc = .eq → ac = ab

theorem Chained.then {ab bc ac ab' bc' ac' : Ordering} (h : Chained ab bc ac)
    (h' : Chained ab' bc' ac') : Chained (ab.then ab') (bc.then bc') (ac.then ac') := by
  obtain ⟨hlt, hleft, hright⟩ := h
  obtain ⟨hlt', hleft', hright'⟩ := h'
  constructor <;> cases ab <;> cases bc <;> simp_all

theorem chained_compare {α : Type} [Ord α] [Std.TransOrd α] [Std.LawfulEqOrd α] (a b c : α) :
    Chained (Ord.compare a b) (Ord.compare b c) (Ord.compare a c) where
  lt := Std.TransCmp.lt_trans
  left h := by rw [Std.LawfulEqOrd.eq_of_compare h]
  right h := by rw [Std.LawfulEqOrd.eq_of_compare h]

/-- Where the shapes are not all the same, they decide. -/
theorem chained_of_rank {s t u : Ty} (h : s.rank ≠ t.rank ∨ t.rank ≠ u.rank) :
    Chained (compare s t) (compare t u) (compare s u) where
  lt hst htu := by
    have hst := rank_le_of_lt hst
    have htu := rank_le_of_lt htu
    rw [compare_of_rank_ne (by omega), Nat.compare_eq_lt]
    omega
  left h := by rw [eq_of_compare s t h]
  right h := by rw [eq_of_compare t u h]

theorem compare_of_rank_lt {s : Ty} (h : s.rank < 7) (t : Ty) :
    compare s t = Ord.compare s.rank t.rank := by
  cases s with
  | sanitized | list | map | record | proto | union => exact absurd h (by simp [rank])
  | _ => cases t <;> simp [compare]

/-- Shapes without parts have their rank only. -/
theorem chained_of_rank_lt {s : Ty} (h : s.rank < 7) (t u : Ty) :
    Chained (compare s t) (compare t u) (compare s u) := by
  by_cases hrank : s.rank ≠ t.rank ∨ t.rank ≠ u.rank
  · exact chained_of_rank hrank
  · rw [compare_of_rank_lt h, compare_of_rank_lt h, compare_of_rank_lt (s := t) (by omega)]
    exact chained_compare _ _ _

mutual

theorem chained : (s t u : Ty) → Chained (compare s t) (compare t u) (compare s u)
  | .any, t, u | .unknown, t, u | .null, t, u | .bool, t, u | .int, t, u | .float, t, u
  | .string, t, u => chained_of_rank_lt (by simp [rank]) t u
  | .sanitized k, t, u => by
    cases t with
    | sanitized l =>
      cases u with
      | sanitized m =>
        rw [compare, compare, compare]
        exact chained_compare _ _ _
      | _ => exact chained_of_rank (.inr (by simp [rank]))
    | _ => exact chained_of_rank (.inl (by simp [rank]))
  | .list s, t, u => by
    cases t with
    | list t =>
      cases u with
      | list u =>
        rw [compare, compare, compare]
        exact chained s t u
      | _ => exact chained_of_rank (.inr (by simp [rank]))
    | _ => exact chained_of_rank (.inl (by simp [rank]))
  | .map k v, t, u => by
    cases t with
    | map l w =>
      cases u with
      | map m x =>
        rw [compare, compare, compare]
        exact (chained k l m).then (chained v w x)
      | _ => exact chained_of_rank (.inr (by simp [rank]))
    | _ => exact chained_of_rank (.inl (by simp [rank]))
  | .record f, t, u => by
    cases t with
    | record g =>
      cases u with
      | record h =>
        rw [compare, compare, compare]
        exact chainedFields f g h
      | _ => exact chained_of_rank (.inr (by simp [rank]))
    | _ => exact chained_of_rank (.inl (by simp [rank]))
  | .proto m f, t, u => by
    cases t with
    | proto n g =>
      cases u with
      | proto o h =>
        rw [compare, compare, compare]
        exact (chained_compare m n o).then (chainedFields f g h)
      | _ => exact chained_of_rank (.inr (by simp [rank]))
    | _ => exact chained_of_rank (.inl (by simp [rank]))
  | .union m, t, u => by
    cases t with
    | union n =>
      cases u with
      | union o =>
        rw [compare, compare, compare]
        exact chainedAll m n o
      | _ => exact chained_of_rank (.inr (by simp [rank]))
    | _ => exact chained_of_rank (.inl (by simp [rank]))

theorem chainedFields : (f g h : List (String × Ty)) →
    Chained (compareFields f g) (compareFields g h) (compareFields f h)
  | (m, s) :: f, (n, t) :: g, (o, u) :: h => by
    rw [compareFields, compareFields, compareFields]
    exact ((chained_compare m n o).then (chained s t u)).then (chainedFields f g h)
  | [], g, h => by cases g <;> cases h <;> constructor <;> simp [compareFields]
  | _ :: _, [], h => by cases h <;> constructor <;> simp [compareFields]
  | _ :: _, _ :: _, [] => by constructor <;> simp [compareFields]

theorem chainedAll : (m n o : List Ty) →
    Chained (compareAll m n) (compareAll n o) (compareAll m o)
  | s :: m, t :: n, u :: o => by
    rw [compareAll, compareAll, compareAll]
    exact (chained s t u).then (chainedAll m n o)
  | [], n, o => by cases n <;> cases o <;> constructor <;> simp [compareAll]
  | _ :: _, [], o => by cases o <;> constructor <;> simp [compareAll]
  | _ :: _, _ :: _, [] => by constructor <;> simp [compareAll]

end

theorem lt_trans {s t u : Ty} (hst : compare s t = .lt) (htu : compare t u = .lt) :
    compare s u = .lt := (chained s t u).lt hst htu

/-! ### Ascending lists -/

/-- The types stand in ascending order, each once. -/
def Ascending (types : List Ty) : Prop := types.Pairwise (compare · · = .lt)

theorem Ascending.nodup {types : List Ty} (h : Ascending types) : types.Nodup := by
  refine h.imp fun {s t} hlt heq => ?_
  rw [heq, compare_self] at hlt
  cases hlt

theorem Ascending.insertSorted {types : List Ty} (h : Ascending types) (t : Ty) :
    Ascending (insertSorted t types) := by
  induction types with
  | nil => exact List.pairwise_singleton _ _
  | cons s rest ih =>
    obtain ⟨hs, hrest⟩ := List.pairwise_cons.1 h
    unfold Ty.insertSorted
    split
    · rename_i hlt
      refine List.pairwise_cons.2 ⟨List.forall_mem_cons.2 ⟨hlt, fun u hu => ?_⟩, h⟩
      exact lt_trans hlt (hs u hu)
    · exact h
    · rename_i hgt
      refine List.pairwise_cons.2 ⟨fun u hu => ?_, ih hrest⟩
      rcases mem_insertSorted.1 hu with rfl | hu
      · rw [eq_swap, hgt]
        rfl
      · exact hs u hu

end Stencil.Ty
