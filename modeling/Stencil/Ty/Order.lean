/-
  Stencil/Ty/Order.lean
  =====================
  **The order of types**, by which sets of types are listed.

  Types of different shapes are ordered as `Ty` lists the shapes; types of one
  shape by their parts from left to right, and sequences of parts like words
  in a dictionary.  Two types are equal exactly when they compare so
  (`compare_eq_iff`), which decides equality of types.
-/
import Stencil.Ty.Basic

namespace Stencil

/-- The rank tells kinds apart. -/
theorem ContentKind.rank_inj {k l : ContentKind} (h : k.rank = l.rank) : k = l := by
  cases k <;> cases l <;> first | rfl | simp [rank] at h

namespace Ty

/-- The place of a type's shape among the shapes. -/
def rank : Ty → Nat
  | .any => 0
  | .unknown => 1
  | .null => 2
  | .bool => 3
  | .int => 4
  | .float => 5
  | .string => 6
  | .sanitized _ => 7
  | .list _ => 8
  | .map _ _ => 9
  | .record _ => 10
  | .proto _ _ => 11
  | .union _ => 12

mutual

/-- The order of two types. -/
def compare : Ty → Ty → Ordering
  | .sanitized k, .sanitized l => Ord.compare k.rank l.rank
  | .list s, .list t => compare s t
  | .map k v, .map l w => (compare k l).then (compare v w)
  | .record f, .record g => compareFields f g
  | .proto m f, .proto n g => (Ord.compare m n).then (compareFields f g)
  | .union s, .union t => compareAll s t
  | s, t => Ord.compare s.rank t.rank

/-- The order of two sequences of fields. -/
def compareFields : List (String × Ty) → List (String × Ty) → Ordering
  | [], [] => .eq
  | [], _ :: _ => .lt
  | _ :: _, [] => .gt
  | (m, s) :: f, (n, t) :: g =>
    ((Ord.compare m n).then (compare s t)).then (compareFields f g)

/-- The order of two sequences of types. -/
def compareAll : List Ty → List Ty → Ordering
  | [], [] => .eq
  | [], _ :: _ => .lt
  | _ :: _, [] => .gt
  | s :: f, t :: g => (compare s t).then (compareAll f g)

end

/-! ### Equality -/

mutual

theorem compare_self : (t : Ty) → compare t t = .eq
  | .any | .unknown | .null | .bool | .int | .float | .string => by simp [compare]
  | .sanitized k => by simp [compare]
  | .list t => by simp [compare, compare_self t]
  | .map k v => by simp [compare, compare_self k, compare_self v]
  | .record f => by simp [compare, compareFields_self f]
  | .proto n f => by simp [compare, compareFields_self f]
  | .union m => by simp [compare, compareAll_self m]

theorem compareFields_self : (f : List (String × Ty)) → compareFields f f = .eq
  | [] => by simp [compareFields]
  | (n, t) :: f => by simp [compareFields, compare_self t, compareFields_self f]

theorem compareAll_self : (m : List Ty) → compareAll m m = .eq
  | [] => by simp [compareAll]
  | t :: m => by simp [compareAll, compare_self t, compareAll_self m]

end

mutual

theorem eq_of_compare : (s t : Ty) → compare s t = .eq → s = t
  | .any, t, h | .unknown, t, h | .null, t, h | .bool, t, h | .int, t, h | .float, t, h
  | .string, t, h => by cases t <;> simp_all [compare, rank]
  | .sanitized k, t, h => by
    cases t <;> simp_all [compare, rank]
    exact ContentKind.rank_inj h
  | .list s, t, h => by
    cases t <;> simp_all [compare, rank]
    exact eq_of_compare s _ h
  | .map k v, t, h => by
    cases t <;> simp_all [compare, rank, Ordering.then_eq_eq]
    exact ⟨eq_of_compare k _ h.1, eq_of_compare v _ h.2⟩
  | .record f, t, h => by
    cases t <;> simp_all [compare, rank]
    exact eq_of_compareFields f _ h
  | .proto n f, t, h => by
    cases t <;> simp_all [compare, rank, Ordering.then_eq_eq]
    exact eq_of_compareFields f _ h.2
  | .union m, t, h => by
    cases t <;> simp_all [compare, rank]
    exact eq_of_compareAll m _ h

theorem eq_of_compareFields :
    (f g : List (String × Ty)) → compareFields f g = .eq → f = g
  | [], g, h => by cases g <;> simp_all [compareFields]
  | (m, s) :: f, g, h => by
    cases g with
    | nil => simp [compareFields] at h
    | cons head g =>
      obtain ⟨n, t⟩ := head
      simp only [compareFields, Ordering.then_eq_eq, Std.compare_eq_iff_eq] at h
      rw [h.1.1, eq_of_compare s t h.1.2, eq_of_compareFields f g h.2]

theorem eq_of_compareAll : (m n : List Ty) → compareAll m n = .eq → m = n
  | [], n, h => by cases n <;> simp_all [compareAll]
  | s :: m, n, h => by
    cases n with
    | nil => simp [compareAll] at h
    | cons t n =>
      simp only [compareAll, Ordering.then_eq_eq] at h
      rw [eq_of_compare s t h.1, eq_of_compareAll m n h.2]

end

/-- Types compare as equal exactly when they are. -/
theorem compare_eq_iff {s t : Ty} : compare s t = .eq ↔ s = t :=
  ⟨eq_of_compare s t, fun h => h ▸ compare_self s⟩

instance : DecidableEq Ty := fun _ _ => decidable_of_iff _ compare_eq_iff

/-! ### Ascending lists -/

/-- An ascending list of types with one added; a type that is there is not
    added again. -/
def insertSorted (t : Ty) : List Ty → List Ty
  | [] => [t]
  | s :: rest =>
    match compare t s with
    | .lt => t :: s :: rest
    | .eq => s :: rest
    | .gt => s :: insertSorted t rest

theorem mem_insertSorted {s t : Ty} {types : List Ty} :
    s ∈ insertSorted t types ↔ s = t ∨ s ∈ types := by
  induction types with
  | nil => simp [insertSorted]
  | cons r rest ih =>
    unfold insertSorted
    split
    · simp
    · rename_i heq
      rw [compare_eq_iff.1 heq]
      simp
    · simp only [List.mem_cons, ih]
      exact or_left_comm

/-- The types of a list in ascending order, each once. -/
def sortedSet (types : List Ty) : List Ty := types.foldr insertSorted []

end Ty

end Stencil
