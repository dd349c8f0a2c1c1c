/-
  Stencil/Proofs/Tree/ListRuns.lean
  =================================
  **Runs of operations on a list.**

  A bench holds a list, the elements that left it, and the elements that are lost because
  the operation they were given to was refused; an operation may take an element again
  that left.  The bench works with lists of any kind.  Plain lists are the reference: each
  operation replaces a range of the list (`ListOp.onList_eq_splice`), so over a run every
  element that was brought is in one place (`Bench.perm_places_run`).  Where the operations
  of two kinds of lists correspond, so do the runs (`Bench.run_map`).
-/
import Mathlib.Data.List.InsertIdx
import Mathlib.Data.List.Perm.Basic

namespace Stencil

/-! ### Operations -/

/-- An operation on a list, with the elements that it is given. -/
inductive ListOp (α : Type) where
  | push (a : α)
  | insert (index : Nat) (a : α)
  | remove (index : Nat)
  | replace (start stop : Nat) (as : List α)
deriving DecidableEq, Repr

namespace ListOp

variable {α β : Type}

def map (f : α → β) : ListOp α → ListOp β
  | push a => .push (f a)
  | insert index a => .insert index (f a)
  | remove index => .remove index
  | replace start stop as => .replace start stop (as.map f)

/-- The elements that an operation is given. -/
def given : ListOp α → List α
  | push a => [a]
  | insert _ a => [a]
  | remove _ => []
  | replace _ _ as => as

/-- The operation has no place in a list of some length. -/
def OutOfBounds (length : Nat) : ListOp α → Prop
  | push _ => False
  | insert index _ => length < index
  | remove index => length ≤ index
  | replace start stop _ => stop < start ∨ length < stop

instance (length : Nat) : (op : ListOp α) → Decidable (op.OutOfBounds length)
  | push _ => inferInstanceAs (Decidable False)
  | insert index _ => inferInstanceAs (Decidable (length < index))
  | remove index => inferInstanceAs (Decidable (length ≤ index))
  | replace start stop _ => inferInstanceAs (Decidable (stop < start ∨ length < stop))

/-- A plain list after an operation, and what left it; none if it has no place there. -/
def onList (as : List α) (op : ListOp α) : Option (List α × List α) :=
  if op.OutOfBounds as.length then none
  else match op with
    | push a => some (as ++ [a], [])
    | insert index a => some (as.insertIdx index a, [])
    | remove index => some (as.eraseIdx index, as[index]?.toList)
    | replace start stop others =>
      some (as.take start ++ others ++ as.drop stop, (as.take stop).drop start)

/-- Where the range starts that the operation replaces in a list of some length. -/
def start (length : Nat) : ListOp α → Nat
  | push _ => length
  | insert index _ => index
  | remove index => index
  | replace start _ _ => start

/-- Where the range stops. -/
def stop (length : Nat) : ListOp α → Nat
  | push _ => length
  | insert index _ => index
  | remove index => index + 1
  | replace _ stop _ => stop

theorem not_outOfBounds_iff (op : ListOp α) (length : Nat) :
    ¬ op.OutOfBounds length ↔ op.start length ≤ op.stop length ∧ op.stop length ≤ length := by
  cases op with
  | push a => simp [OutOfBounds, start, stop]
  | insert index a => simp [OutOfBounds, start, stop]
  | remove index =>
    simp only [OutOfBounds, start, stop]
    omega
  | replace first last as => simp [OutOfBounds, start, stop]

@[simp] theorem given_map (f : α → β) (op : ListOp α) : (op.map f).given = op.given.map f := by
  cases op <;> rfl

@[simp] theorem outOfBounds_map (f : α → β) (op : ListOp α) (length : Nat) :
    (op.map f).OutOfBounds length ↔ op.OutOfBounds length := by
  cases op <;> rfl

@[simp] theorem start_map (f : α → β) (op : ListOp α) (length : Nat) :
    (op.map f).start length = op.start length := by
  cases op <;> rfl

@[simp] theorem stop_map (f : α → β) (op : ListOp α) (length : Nat) :
    (op.map f).stop length = op.stop length := by
  cases op <;> rfl

theorem drop_take_succ {as : List α} {index : Nat} (h : index < as.length) :
    (as.take (index + 1)).drop index = [as[index]] := by
  have hlength : (as.take index).length = index := List.length_take_of_le (Nat.le_of_lt h)
  rw [List.take_succ_eq_append_getElem h]
  exact List.drop_left' hlength

/-- Each operation that has a place in the list puts what it is given for a range of it. -/
theorem onList_eq_splice (op : ListOp α) {as : List α} (h : ¬ op.OutOfBounds as.length) :
    op.onList as = some
      (as.take (op.start as.length) ++ op.given ++ as.drop (op.stop as.length),
        (as.take (op.stop as.length)).drop (op.start as.length)) := by
  unfold onList
  rw [if_neg h]
  cases op with
  | push a => simp [start, stop, given]
  | insert index a =>
    have hindex : index ≤ as.length := Nat.not_lt.1 h
    obtain ⟨front, back, rfl, rfl, hinsert⟩ :=
      List.exists_of_modifyTailIdx (List.cons a) hindex
    change some ((front ++ back).modifyTailIdx front.length (List.cons a), []) = _
    rw [hinsert]
    simp [start, stop, given]
  | remove index =>
    have hindex : index < as.length := Nat.not_le.1 h
    simp only [start, stop, given, drop_take_succ hindex, List.eraseIdx_eq_take_drop_succ,
      List.getElem?_eq_getElem hindex, Option.toList_some, List.append_nil]
  | replace first last others => rfl

theorem onList_eq_none {op : ListOp α} {as : List α} (h : op.OutOfBounds as.length) :
    op.onList as = none := by
  unfold onList
  exact if_pos h

/-- The list afterwards and what left it are the list before and what was given. -/
theorem perm_onList {op : ListOp α} {as as' left : List α} (h : op.onList as = some (as', left)) :
    (as' ++ left).Perm (op.given ++ as) := by
  have hbounds : ¬ op.OutOfBounds as.length := fun hbounds => by
    rw [onList_eq_none hbounds] at h
    cases h
  obtain ⟨hstart, -⟩ := (op.not_outOfBounds_iff as.length).1 hbounds
  rw [onList_eq_splice op hbounds] at h
  cases h
  generalize op.start as.length = start, op.stop as.length = stop at hstart
  -- the range that is replaced lies between two parts that stay
  have hsplit : as.take start ++ (as.take stop).drop start ++ as.drop stop = as := by
    have htake : as.take start = (as.take stop).take start := by
      rw [List.take_take, Nat.min_eq_left hstart]
    rw [htake, List.take_append_drop, List.take_append_drop]
  generalize as.take start = front, (as.take stop).drop start = left, as.drop stop = back at hsplit
  subst hsplit
  classical
  refine List.perm_iff_count.2 fun a => ?_
  simp only [List.count_append]
  omega

end ListOp

/-! ### The bench -/

/-- Where an element that an operation is given comes from: it is new, or it is one of
    those that left the list. -/
inductive Supply (α : Type) where
  | fresh (a : α)
  | again (index : Nat)
deriving DecidableEq, Repr

namespace Supply

variable {α β : Type}

def map (f : α → β) : Supply α → Supply β
  | fresh a => fresh (f a)
  | again index => again index

/-- The element that is new. -/
def new? : Supply α → Option α
  | fresh a => some a
  | again _ => none

/-- The element, and the detached ones without it; none if there is no such element. -/
def take (detached : List α) : Supply α → Option (α × List α)
  | fresh a => some (a, detached)
  | again index => detached[index]?.map fun a => (a, detached.eraseIdx index)

/-- Several elements, one after the other. -/
def takeAll (detached : List α) : List (Supply α) → Option (List α × List α)
  | [] => some ([], detached)
  | s :: rest =>
    (s.take detached).bind fun (a, detached) =>
      (takeAll detached rest).map fun (as, detached) => (a :: as, detached)

theorem take_map (f : α → β) (detached : List α) (s : Supply α) :
    (s.map f).take (detached.map f) = (s.take detached).map (Prod.map f (List.map f)) := by
  cases s with
  | fresh a => rfl
  | again index =>
    simp only [map, take, List.getElem?_map, List.eraseIdx_map, Option.map_map]
    rfl

theorem takeAll_map (f : α → β) (detached : List α) (ss : List (Supply α)) :
    takeAll (detached.map f) (ss.map (map f)) =
      (takeAll detached ss).map (Prod.map (List.map f) (List.map f)) := by
  induction ss generalizing detached with
  | nil => rfl
  | cons s ss ih =>
    simp only [List.map_cons, takeAll, take_map]
    cases s.take detached with
    | none => rfl
    | some taken =>
      simp only [Option.map_some, Option.bind_some, Prod.map, ih, Option.map_map]
      rfl

theorem perm_take {detached rest : List α} {s : Supply α} {a : α}
    (h : s.take detached = some (a, rest)) :
    (a :: rest).Perm (s.new?.toList ++ detached) := by
  cases s with
  | fresh b =>
    cases h
    exact .refl _
  | again index =>
    obtain ⟨b, hb, heq⟩ := Option.map_eq_some_iff.1 h
    cases heq
    obtain ⟨hindex, rfl⟩ := List.getElem?_eq_some_iff.1 hb
    exact List.getElem_cons_eraseIdx_perm hindex

theorem perm_takeAll {detached rest as : List α} {ss : List (Supply α)}
    (h : takeAll detached ss = some (as, rest)) :
    (as ++ rest).Perm (ss.filterMap new? ++ detached) := by
  induction ss generalizing detached as with
  | nil =>
    cases h
    exact .refl _
  | cons s ss ih =>
    obtain ⟨⟨a, mid⟩, htake, hrest⟩ := Option.bind_eq_some_iff.1 h
    obtain ⟨⟨as, rest'⟩, hall, heq⟩ := Option.map_eq_some_iff.1 hrest
    cases heq
    have hnew : (s :: ss).filterMap new? = s.new?.toList ++ ss.filterMap new? := by
      cases s <;> rfl
    rw [hnew, List.append_assoc]
    calc List.Perm (a :: (as ++ rest)) (a :: (ss.filterMap new? ++ mid)) := (ih hall).cons a
      List.Perm _ (ss.filterMap new? ++ a :: mid) := List.perm_middle.symm
      List.Perm _ (ss.filterMap new? ++ (s.new?.toList ++ detached)) :=
        (perm_take htake).append_left _
      List.Perm _ (s.new?.toList ++ (ss.filterMap new? ++ detached)) :=
        List.perm_append_comm_assoc ..

theorem sublist_take {detached rest : List α} {s : Supply α} {a : α}
    (h : s.take detached = some (a, rest)) : rest.Sublist detached := by
  cases s with
  | fresh b =>
    cases h
    exact .refl _
  | again index =>
    obtain ⟨b, -, heq⟩ := Option.map_eq_some_iff.1 h
    cases heq
    exact List.eraseIdx_sublist ..

theorem sublist_takeAll {detached rest as : List α} {ss : List (Supply α)}
    (h : takeAll detached ss = some (as, rest)) : rest.Sublist detached := by
  induction ss generalizing detached as with
  | nil =>
    cases h
    exact .refl _
  | cons s ss ih =>
    obtain ⟨⟨a, mid⟩, htake, hrest⟩ := Option.bind_eq_some_iff.1 h
    obtain ⟨⟨as, rest'⟩, hall, heq⟩ := Option.map_eq_some_iff.1 hrest
    cases heq
    exact (ih hall).trans (sublist_take htake)

end Supply

namespace ListOp

variable {α β : Type}

/-- The operation with the elements that are asked for, and the detached ones without
    them; none if there are no such elements. -/
def supplied (detached : List α) : ListOp (Supply α) → Option (ListOp α × List α)
  | push s => (s.take detached).map fun (a, rest) => (push a, rest)
  | insert index s => (s.take detached).map fun (a, rest) => (insert index a, rest)
  | remove index => some (remove index, detached)
  | replace start stop ss =>
    (Supply.takeAll detached ss).map fun (as, rest) => (replace start stop as, rest)

/-- The elements that an operation brings. -/
def brought (op : ListOp (Supply α)) : List α := op.given.filterMap Supply.new?

theorem supplied_map (f : α → β) (detached : List α) (op : ListOp (Supply α)) :
    (op.map (Supply.map f)).supplied (detached.map f) =
      (op.supplied detached).map (Prod.map (map f) (List.map f)) := by
  cases op with
  | push s => simp only [map, supplied, Supply.take_map, Option.map_map]; rfl
  | insert index s => simp only [map, supplied, Supply.take_map, Option.map_map]; rfl
  | remove index => rfl
  | replace start stop ss => simp only [map, supplied, Supply.takeAll_map, Option.map_map]; rfl

theorem takeAll_of_supplied {op : ListOp (Supply α)} {op' : ListOp α} {detached rest : List α}
    (h : op.supplied detached = some (op', rest)) :
    Supply.takeAll detached op.given = some (op'.given, rest) := by
  cases op with
  | push s =>
    obtain ⟨⟨a, kept⟩, htake, heq⟩ := Option.map_eq_some_iff.1 h
    cases heq
    simp [given, Supply.takeAll, htake]
  | insert index s =>
    obtain ⟨⟨a, kept⟩, htake, heq⟩ := Option.map_eq_some_iff.1 h
    cases heq
    simp [given, Supply.takeAll, htake]
  | remove index =>
    cases h
    rfl
  | replace start stop ss =>
    obtain ⟨⟨as, kept⟩, htake, heq⟩ := Option.map_eq_some_iff.1 h
    cases heq
    exact htake

theorem brought_map (f : α → β) (op : ListOp (Supply α)) :
    (op.map (Supply.map f)).brought = op.brought.map f := by
  have hnew : (Supply.new? ∘ Supply.map f) = Option.map f ∘ Supply.new? := by
    funext s
    cases s <;> rfl
  rw [brought, brought, given_map, List.filterMap_map, hnew, List.map_filterMap]
  rfl

end ListOp

/-- A list, the elements that left it and were not taken again, the latest first, and the
    elements that were given to an operation that was refused. -/
structure Bench (σ α : Type) where
  list : σ
  detached : List α := []
  lost : List α := []

namespace Bench

variable {σ τ α β : Type}

def map (g : σ → τ) (f : α → β) (b : Bench σ α) : Bench τ β :=
  ⟨g b.list, b.detached.map f, b.lost.map f⟩

/-- The bench after an operation; none if it asks for a detached element that is not
    there. -/
def step (apply : σ → ListOp α → Option (σ × List α)) (b : Bench σ α) (op : ListOp (Supply α)) :
    Option (Bench σ α) :=
  (op.supplied b.detached).map fun (op, rest) =>
    match apply b.list op with
    | some (list, left) => { b with list, detached := left ++ rest }
    | none => { b with detached := rest, lost := op.given ++ b.lost }

def run (apply : σ → ListOp α → Option (σ × List α)) (b : Bench σ α)
    (ops : List (ListOp (Supply α))) : Option (Bench σ α) := ops.foldlM (step apply) b

/-! ### Runs with lists of two kinds -/

section

variable {f : α → β} {g : σ → τ} {apply : σ → ListOp α → Option (σ × List α)}
  {apply' : τ → ListOp β → Option (τ × List β)}

theorem step_map
    (happly : ∀ list op, (apply list op).map (Prod.map g (List.map f)) = apply' (g list) (op.map f))
    (b : Bench σ α) (op : ListOp (Supply α)) :
    (step apply b op).map (map g f) = step apply' (b.map g f) (op.map (Supply.map f)) := by
  unfold step
  rw [map, ListOp.supplied_map]
  cases op.supplied b.detached with
  | none => rfl
  | some supplied =>
    simp only [Option.map_some, Prod.map, ← happly]
    cases apply b.list supplied.1 with
    | none => simp [map]
    | some result => simp [map]

theorem run_map
    (happly : ∀ list op, (apply list op).map (Prod.map g (List.map f)) = apply' (g list) (op.map f))
    (b : Bench σ α) (ops : List (ListOp (Supply α))) :
    (run apply b ops).map (map g f) =
      run apply' (b.map g f) (ops.map (ListOp.map (Supply.map f))) := by
  unfold run
  induction ops generalizing b with
  | nil => rfl
  | cons op ops ih =>
    rw [List.map_cons, List.foldlM_cons, List.foldlM_cons, ← step_map happly]
    cases step apply b op with
    | none => rfl
    | some mid => exact ih mid

end

/-! ### Where the elements are -/

/-- All the elements of a bench. -/
def places (b : Bench (List α) α) : List α := b.list ++ b.detached ++ b.lost

theorem perm_places_step {b b' : Bench (List α) α} {op : ListOp (Supply α)}
    (h : step ListOp.onList b op = some b') : b'.places.Perm (op.brought ++ b.places) := by
  obtain ⟨⟨op', rest⟩, hsupplied, rfl⟩ := Option.map_eq_some_iff.1 h
  have hsupply : (op'.given ++ rest).Perm (op.brought ++ b.detached) :=
    Supply.perm_takeAll (ListOp.takeAll_of_supplied hsupplied)
  classical
  refine List.perm_iff_count.2 fun a => ?_
  have hcount := hsupply.count_eq a
  dsimp only
  cases hlist : op'.onList b.list with
  | none =>
    simp only [places, List.count_append] at hcount ⊢
    omega
  | some result =>
    have hleft := (ListOp.perm_onList hlist).count_eq a
    simp only [places, List.count_append] at hcount hleft ⊢
    omega

/-- Every element that was brought is in one place. -/
theorem perm_places_run {b b' : Bench (List α) α} {ops : List (ListOp (Supply α))}
    (h : run ListOp.onList b ops = some b') :
    b'.places.Perm (ops.flatMap ListOp.brought ++ b.places) := by
  unfold run at h
  induction ops generalizing b with
  | nil =>
    cases h
    exact .refl _
  | cons op ops ih =>
    rw [List.foldlM_cons] at h
    obtain ⟨mid, hmid, hrest⟩ := Option.bind_eq_some_iff.1 h
    rw [List.flatMap_cons, List.append_assoc]
    calc List.Perm b'.places (ops.flatMap ListOp.brought ++ mid.places) := ih hrest
      List.Perm _ (ops.flatMap ListOp.brought ++ (op.brought ++ b.places)) :=
        (perm_places_step hmid).append_left _
      List.Perm _ (op.brought ++ (ops.flatMap ListOp.brought ++ b.places)) :=
        List.perm_append_comm_assoc ..

end Bench

end Stencil
