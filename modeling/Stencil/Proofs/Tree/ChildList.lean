/-
  Stencil/Proofs/Tree/ChildList.lean
  ==================================
  **A child list is a plain list whose members know their owner.**

  Each operation on a child list replaces a range of it and changes parents only
  (`ChildList.apply_eq_splice`).  So a run on a child list is the run on a plain list,
  parents aside, and loses or doubles no node; what is on the list has the owner as its
  parent, and what left it has none (`ChildList.orderly_run`).
-/
import Stencil.Proofs.Tree.Links
import Stencil.Proofs.Tree.ListRuns
import Stencil.Tree.ChildList

namespace Stencil

/-- A child list after an operation, and the nodes that left it; none if it refuses. -/
def ChildList.apply (list : ChildList) : ListOp Node → Option (ChildList × List Node)
  | .push node => some (list.push node, [])
  | .insert index node => (list.insert? index node).map fun list => (list, [])
  | .remove index => (list.remove? index).map fun (list, node) => (list, [node])
  | .replace start stop nodes => list.replace? start stop nodes

namespace ChildList

variable {list : ChildList}

theorem replace?_eq_some (list : ChildList) {start stop : Nat} (h : start ≤ stop ∧ stop ≤ list.size)
    (nodes : List Node) : list.replace? start stop nodes = some
      ({ list with nodes :=
          list.nodes.take start ++ adopt list.owner nodes ++ list.nodes.drop stop },
        release ((list.nodes.take stop).drop start)) := if_pos h

theorem apply_eq_splice {op : ListOp Node} (h : ¬ op.OutOfBounds list.size) :
    list.apply op = some
      ({ list with nodes := list.nodes.take (op.start list.size) ++ adopt list.owner op.given ++
          list.nodes.drop (op.stop list.size) },
        release ((list.nodes.take (op.stop list.size)).drop (op.start list.size))) := by
  have hrange := (op.not_outOfBounds_iff list.size).1 h
  cases op with
  | push node => simp [apply, push, ListOp.start, ListOp.stop, size, release, ListOp.given]
  | insert index node =>
    have hinsert := list.replace?_eq_some hrange [node]
    simp only [ListOp.start, ListOp.stop, ListOp.given] at hinsert ⊢
    simp [apply, insert?, hinsert, release]
  | remove index =>
    have hindex : index < list.nodes.length := Nat.not_le.1 h
    have hremove := list.replace?_eq_some hrange []
    simp only [ListOp.start, ListOp.stop, ListOp.given, ListOp.drop_take_succ hindex] at hremove ⊢
    simp [apply, remove?, hremove, release]
  | replace first last nodes => exact list.replace?_eq_some hrange nodes

theorem apply_eq_none {op : ListOp Node} (h : op.OutOfBounds list.size) : list.apply op = none := by
  have hrange : ¬ (op.start list.size ≤ op.stop list.size ∧ op.stop list.size ≤ list.size) :=
    fun hrange => (op.not_outOfBounds_iff list.size).2 hrange h
  have hrefuse : ∀ nodes, list.replace? (op.start list.size) (op.stop list.size) nodes = none :=
    fun _ => if_neg hrange
  cases op with
  | push node => exact absurd h id
  | insert index node =>
    have hinsert : list.replace? index index [node] = none := hrefuse [node]
    simp [apply, insert?, hinsert]
  | remove index =>
    have hremove : list.replace? index (index + 1) [] = none := hrefuse []
    simp [apply, remove?, hremove]
  | replace first last nodes => exact hrefuse nodes

theorem apply_eq_none_iff (op : ListOp Node) :
    list.apply op = none ↔ op.OutOfBounds list.size := by
  refine ⟨fun h => ?_, apply_eq_none⟩
  by_contra hbounds
  rw [apply_eq_splice hbounds] at h
  cases h

/-- A node, whoever lists it. -/
def orphan (node : Node) : Node := node.withParent none

theorem orphan_withParent (node : Node) (parent : Option NodeId) :
    orphan (node.withParent parent) = orphan node := by
  cases node
  rfl

theorem map_orphan_adopt (owner : NodeId) (nodes : List Node) :
    (adopt owner nodes).map orphan = nodes.map orphan := by
  simp [adopt, orphan_withParent]

theorem map_orphan_release (nodes : List Node) : (release nodes).map orphan = nodes.map orphan := by
  simp [release, orphan_withParent]

/-- The listed nodes, whoever lists them. -/
def orphans (list : ChildList) : List Node := list.nodes.map orphan

/-- Parents aside, an operation on a child list is the one on a plain list. -/
theorem apply_orphans (list : ChildList) (op : ListOp Node) :
    (list.apply op).map (Prod.map orphans (List.map orphan)) =
      (op.map orphan).onList list.orphans := by
  have hsize : list.orphans.length = list.size := List.length_map orphan
  by_cases h : op.OutOfBounds list.size
  · rw [apply_eq_none h, ListOp.onList_eq_none (by rwa [hsize, ListOp.outOfBounds_map])]
    rfl
  · have hbounds : ¬ (op.map orphan).OutOfBounds list.orphans.length := by
      rwa [hsize, ListOp.outOfBounds_map]
    rw [apply_eq_splice h, ListOp.onList_eq_splice _ hbounds, hsize]
    simp only [Option.map_some, Prod.map, orphans, ListOp.start_map, ListOp.stop_map,
      ListOp.given_map, List.map_append, List.map_take, List.map_drop, map_orphan_adopt,
      map_orphan_release]

/-- Every listed node has the owner as its parent. -/
def Owned (list : ChildList) : Prop := ∀ n ∈ list.nodes, n.parent = some list.owner

theorem Owned.apply (h : list.Owned) {op : ListOp Node} {list' : ChildList} {left : List Node}
    (happly : list.apply op = some (list', left)) :
    list'.owner = list.owner ∧ list'.Owned ∧ ∀ n ∈ left, n.parent = none := by
  have hbounds : ¬ op.OutOfBounds list.size := fun hbounds => by
    rw [apply_eq_none hbounds] at happly
    cases happly
  rw [apply_eq_splice hbounds] at happly
  cases happly
  refine ⟨rfl, fun n hn => ?_, fun n hn => ?_⟩
  · simp only [List.mem_append] at hn
    rcases hn with (hn | hn) | hn
    · exact h n (List.mem_of_mem_take hn)
    · obtain ⟨m, -, rfl⟩ := List.mem_map.1 hn
      exact Tree.parent_withParent m _
    · exact h n (List.mem_of_mem_drop hn)
  · obtain ⟨m, -, rfl⟩ := List.mem_map.1 hn
    exact Tree.parent_withParent m none

end ChildList

namespace Bench

/-! ### Parents -/

/-- The list has its owner, every listed node has it as its parent, and every detached
    node has none. -/
structure Parented (owner : NodeId) (b : Bench ChildList Node) : Prop where
  kept : b.list.owner = owner
  listed : b.list.Owned
  detached : ∀ n ∈ b.detached, n.parent = none

theorem Parented.step {owner : NodeId} {b b' : Bench ChildList Node} (h : b.Parented owner)
    {op : ListOp (Supply Node)} (hstep : step ChildList.apply b op = some b') :
    b'.Parented owner := by
  obtain ⟨⟨op', rest⟩, hsupplied, rfl⟩ := Option.map_eq_some_iff.1 hstep
  have hrest : ∀ n ∈ rest, n.parent = none := fun n hn =>
    h.detached n ((Supply.sublist_takeAll (ListOp.takeAll_of_supplied hsupplied)).subset hn)
  dsimp only
  cases hlist : b.list.apply op' with
  | none => exact ⟨h.kept, h.listed, hrest⟩
  | some result =>
    obtain ⟨hkept, hlisted, hleft⟩ := h.listed.apply hlist
    exact ⟨hkept.trans h.kept, hlisted, List.forall_mem_append.2 ⟨hleft, hrest⟩⟩

theorem Parented.run {owner : NodeId} {b b' : Bench ChildList Node} (h : b.Parented owner)
    {ops : List (ListOp (Supply Node))} (hrun : run ChildList.apply b ops = some b') :
    b'.Parented owner := by
  unfold Bench.run at hrun
  induction ops generalizing b with
  | nil =>
    cases hrun
    exact h
  | cons op ops ih =>
    rw [List.foldlM_cons] at hrun
    obtain ⟨mid, hmid, hrest⟩ := Option.bind_eq_some_iff.1 hrun
    exact ih (h.step hmid) hrest

/-- An operation is refused if it has no place in the list, and then it leaves the list
    as it was; only what it was given is lost. -/
theorem step_of_outOfBounds {b : Bench ChildList Node} {op : ListOp (Supply Node)}
    {op' : ListOp Node} {rest : List Node} (h : op.supplied b.detached = some (op', rest))
    (hbounds : op'.OutOfBounds b.list.size) :
    step ChildList.apply b op =
      some { b with detached := rest, lost := op'.given ++ b.lost } := by
  simp only [step, h, ChildList.apply_eq_none hbounds, Option.map_some]

end Bench

/-! ### Child lists and plain lists -/

/-- The bench as one with a plain list of nodes, whoever lists them. -/
def Bench.orphaned (b : Bench ChildList Node) : Bench (List Node) Node :=
  b.map ChildList.orphans ChildList.orphan

/-- What holds of a child list with an owner after any run in which some nodes were
    brought: who the parents are, that no node is lost or doubled, and what the list
    refuses to do. -/
structure Bench.Orderly (owner : NodeId) (brought : List Node) (b : Bench ChildList Node) :
    Prop where
  owner_eq : b.list.owner = owner
  listed : ∀ n ∈ b.list.nodes, n.parent = some owner
  detached : ∀ n ∈ b.detached, n.parent = none
  placed : b.orphaned.places.Perm (brought.map ChildList.orphan)
  once : (brought.map Tree.id).Nodup →
    ((b.list.nodes ++ b.detached ++ b.lost).map Tree.id).Nodup
  refuses : ∀ op, b.list.apply op = none ↔ op.OutOfBounds b.list.size
  unchanged : ∀ op op' rest, op.supplied b.detached = some (op', rest) →
    op'.OutOfBounds b.list.size →
    Bench.step ChildList.apply b op = some { b with detached := rest, lost := op'.given ++ b.lost }

namespace ChildList

/-- A run from an empty list that a node owns. -/
def run (owner : NodeId) (ops : List (ListOp (Supply Node))) : Option (Bench ChildList Node) :=
  Bench.run apply { list := { owner } } ops

theorem orphaned_run (owner : NodeId) (ops : List (ListOp (Supply Node))) :
    (run owner ops).map Bench.orphaned =
      Bench.run ListOp.onList { list := [] } (ops.map (ListOp.map (Supply.map orphan))) :=
  Bench.run_map apply_orphans { list := { owner } } ops

theorem placed_of_run {owner : NodeId} {ops : List (ListOp (Supply Node))}
    {b : Bench ChildList Node} (h : run owner ops = some b) :
    b.orphaned.places.Perm ((ops.flatMap ListOp.brought).map orphan) := by
  have hplain := orphaned_run owner ops
  rw [h] at hplain
  have hplaces := Bench.perm_places_run hplain.symm
  have hbrought : (ops.map (ListOp.map (Supply.map orphan))).flatMap ListOp.brought =
      (ops.flatMap ListOp.brought).map orphan := by
    simp only [List.flatMap_map, List.map_flatMap, ListOp.brought_map]
  rw [hbrought] at hplaces
  simpa [Bench.places] using hplaces

theorem id_orphan : Tree.id ∘ orphan = Tree.id := funext fun node => Tree.id_withParent node none

/-- After every run from an empty list the child list has the order that the operations on
    a plain list give, refusing the same of them, and is orderly. -/
theorem orderly_run (owner : NodeId) (ops : List (ListOp (Supply Node))) :
    (run owner ops).map Bench.orphaned =
        Bench.run ListOp.onList { list := [] } (ops.map (ListOp.map (Supply.map orphan))) ∧
      ∀ b, run owner ops = some b → b.Orderly owner (ops.flatMap ListOp.brought) := by
  refine ⟨orphaned_run owner ops, fun b hrun => ?_⟩
  have hstart : Bench.Parented owner { list := { owner } } :=
    ⟨rfl, List.forall_mem_nil _, List.forall_mem_nil _⟩
  have hparented : b.Parented owner := hstart.run hrun
  have hplaced := placed_of_run hrun
  exact
    { owner_eq := hparented.kept
      listed := fun n hn => (hparented.listed n hn).trans (congrArg some hparented.kept)
      detached := hparented.detached
      placed := hplaced
      once := by
        intro hnodup
        have hids := hplaced.map Tree.id
        simp only [Bench.places, Bench.orphaned, Bench.map, orphans, ← List.map_append,
          List.map_map, id_orphan] at hids
        exact hids.nodup_iff.2 hnodup
      refuses := apply_eq_none_iff
      unchanged := fun op op' rest => Bench.step_of_outOfBounds }

/-- Three texts: two of them leave the list, one comes back, and the other is lost where
    the list refuses to take it past its end. -/
def threeTexts : List (ListOp (Supply Node)) :=
  let text (id : NodeId) : Node := .leaf ⟨id, none, .unknown⟩ (.rawText "a")
  [.push (.fresh (text 1)), .push (.fresh (text 2)), .replace 1 2 [.fresh (text 3)], .remove 0,
    .insert 1 (.again 1), .insert 3 (.again 0), .replace 1 0 []]

theorem orderly_run_threeTexts :
    ∃ b, run 0 threeTexts = some b ∧ b.list.nodes.map Tree.id = [3, 2] ∧ b.detached = [] ∧
      b.lost.map Tree.id = [1] ∧
      (b.list.nodes ++ b.lost).map Tree.parent = [some 0, some 0, none] ∧
      b.Orderly 0 (threeTexts.flatMap ListOp.brought) :=
  ⟨_, rfl, rfl, rfl, rfl, rfl, (orderly_run 0 threeTexts).2 _ rfl⟩

end ChildList

end Stencil
