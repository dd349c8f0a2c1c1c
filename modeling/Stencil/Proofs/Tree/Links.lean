/-
  Stencil/Proofs/Tree/Links.lean
  ==============================
  **Identities, owners and parents.**

  A node is linked if it owns its list of children and is the parent of each
  child on it.  Placed trees are linked, and so is every copy.  Identities that
  are drawn are those from one free identity up to the next; a tree that is made
  of parts of another one and of new nodes has the identities of the one and
  drawn ones, none of them more often than before.
-/
import Mathlib.Data.List.Nodup
import Stencil.Proofs.Tree.Nodes
import Stencil.Proofs.Tree.Numbering
import Stencil.Tree.Copy

namespace Stencil.Tree

/-! ### Linked nodes -/

/-- A node owns its list of children and is the parent of each child on it. -/
def LinkedAt (n : Node) : Prop := n.owner = n.id ∧ ∀ k ∈ n.children, k.parent = some n.id

/-- All nodes of a tree are linked. -/
def Linked (n : Node) : Prop := Each LinkedAt n

/-- Linked nodes on a list that is held by the node with an identity. -/
def ListedBy (holder : NodeId) (ns : List Node) : Prop :=
  ∀ n ∈ ns, n.parent = some holder ∧ Linked n

theorem linked_iff {n : Node} : Linked n ↔ n.owner = n.id ∧ ListedBy n.id n.children := by
  rw [Linked, each_iff, LinkedAt, and_assoc]
  exact and_congr_right fun _ => ⟨fun h k hk => ⟨h.1 k hk, h.2 k hk⟩,
    fun h => ⟨fun k hk => (h k hk).1, fun k hk => (h k hk).2⟩⟩

theorem linked_leaf (id : NodeId) (parent : Option NodeId) (loc : Location) (content : Content) :
    Linked (.leaf ⟨id, parent, loc⟩ content) := linked_iff.2 ⟨rfl, fun _ hk => (nomatch hk)⟩

@[simp] theorem id_withParent (n : Node) (parent : Option NodeId) :
    (n.withParent parent).id = n.id := by
  cases n; rfl

@[simp] theorem owner_withParent (n : Node) (parent : Option NodeId) :
    (n.withParent parent).owner = n.owner := by
  cases n; rfl

@[simp] theorem parent_withParent (n : Node) (parent : Option NodeId) :
    (n.withParent parent).parent = parent := by
  cases n; rfl

theorem linked_withParent {n : Node} (h : Linked n) (parent : Option NodeId) :
    Linked (n.withParent parent) := by
  rw [linked_iff] at h ⊢
  simpa using h

mutual

theorem linked_link (loc : Nat → Location) (parent : Option NodeId) :
    (t : Numbered) → Linked (link loc parent t)
  | node (id, _) _ children => linked_iff.2 ⟨rfl, listedBy_linkAll loc id children⟩

theorem listedBy_linkAll (loc : Nat → Location) (holder : NodeId) :
    (ts : List Numbered) → ListedBy holder (linkAll loc (some holder) ts)
  | [] => fun _ hn => (nomatch hn)
  | t :: rest => by
    intro n hn
    rw [linkAll] at hn
    rcases List.mem_cons.1 hn with rfl | hn
    · refine ⟨?_, linked_link loc (some holder) t⟩
      obtain ⟨⟨id, line⟩, content, children⟩ := t
      rfl
    · exact listedBy_linkAll loc holder rest n hn

end

mutual

/-- A copy is linked, whatever it is a copy of. -/
theorem linked_renumber (parent : Option NodeId) (next : NodeId) :
    (n : Node) → Linked (renumber parent next n).1
  | node _ _ children => linked_iff.2 ⟨rfl, listedBy_renumberAll next (next + 1) children⟩

theorem listedBy_renumberAll (holder : NodeId) (next : NodeId) :
    (ns : List Node) → ListedBy holder (renumberAll (some holder) next ns).1
  | [] => fun _ hn => (nomatch hn)
  | n :: rest => by
    intro k hk
    rw [renumberAll] at hk
    rcases List.mem_cons.1 hk with rfl | hk
    · refine ⟨?_, linked_renumber (some holder) next n⟩
      obtain ⟨mark, content, children⟩ := n
      rfl
    · exact listedBy_renumberAll holder _ rest k hk

end

/-! ### The identities of several trees -/

/-- The identities of all nodes of several trees. -/
def idsAll (ns : List Node) : List NodeId := (preorderAll ns).map id

@[simp] theorem idsAll_nil : idsAll [] = [] := rfl

theorem idsAll_cons (n : Node) (rest : List Node) : idsAll (n :: rest) = n.ids ++ idsAll rest := by
  rw [idsAll, preorderAll, List.map_append]
  rfl

@[simp] theorem idsAll_singleton (n : Node) : idsAll [n] = n.ids := by
  rw [idsAll_cons, idsAll_nil, List.append_nil]

theorem idsAll_append (ns ns' : List Node) : idsAll (ns ++ ns') = idsAll ns ++ idsAll ns' := by
  rw [idsAll, preorderAll_eq_flatMap, List.flatMap_append, List.map_append, idsAll, idsAll,
    preorderAll_eq_flatMap, preorderAll_eq_flatMap]

theorem ids_eq (n : Node) : n.ids = n.id :: idsAll n.children := by
  cases n
  rw [ids, preorder, List.map_cons]
  rfl

@[simp] theorem ids_withParent (n : Node) (parent : Option NodeId) :
    (n.withParent parent).ids = n.ids := by
  rw [ids_eq, ids_eq, id_withParent, children_withParent]

theorem ids_leaf (mark : Mark) (content : Content) : (leaf mark content).ids = [mark.id] := rfl

/-! ### Drawn identities -/

/-- Identities drawn from `next` up to `free`, each once. -/
structure Drawn (next free : Nat) (ids : List Nat) : Prop where
  le : next ≤ free
  perm : ids.Perm (List.range' next (free - next))

namespace Drawn

variable {next mid free : Nat} {ids ids' : List Nat}

theorem nil (next : Nat) : Drawn next next [] := ⟨Nat.le_refl _, by simp⟩

theorem append (h : Drawn next mid ids) (h' : Drawn mid free ids') :
    Drawn next free (ids ++ ids') := by
  have hle := h.le
  have hle' := h'.le
  refine ⟨Nat.le_trans hle hle', (h.perm.append h'.perm).trans ?_⟩
  have hrange : List.range' next (mid - next) ++ List.range' (next + (mid - next)) (free - mid) =
      List.range' next (mid - next + (free - mid)) := List.range'_append_1
  rw [Nat.add_sub_cancel' hle, show mid - next + (free - mid) = free - next by omega] at hrange
  rw [hrange]

theorem cons (h : Drawn (next + 1) free ids) : Drawn next free (next :: ids) := by
  have hle := h.le
  refine ⟨by omega, (h.perm.cons next).trans ?_⟩
  rw [← List.range'_succ, show free - (next + 1) + 1 = free - next by omega]

theorem concat (h : Drawn next free ids) : Drawn next (free + 1) (free :: ids) := by
  have hle := h.le
  refine ⟨by omega, (h.perm.cons free).trans ?_⟩
  rw [show free + 1 - next = free - next + 1 by omega, List.range'_1_concat,
    Nat.add_sub_cancel' hle]
  exact (List.perm_append_singleton _ _).symm

theorem nodup (h : Drawn next free ids) : ids.Nodup := h.perm.nodup_iff.2 List.nodup_range'

theorem lt (h : Drawn next free ids) : ∀ id ∈ ids, id < free := by
  intro id hid
  have hle := h.le
  have hmem := List.mem_range'_1.1 (h.perm.mem_iff.1 hid)
  omega

end Drawn

theorem drawn_placed (loc : Nat → Location) (parent : Option NodeId) (next : NodeId)
    (ts : List Draft) :
    Drawn next (numberAll next ts).2 (idsAll (linkAll loc parent (numberAll next ts).1)) := by
  rw [numberAll_free]
  refine ⟨Nat.le_add_right _ _, ?_⟩
  rw [Nat.add_sub_cancel_left]
  exact ids_placed loc parent next ts

/-! ### The identities of copies -/

mutual

theorem renumber_free (parent : Option NodeId) (next : NodeId) :
    (n : Node) → (renumber parent next n).2 = next + n.size
  | node mark content children => by
    rw [renumber, renumberAll_free (some next) (next + 1) children, size, Nat.add_assoc,
      Nat.add_comm 1]

theorem renumberAll_free (parent : Option NodeId) (next : NodeId) :
    (ns : List Node) → (renumberAll parent next ns).2 = next + sizeAll ns
  | [] => rfl
  | n :: rest => by
    rw [renumberAll, renumberAll_free parent _ rest, renumber_free parent next n, sizeAll,
      Nat.add_assoc]

end

mutual

/-- The identities of a copy are consecutive, each node's before those below it. -/
theorem ids_renumber (parent : Option NodeId) (next : NodeId) :
    (n : Node) → (renumber parent next n).1.ids = List.range' next n.size
  | node mark content children => by
    rw [ids_eq, size, List.range'_succ, ← idsAll_renumberAll (some next) (next + 1) children]
    rfl

theorem idsAll_renumberAll (parent : Option NodeId) (next : NodeId) :
    (ns : List Node) → idsAll (renumberAll parent next ns).1 = List.range' next (sizeAll ns)
  | [] => rfl
  | n :: rest => by
    rw [renumberAll, idsAll_cons, ids_renumber parent next n, idsAll_renumberAll parent _ rest,
      renumber_free parent next n, List.range'_append_1, sizeAll]

end

/-- A copy has new identities. -/
theorem drawn_renumber (parent : Option NodeId) (next : NodeId) (n : Node) :
    Drawn next (renumber parent next n).2 (renumber parent next n).1.ids := by
  rw [renumber_free, ids_renumber]
  refine ⟨Nat.le_add_right _ _, ?_⟩
  rw [Nat.add_sub_cancel_left]

/-! ### Identities after a change -/

/-- Identities after a change: those before it, none more often, and drawn ones,
    each at most once. -/
structure Renewed (before : List Nat) (next free : Nat) (after : List Nat) : Prop where
  le : next ≤ free
  count_le : ∀ i, after.count i ≤ before.count i + if next ≤ i ∧ i < free then 1 else 0

namespace Renewed

variable {before before' after after' mid : List Nat} {next free middle : Nat}

theorem refl (ids : List Nat) (next : Nat) : Renewed ids next next ids :=
  ⟨Nat.le_refl _, fun _ => Nat.le_add_right _ _⟩

/-- What is drawn and lost counts as drawn. -/
theorem of_le (ids : List Nat) (h : next ≤ free) : Renewed ids next free ids :=
  ⟨h, fun _ => Nat.le_add_right _ _⟩

theorem of_drawn (h : Drawn next free after) : Renewed [] next free after := by
  refine ⟨h.le, fun i => ?_⟩
  have hcount := List.nodup_iff_count_le_one.1 h.nodup i
  split
  · rw [List.count_nil]
    omega
  · rename_i hi
    have hnot : i ∉ after := by
      intro hmem
      have hrange := List.mem_range'_1.1 (h.perm.mem_iff.1 hmem)
      have hle := h.le
      omega
    rw [List.count_eq_zero_of_not_mem hnot]
    exact Nat.zero_le _

theorem trans (h : Renewed before next middle mid) (h' : Renewed mid middle free after) :
    Renewed before next free after := by
  have hle := h.le
  have hle' := h'.le
  refine ⟨Nat.le_trans hle hle', fun i => ?_⟩
  have hcount := h.count_le i
  have hcount' := h'.count_le i
  split_ifs at hcount hcount' ⊢ <;> omega

theorem append (h : Renewed before next middle after) (h' : Renewed before' middle free after') :
    Renewed (before ++ before') next free (after ++ after') := by
  have hle := h.le
  have hle' := h'.le
  refine ⟨Nat.le_trans hle hle', fun i => ?_⟩
  have hcount := h.count_le i
  have hcount' := h'.count_le i
  rw [List.count_append, List.count_append]
  split_ifs at hcount hcount' ⊢ <;> omega

theorem cons (h : Renewed before next free after) (id : Nat) :
    Renewed (id :: before) next free (id :: after) :=
  (refl [id] next).append h

/-- Fewer identities before the change would do. -/
theorem mono (h : Renewed before next free after) (hle : ∀ i, before.count i ≤ before'.count i) :
    Renewed before' next free after :=
  ⟨h.le, fun i => Nat.le_trans (h.count_le i) (Nat.add_le_add_right (hle i) _)⟩

/-- Distinct identities that are not free stay so. -/
theorem distinct (h : Renewed before next free after) (hnodup : before.Nodup)
    (hlt : ∀ id ∈ before, id < next) : after.Nodup ∧ ∀ id ∈ after, id < free := by
  have hle := h.le
  have hbefore : ∀ i, before.count i ≤ 1 ∧ (next ≤ i → before.count i = 0) := by
    intro i
    refine ⟨List.nodup_iff_count_le_one.1 hnodup i, fun hi => ?_⟩
    exact List.count_eq_zero_of_not_mem fun hmem => absurd (hlt i hmem) (Nat.not_lt.2 hi)
  constructor
  · rw [List.nodup_iff_count_le_one]
    intro i
    have hcount := h.count_le i
    obtain ⟨hone, hzero⟩ := hbefore i
    split_ifs at hcount with hi
    · rw [hzero hi.1] at hcount
      exact hcount
    · omega
  · intro i hi
    by_contra hge
    have hcount := h.count_le i
    rw [if_neg (by omega), (hbefore i).2 (by omega)] at hcount
    have hpos := List.count_pos_iff.2 hi
    omega

end Renewed

end Stencil.Tree
