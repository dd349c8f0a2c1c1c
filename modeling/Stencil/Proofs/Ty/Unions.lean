/-
  Stencil/Proofs/Ty/Unions.lean
  =============================
  **Unions are sets of members.**

  What types are joined to depends on the set of their members only
  (`join_congr`), not on how often, in which order or in which unions they come.
  The other way round, the joint type tells the set, but for what `any` swallows
  (`join_eq_iff`).  So joining is associative: parts may be joined first
  (`join_map_join`).
-/
import Mathlib.Data.Finset.Card
import Stencil.Proofs.Ty.Built

namespace Stencil.Ty

/-- The set of the members that some types contribute to a union. -/
def memberSet (types : List Ty) : Finset Ty := (types.flatMap members).toFinset

variable {s t : Ty} {types types' ms : List Ty}

theorem mem_memberSet : t ∈ memberSet types ↔ t ∈ types.flatMap members := List.mem_toFinset

/-! ### What joining depends on -/

/-- Types with the same members are joined to the same type. -/
theorem join_congr (h : memberSet types = memberSet types') : join types = join types' := by
  have hsorted : sortedSet (types.flatMap members) = sortedSet (types'.flatMap members) := by
    apply (ascending_sortedSet _).eq_of_mem_iff (ascending_sortedSet _)
    intro t
    rw [mem_sortedSet, mem_sortedSet, ← mem_memberSet, ← mem_memberSet, h]
  rw [join, join, hsorted]

theorem join_eq_any_iff : join types = .any ↔ .any ∈ memberSet types := by
  rw [mem_memberSet]
  constructor
  · intro h
    have hjoined := joined types
    rw [h] at hjoined
    cases hjoined with
    | any hany => exact hany
    | single hany _ => exact hany
  · intro h
    rw [join, if_pos (mem_sortedSet.2 h)]

/-! ### Joining types that are built -/

theorem forall_mem_members (h : ∀ t ∈ types, Built t) :
    ∀ m ∈ types.flatMap members, m.isUnion = false ∧ Built m := by
  intro m hm
  obtain ⟨t, ht, hm⟩ := List.mem_flatMap.1 hm
  exact (h t ht).of_mem_members m hm

theorem flatMap_members_ne_nil (hne : types ≠ []) (h : ∀ t ∈ types, Built t) :
    types.flatMap members ≠ [] := by
  obtain ⟨t, ht⟩ := List.exists_mem_of_ne_nil types hne
  intro hnil
  exact (h t ht).members_ne_nil (List.flatMap_eq_nil_iff.1 hnil t ht)

/-- A joint type has the members of the types that are joined, unless it is `any`. -/
theorem mem_members_join (hne : types ≠ []) (h : ∀ t ∈ types, Built t)
    (hany : .any ∉ memberSet types) (m : Ty) : m ∈ (join types).members ↔ m ∈ memberSet types := by
  rw [mem_memberSet] at hany ⊢
  have hmembers := forall_mem_members h
  have hjoined := joined types
  generalize join types = joint at hjoined
  cases hjoined with
  | any hmem => exact absurd hmem hany
  | none hnil => exact absurd hnil (flatMap_members_ne_nil hne h)
  | single hmem hall =>
    rw [members_of_not_isUnion (hmembers _ hmem).1, List.mem_singleton]
    constructor
    · rintro rfl
      exact hmem
    · exact hall m
  | union _ _ _ hmem => exact hmem m

theorem memberSet_singleton_join (hne : types ≠ []) (h : ∀ t ∈ types, Built t)
    (hany : .any ∉ memberSet types) : memberSet [join types] = memberSet types := by
  ext m
  rw [mem_memberSet, List.flatMap_singleton]
  exact mem_members_join hne h hany m

/-- The joint type tells which members are joined, but for what `any` swallows. -/
theorem join_eq_iff (hne : types ≠ []) (h : ∀ t ∈ types, Built t) (hne' : types' ≠ [])
    (h' : ∀ t ∈ types', Built t) : join types = join types' ↔
      memberSet types = memberSet types' ∨ .any ∈ memberSet types ∧ .any ∈ memberSet types' := by
  constructor
  · intro heq
    by_cases hany : .any ∈ memberSet types
    · refine .inr ⟨hany, ?_⟩
      rw [← join_eq_any_iff, ← heq, join_eq_any_iff]
      exact hany
    · have hany' : .any ∉ memberSet types' := by
        rwa [← join_eq_any_iff, ← heq, join_eq_any_iff]
      left
      rw [← memberSet_singleton_join hne h hany, heq, memberSet_singleton_join hne' h' hany']
  · rintro (hset | ⟨hany, hany'⟩)
    · exact join_congr hset
    · rw [join_eq_any_iff.2 hany, join_eq_any_iff.2 hany']

/-- A type by itself is joined to itself. -/
theorem join_singleton (h : Built t) : join [t] = t := by
  cases hunion : t.isUnion with
  | true =>
    obtain ⟨ms, rfl⟩ : ∃ ms, t = .union ms := by
      cases t <;> first | exact ⟨_, rfl⟩ | cases hunion
    have hms := h.areMembers
    apply join_eq_union hms.two_le hms.ascending hms.any_not_mem
    intro m
    rw [List.flatMap_singleton]
    rfl
  | false =>
    rw [join, List.flatMap_singleton, members_of_not_isUnion hunion]
    change (if .any ∈ [t] then .any else t) = t
    split
    · rename_i hany
      exact List.mem_singleton.1 hany
    · rfl

theorem memberSet_members (h : Built t) : memberSet t.members = memberSet [t] := by
  have hflat : t.members.flatMap members = t.members.flatMap fun m => [m] :=
    List.flatMap_congr fun m hm => members_of_not_isUnion (h.of_mem_members m hm).1
  rw [memberSet, memberSet, hflat, List.flatMap_singleton', List.flatMap_singleton]

/-- The members of a type are joined to it. -/
theorem join_members (h : Built t) : join t.members = t :=
  (join_congr (memberSet_members h)).trans (join_singleton h)

/-- Parts of what is joined may be joined first. -/
theorem join_map_join {parts : List (List Ty)}
    (h : ∀ part ∈ parts, part ≠ [] ∧ ∀ t ∈ part, Built t) :
    join (parts.map join) = join parts.flatten := by
  by_cases hany : .any ∈ memberSet parts.flatten
  · rw [join_eq_any_iff.2 hany, join_eq_any_iff, mem_memberSet]
    obtain ⟨t, ht, hmem⟩ := List.mem_flatMap.1 (mem_memberSet.1 hany)
    obtain ⟨part, hpart, ht⟩ := List.mem_flatten.1 ht
    have hjoin : join part = .any :=
      join_eq_any_iff.2 (mem_memberSet.2 (List.mem_flatMap.2 ⟨t, ht, hmem⟩))
    refine List.mem_flatMap.2 ⟨join part, List.mem_map_of_mem hpart, ?_⟩
    rw [hjoin]
    exact List.mem_singleton_self _
  · have hpart : ∀ part ∈ parts, ∀ m, m ∈ (join part).members ↔ m ∈ part.flatMap members := by
      intro part hpart m
      rw [mem_members_join (h part hpart).1 (h part hpart).2 ?_ m, mem_memberSet]
      intro hmem
      obtain ⟨t, ht, hmem⟩ := List.mem_flatMap.1 (mem_memberSet.1 hmem)
      apply hany
      exact mem_memberSet.2 (List.mem_flatMap.2 ⟨t, List.mem_flatten.2 ⟨part, hpart, ht⟩, hmem⟩)
    apply join_congr
    ext m
    rw [mem_memberSet, mem_memberSet, List.flatMap_map, List.mem_flatMap, List.mem_flatMap]
    constructor
    · rintro ⟨part, hin, hm⟩
      obtain ⟨t, ht, hm⟩ := List.mem_flatMap.1 ((hpart part hin m).1 hm)
      exact ⟨t, List.mem_flatten.2 ⟨part, hin, ht⟩, hm⟩
    · rintro ⟨t, ht, hm⟩
      obtain ⟨part, hin, ht⟩ := List.mem_flatten.1 ht
      exact ⟨part, hin, (hpart part hin m).2 (List.mem_flatMap.2 ⟨t, ht, hm⟩)⟩

/-! ### Which types are joined to a union -/

/-- The members that make a union: at least two, and `any` not among them. -/
def MakeUnion (members : Finset Ty) : Prop := 2 ≤ members.card ∧ .any ∉ members

instance : DecidablePred MakeUnion := fun members =>
  inferInstanceAs (Decidable (2 ≤ members.card ∧ .any ∉ members))

/-- Types are joined to a union exactly if their members make one, which then is the set of
    its members. -/
theorem join_eq_union_iff (h : ∀ t ∈ types, Built t) : join types = .union ms ↔
    Ascending ms ∧ ms.toFinset = memberSet types ∧ MakeUnion (memberSet types) := by
  constructor
  · intro hjoin
    have hms := (hjoin ▸ Built.join h : Built (.union ms)).areMembers
    have hjoined := joined types
    rw [hjoin] at hjoined
    have hset : ms.toFinset = memberSet types := by
      ext m
      rw [List.mem_toFinset, mem_memberSet]
      cases hjoined with
      | single hmem _ => cases (forall_mem_members h _ hmem).1
      | union _ _ _ hmem => exact hmem m
    refine ⟨hms.ascending, hset, ?_, ?_⟩
    · rw [← hset, List.toFinset_card_of_nodup hms.ascending.nodup]
      exact hms.two_le
    · rw [← hset, List.mem_toFinset]
      exact hms.any_not_mem
  · rintro ⟨hascending, hset, htwo, hany⟩
    rw [← hset, List.toFinset_card_of_nodup hascending.nodup] at htwo
    rw [← hset, List.mem_toFinset] at hany
    apply join_eq_union htwo hascending hany
    intro m
    rw [← mem_memberSet, ← hset, List.mem_toFinset]

/-- Types whose members make a union are joined to one. -/
theorem exists_join_eq_union (h : ∀ t ∈ types, Built t) (hset : MakeUnion (memberSet types)) :
    ∃ ms, join types = .union ms := by
  refine ⟨sortedSet (types.flatMap members), (join_eq_union_iff h).2 ⟨?_, ?_, hset⟩⟩
  · exact ascending_sortedSet _
  · ext m
    rw [List.mem_toFinset, mem_sortedSet, mem_memberSet]

end Stencil.Ty
