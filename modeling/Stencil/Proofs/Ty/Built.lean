/-
  Stencil/Proofs/Ty/Built.lean
  ============================
  **Types as they are built.**

  A union is only ever built by joining types.  Joining gives `any`, one type by
  itself, or a union of at least two types in ascending order (`joined`); none of
  these is a union again (`Built.areMembers`).
-/
import Mathlib.Data.List.Nodup
import Stencil.Proofs.Ty.Order
import Stencil.Ty.Registry

namespace Stencil

namespace Fields

/-- The fields stand in ascending order of name, each name once. -/
def Ascending (fields : Fields) : Prop := fields.Pairwise (·.1 < ·.1)

instance (fields : Fields) : Decidable fields.Ascending :=
  inferInstanceAs (Decidable (fields.Pairwise (·.1 < ·.1)))

theorem type?_eq_of_mem {fields : Fields} (h : fields.Ascending) {f : String × Ty}
    (hf : f ∈ fields) : Fields.type? fields f.1 = some f.2 := by
  induction fields with
  | nil => cases hf
  | cons first rest ih =>
    obtain ⟨hfirst, hrest⟩ := List.pairwise_cons.1 h
    rw [Fields.type?, List.lookup_cons]
    rcases List.mem_cons.1 hf with rfl | hf
    · rw [beq_self_eq_true]
    · have hne : f.1 ≠ first.1 := fun heq => String.lt_irrefl _ (heq ▸ hfirst f hf)
      rw [beq_false_of_ne hne]
      exact ih hrest hf

theorem mem_of_type?_eq_some {fields : Fields} {name : String} {ty : Ty}
    (h : Fields.type? fields name = some ty) : (name, ty) ∈ fields := by
  induction fields with
  | nil => cases h
  | cons first rest ih =>
    rw [Fields.type?, List.lookup_cons] at h
    cases hname : name == first.1 with
    | true =>
      rw [hname] at h
      cases h
      rw [beq_iff_eq.1 hname]
      exact List.mem_cons_self
    | false =>
      rw [hname] at h
      exact List.mem_cons_of_mem _ (ih h)

theorem sizeOf_lt_of_mem {fields : Fields} {f : String × Ty} (hf : f ∈ fields) :
    sizeOf f.2 < sizeOf fields := by
  have hlt := List.sizeOf_lt_of_mem hf
  obtain ⟨name, ty⟩ := f
  change sizeOf ty < _
  simp only [Prod.mk.sizeOf_spec] at hlt
  omega

end Fields

namespace Ty

/-- The types that can be built: simple ones, lists, maps, records and protos of
    types that can be built, and what comes of joining some. -/
inductive Built : Ty → Prop
  | any : Built .any
  | unknown : Built .unknown
  | null : Built .null
  | bool : Built .bool
  | int : Built .int
  | float : Built .float
  | string : Built .string
  | sanitized (kind : ContentKind) : Built (.sanitized kind)
  | list {element : Ty} : Built element → Built (.list element)
  | map {key value : Ty} : Built key → Built value → Built (.map key value)
  | record {fields : Fields} : fields.Ascending → (∀ f ∈ fields, Built f.2) →
      Built (.record fields)
  | proto (name : String) {fields : Fields} : fields.Ascending → (∀ f ∈ fields, Built f.2) →
      Built (.proto name fields)
  | join {types : List Ty} : (∀ t ∈ types, Built t) → Built (Ty.join types)

/-! ### Sorting -/

theorem mem_sortedSet {t : Ty} {types : List Ty} : t ∈ sortedSet types ↔ t ∈ types := by
  induction types with
  | nil => rfl
  | cons s rest ih =>
    rw [sortedSet, List.foldr_cons, mem_insertSorted, List.mem_cons]
    exact or_congr_right ih

theorem ascending_sortedSet (types : List Ty) : Ascending (sortedSet types) := by
  induction types with
  | nil => exact List.Pairwise.nil
  | cons s rest ih => exact Ascending.insertSorted ih s

/-- Ascending lists of the same types are equal. -/
theorem Ascending.eq_of_mem_iff {ms ns : List Ty} (hms : Ascending ms) (hns : Ascending ns)
    (h : ∀ t, t ∈ ms ↔ t ∈ ns) : ms = ns := by
  have hperm : ms.Perm ns := (List.perm_ext_iff_of_nodup hms.nodup hns.nodup).2 h
  refine hperm.eq_of_pairwise (fun s t _ _ hst hts => ?_) hms hns
  rw [eq_swap, hts] at hst
  cases hst

theorem sortedSet_eq_of_ascending {ms types : List Ty} (hms : Ascending ms)
    (h : ∀ t, t ∈ types ↔ t ∈ ms) : sortedSet types = ms :=
  (ascending_sortedSet types).eq_of_mem_iff hms fun t => mem_sortedSet.trans (h t)

/-! ### Joining -/

theorem members_of_not_isUnion {t : Ty} (h : t.isUnion = false) : t.members = [t] := by
  cases t <;> first | rfl | cases h

/-- What comes of joining types with some members. -/
inductive Joined (members : List Ty) : Ty → Prop
  | any : .any ∈ members → Joined members .any
  | none : members = [] → Joined members .unknown
  | single {t : Ty} : t ∈ members → (∀ m ∈ members, m = t) → Joined members t
  | union {ms : List Ty} : 2 ≤ ms.length → Ascending ms → .any ∉ ms →
      (∀ m, m ∈ ms ↔ m ∈ members) → Joined members (.union ms)

theorem joined (types : List Ty) : Joined (types.flatMap members) (join types) := by
  have hmem : ∀ t, t ∈ sortedSet (types.flatMap members) ↔ t ∈ types.flatMap members :=
    fun _ => mem_sortedSet
  have hascending := ascending_sortedSet (types.flatMap members)
  rw [join]
  generalize sortedSet (types.flatMap members) = ms at hmem hascending
  split
  · rename_i hany
    exact .any ((hmem _).1 hany)
  · rename_i hany
    match ms with
    | [] => exact .none (List.eq_nil_iff_forall_not_mem.2 fun t ht => nomatch (hmem t).2 ht)
    | [t] =>
      exact .single ((hmem t).1 List.mem_cons_self) fun m hm => List.mem_singleton.1 ((hmem m).2 hm)
    | s :: t :: rest => exact .union (by simp) hascending hany hmem

/-- Types with the members of a union, in whatever order, are joined to that union. -/
theorem join_eq_union {types ms : List Ty} (hlength : 2 ≤ ms.length) (hms : Ascending ms)
    (hany : .any ∉ ms) (h : ∀ m, m ∈ types.flatMap members ↔ m ∈ ms) : join types = .union ms := by
  rw [join, sortedSet_eq_of_ascending hms h]
  rw [if_neg hany]
  match ms, hlength with
  | s :: t :: rest, _ => rfl

/-! ### The members of a union -/

/-- The types are what a union is made of. -/
structure AreMembers (ms : List Ty) : Prop where
  two_le : 2 ≤ ms.length
  ascending : Ascending ms
  any_not_mem : .any ∉ ms
  flat : ∀ m ∈ ms, m.isUnion = false

theorem AreMembers.not_all_eq {ms : List Ty} (h : AreMembers ms) (t : Ty) : ¬ ∀ m ∈ ms, m = t := by
  intro hall
  have hreplicate := List.eq_replicate_of_mem hall
  have htwo := h.two_le
  have hnodup := h.ascending.nodup
  rw [hreplicate, List.nodup_replicate] at hnodup
  omega

/-- What a type brings to a union is no union, and has been built. -/
theorem Built.of_mem_members {t : Ty} (h : Built t) :
    ∀ m ∈ t.members, m.isUnion = false ∧ Built m := by
  induction h with
  | join htypes ih =>
    rename_i types
    have hmember : ∀ m ∈ types.flatMap members, m.isUnion = false ∧ Built m := by
      intro m hm
      obtain ⟨t, ht, hm⟩ := List.mem_flatMap.1 hm
      exact ih t ht m hm
    have hjoined := joined types
    generalize Ty.join types = joint at hjoined
    intro m hm
    cases hjoined with
    | any _ => exact List.mem_singleton.1 hm ▸ ⟨rfl, .any⟩
    | none _ => exact List.mem_singleton.1 hm ▸ ⟨rfl, .unknown⟩
    | single ht _ =>
      rw [members_of_not_isUnion (hmember _ ht).1] at hm
      exact List.mem_singleton.1 hm ▸ hmember _ ht
    | union _ _ _ hmem => exact hmember m ((hmem m).1 hm)
  | list helement => exact fun m hm => List.mem_singleton.1 hm ▸ ⟨rfl, .list helement⟩
  | map hkey hvalue => exact fun m hm => List.mem_singleton.1 hm ▸ ⟨rfl, .map hkey hvalue⟩
  | record hnames hfields => exact fun m hm => List.mem_singleton.1 hm ▸ ⟨rfl, .record hnames hfields⟩
  | proto name hnames hfields =>
    exact fun m hm => List.mem_singleton.1 hm ▸ ⟨rfl, .proto name hnames hfields⟩
  | _ => exact fun m hm => List.mem_singleton.1 hm ▸ ⟨rfl, by constructor⟩

theorem Built.areMembers {ms : List Ty} (h : Built (.union ms)) : AreMembers ms := by
  have hflat : ∀ m ∈ ms, m.isUnion = false := fun m hm => (h.of_mem_members m hm).1
  generalize hunion : Ty.union ms = t at h
  cases h with
  | join htypes =>
    rename_i types
    have hjoined := joined types
    rw [← hunion] at hjoined
    cases hjoined with
    | single ht _ =>
      obtain ⟨t, htypes', hmem⟩ := List.mem_flatMap.1 ht
      cases ((htypes t htypes').of_mem_members _ hmem).1
    | union htwo hascending hany _ => exact ⟨htwo, hascending, hany, hflat⟩
  | _ => cases hunion

theorem Built.members_ne_nil {t : Ty} (h : Built t) : t.members ≠ [] := by
  cases t with
  | union ms =>
    rintro rfl
    exact absurd h.areMembers.two_le (by decide)
  | _ => exact List.cons_ne_nil _ _

theorem Built.eq_of_any_mem {t : Ty} (h : Built t) (hany : .any ∈ t.members) : t = .any := by
  cases t with
  | union ms => exact absurd hany h.areMembers.any_not_mem
  | _ => exact (List.mem_singleton.1 hany).symm

/-- What brings nothing but one type to a union is that type. -/
theorem Built.eq_of_members_eq {s t : Ty} (h : Built s) (hall : ∀ m ∈ s.members, m = t) : s = t := by
  cases s with
  | union ms => exact absurd hall (h.areMembers.not_all_eq t)
  | _ => exact hall _ List.mem_cons_self

end Ty

end Stencil
