/-
  Stencil/Proofs/Ty/Denoted.lean
  ==============================
  **What a type expression can denote.**

  It denotes `?`, a type with a name, or a list, map, record or union of such
  types.  Its names are written with name characters and dots, the fields of its
  records stand in ascending order, and each of its unions is one that is known,
  since a union is built before it is denoted.
-/
import Mathlib.Data.String.Basic
import Stencil.Proofs.Ty.Built
import Stencil.Text.Identifier
import Stencil.Ty.Text

namespace Stencil

open Text (isNameStart isNamePart)

/-! ### Fields -/

namespace Fields

theorem mem_insert {name : String} {ty : Ty} {fields : Fields} {f : String × Ty}
    (h : f ∈ insert name ty fields) : f = (name, ty) ∨ f ∈ fields := by
  induction fields with
  | nil => exact .inl (List.mem_singleton.1 h)
  | cons first rest ih =>
    rw [insert] at h
    split_ifs at h
    · simpa using h
    · rcases List.mem_cons.1 h with rfl | h
      · exact .inl rfl
      · exact .inr (List.mem_cons_of_mem _ h)
    · rcases List.mem_cons.1 h with rfl | h
      · exact .inr List.mem_cons_self
      · exact (ih h).imp_right (List.mem_cons_of_mem _)

theorem Ascending.insert {fields : Fields} (h : fields.Ascending) (name : String) (ty : Ty) :
    (fields.insert name ty).Ascending := by
  induction fields with
  | nil => exact List.pairwise_singleton _ _
  | cons first rest ih =>
    obtain ⟨hfirst, hrest⟩ := List.pairwise_cons.1 h
    rw [Fields.insert]
    split_ifs with hlt heq
    · refine List.pairwise_cons.2 ⟨List.forall_mem_cons.2 ⟨hlt, ?_⟩, h⟩
      exact fun f hf => hlt.trans (hfirst f hf)
    · exact List.pairwise_cons.2 ⟨fun f hf => heq ▸ hfirst f hf, hrest⟩
    · have hgt : first.1 < name := lt_of_le_of_ne (not_lt.1 hlt) (Ne.symm heq)
      refine List.pairwise_cons.2 ⟨fun f hf => ?_, ih hrest⟩
      rcases mem_insert hf with rfl | hf
      · exact hgt
      · exact hfirst f hf

theorem perm_insert {fields : Fields} {name : String} (h : type? fields name = none) (ty : Ty) :
    (insert name ty fields).Perm ((name, ty) :: fields) := by
  induction fields with
  | nil => exact List.Perm.refl _
  | cons first rest ih =>
    rw [type?, List.lookup_cons] at h
    rw [insert]
    split_ifs with hlt heq
    · exact List.Perm.refl _
    · rw [heq, beq_self_eq_true] at h
      cases h
    · rw [beq_false_of_ne heq] at h
      exact ((ih h).cons first).trans (List.Perm.swap _ _ _)

variable {fields fields' before after : Fields} {f : String × Ty}

theorem Ascending.eq_of_perm (h : fields.Ascending) (h' : fields'.Ascending)
    (hperm : fields.Perm fields') : fields = fields' :=
  hperm.eq_of_pairwise (fun _ _ _ _ hlt hgt => absurd hgt (String.lt_asymm hlt)) h h'

theorem Ascending.nodup_names (h : fields.Ascending) : (fields.map (·.1)).Nodup :=
  List.pairwise_map.2 (h.imp fun hlt => ne_of_lt hlt)

/-- The fields that make a record together with others have other names. -/
theorem type?_eq_none_of_perm (h : fields.Ascending) (hperm : fields.Perm (before ++ f :: after)) :
    type? before f.1 = none := by
  have hnodup := (hperm.map (·.1)).nodup_iff.1 h.nodup_names
  rw [List.map_append, List.map_cons] at hnodup
  refine List.lookup_eq_none_iff.2 fun g hg => bne_iff_ne.2 fun heq => ?_
  refine (List.disjoint_of_nodup_append hnodup) (List.mem_map_of_mem hg) ?_
  rw [← heq]
  exact List.mem_cons_self

end Fields

namespace Ty

/-! ### Names -/

/-- A run of name characters. -/
def IsSegment (cs : List Char) : Prop := cs ≠ [] ∧ ∀ c ∈ cs, isNamePart c

/-- Runs of characters, each after a dot. -/
def dotted (segments : List (List Char)) : List Char := segments.flatMap ('.' :: ·)

/-- How the name of a type is written: runs of name characters with dots between them,
    the first of which does not start with a digit. -/
def IsTypeName (cs : List Char) : Prop :=
  ∃ c head segments, cs = c :: head ++ dotted segments ∧ isNameStart c ∧
    (∀ d ∈ head, isNamePart d) ∧ ∀ s ∈ segments, IsSegment s

theorem IsTypeName.exists_cons {cs : List Char} (h : IsTypeName cs) :
    ∃ c left, cs = c :: left ∧ isNameStart c := by
  obtain ⟨c, head, segments, rfl, hc, -, -⟩ := h
  exact ⟨c, head ++ dotted segments, rfl, hc⟩

/-- A name stands for a type that is no union and is written like the name. -/
def Names (find? : String → Option Ty) : Prop :=
  ∀ name t, find? name = some t → t.isUnion = false ∧ t.chars = name.toList

/-- The types that a type expression can denote, given what names stand for and which
    unions are known. -/
inductive Denoted (find? : String → Option Ty) (known : List Ty) : Ty → Prop
  | unknown : Denoted find? known .unknown
  | named {name : String} {t : Ty} : IsTypeName name.toList → find? name = some t →
      Denoted find? known t
  | list {element : Ty} : Denoted find? known element → Denoted find? known (.list element)
  | map {key value : Ty} : Denoted find? known key → Denoted find? known value →
      Denoted find? known (.map key value)
  | record {fields : Fields} : fields.Ascending → (∀ f ∈ fields, IsSegment f.1.toList) →
      (∀ f ∈ fields, Denoted find? known f.2) → Denoted find? known (.record fields)
  | union {ms : List Ty} : AreMembers ms → .union ms ∈ known →
      (∀ m ∈ ms, Denoted find? known m) → Denoted find? known (.union ms)

variable {find? : String → Option Ty} {known : List Ty}

/-- An alternative that has been read: no union, and denoted. -/
structure IsAlternative (find? : String → Option Ty) (known : List Ty) (t : Ty) : Prop where
  flat : t.isUnion = false
  denoted : Denoted find? known t

/-- Alternatives that are joined denote a type, once the joint type is known. -/
theorem denoted_join {types : List Ty} (hne : types ≠ [])
    (htypes : ∀ t ∈ types, IsAlternative find? known t) (hknown : join types ∈ known) :
    Denoted find? known (join types) := by
  have hmem : ∀ m ∈ types.flatMap members, IsAlternative find? known m := by
    intro m hm
    obtain ⟨t, ht, hm⟩ := List.mem_flatMap.1 hm
    rw [members_of_not_isUnion (htypes t ht).flat] at hm
    exact List.mem_singleton.1 hm ▸ htypes t ht
  have hjoined := joined types
  generalize join types = joint at hjoined hknown
  cases hjoined with
  | any hany => exact (hmem _ hany).denoted
  | none hnone =>
    obtain ⟨t, ht⟩ := List.exists_mem_of_ne_nil types hne
    have hempty := List.flatMap_eq_nil_iff.1 hnone t ht
    rw [members_of_not_isUnion (htypes t ht).flat] at hempty
    cases hempty
  | single ht _ => exact (hmem _ ht).denoted
  | union htwo hascending hany hms =>
    refine .union ⟨htwo, hascending, hany, ?_⟩ hknown ?_
    · exact fun m hm => (hmem m ((hms m).1 hm)).flat
    · exact fun m hm => (hmem m ((hms m).1 hm)).denoted

end Ty

end Stencil
