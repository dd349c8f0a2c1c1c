/-
  Stencil/Proofs/Ty/Assignable.lean
  =================================
  **What declared types accept.**

  Every type accepts itself, and what accepts a type accepts all that this type
  accepts (`accepts_preorder`).  A declared union goes through the members of the
  source (`accepts_union_iff`).  No other type does: a source that is a union is
  accepted by `any`, `?` and unions only, even where each of its members would be
  (`accepts_union_types_iff`).
-/
import Stencil.Proofs.Ty.Built
import Stencil.Proofs.Ty.Registry
import Stencil.Ty.Assignable

namespace Stencil.Ty

/-! ### Targets of several parts -/

theorem anyAccepts_iff {targets : List Ty} {source : Ty} :
    anyAccepts targets source = true ↔ ∃ t ∈ targets, t.accepts source = true := by
  induction targets with
  | nil => simp
  | cons t rest ih => simp [ih]

theorem acceptsFields_iff {fields source : Fields} :
    acceptsFields fields source = true ↔
      ∀ f ∈ fields, ∃ ty, Fields.type? source f.1 = some ty ∧ f.2.accepts ty = true := by
  induction fields with
  | nil => simp
  | cons f rest ih =>
    rw [acceptsFields_cons, Bool.and_eq_true, ih, List.forall_mem_cons]
    refine and_congr_left' ?_
    cases Fields.type? source f.1 <;> simp

/-- A union accepts a source when it accepts each of the source's members. -/
theorem accepts_union_iff {targets : List Ty} {source : Ty} :
    (union targets).accepts source = true ↔
      ∀ m ∈ source.members, ∃ t ∈ targets, t.accepts m = true := by
  cases source with
  | union sources => simp only [union_accepts_union, List.all_eq_true, anyAccepts_iff, members]
  | _ =>
    simp only [members, List.forall_mem_singleton]
    exact anyAccepts_iff

theorem accepts_record_iff {fields : Fields} {source : Ty} :
    (record fields).accepts source = true ↔
      ∃ sourceFields, source = .record sourceFields ∧ acceptsFields fields sourceFields = true := by
  cases source with
  | record sourceFields =>
    exact ⟨fun h => ⟨sourceFields, rfl, h⟩, fun ⟨_, heq, h⟩ => Ty.record.inj heq ▸ h⟩
  | _ => exact ⟨nofun, fun ⟨_, heq, _⟩ => nomatch heq⟩

theorem accepts_list_iff {element source : Ty} :
    (list element).accepts source = true ↔
      ∃ sourceElement, source = .list sourceElement ∧ element.accepts sourceElement = true := by
  cases source with
  | list sourceElement =>
    exact ⟨fun h => ⟨sourceElement, rfl, h⟩, fun ⟨_, heq, h⟩ => Ty.list.inj heq ▸ h⟩
  | _ => exact ⟨nofun, fun ⟨_, heq, _⟩ => nomatch heq⟩

theorem accepts_map_iff {key value source : Ty} :
    (map key value).accepts source = true ↔
      ∃ sourceKey sourceValue, source = .map sourceKey sourceValue ∧
        key.accepts sourceKey = true ∧ value.accepts sourceValue = true := by
  cases source with
  | map sourceKey sourceValue =>
    constructor
    · exact fun h => ⟨sourceKey, sourceValue, rfl, (Bool.and_eq_true _ _).mp h⟩
    · rintro ⟨_, _, heq, h⟩
      cases heq
      exact (Bool.and_eq_true _ _).mpr h
  | _ => exact ⟨nofun, fun ⟨_, _, heq, _⟩ => nomatch heq⟩

theorem accepts_proto_iff {name : String} {fields : Fields} {source : Ty} :
    (proto name fields).accepts source = true ↔
      ∃ sourceFields, source = .proto name sourceFields := by
  cases source with
  | proto sourceName sourceFields =>
    rw [proto_accepts_proto, beq_iff_eq]
    exact ⟨fun h => ⟨sourceFields, by rw [h]⟩, fun ⟨_, h⟩ => (Ty.proto.inj h).1.symm⟩
  | _ => exact ⟨nofun, fun ⟨_, heq⟩ => nomatch heq⟩

theorem accepts_string_iff {source : Ty} :
    string.accepts source = true ↔ source = .string ∨ ∃ kind, source = .sanitized kind := by
  cases source with
  | string => exact ⟨fun _ => .inl rfl, fun _ => rfl⟩
  | sanitized kind => exact ⟨fun _ => .inr ⟨kind, rfl⟩, fun _ => rfl⟩
  | _ => exact ⟨nofun, by rintro (heq | ⟨_, heq⟩) <;> cases heq⟩

/-! ### What accepts unions -/

/-- The types that may accept a union. -/
def takesUnions : Ty → Bool
  | .any | .unknown | .union _ => true
  | _ => false

theorem isUnion_eq_false_of_accepts {target source : Ty} (htarget : target.takesUnions = false)
    (h : target.accepts source = true) : source.isUnion = false := by
  cases source with
  | union sources =>
    cases target with
    | any | unknown | union => cases htarget
    | _ => cases h
  | _ => rfl

/-- A type that takes unions looks at nothing but the members of the source. -/
theorem accepts_iff_members {target source : Ty} (htarget : target.takesUnions = true)
    (hflat : ∀ m ∈ source.members, m.isUnion = false) :
    target.accepts source = true ↔ ∀ m ∈ source.members, target.accepts m = true := by
  cases target with
  | any | unknown => exact ⟨fun _ _ _ => rfl, fun _ => rfl⟩
  | union targets =>
    rw [accepts_union_iff]
    refine forall₂_congr fun m hm => ?_
    rw [accepts_union_iff, members_of_not_isUnion (hflat m hm), List.forall_mem_singleton]
  | _ => cases htarget

/-! ### What a type accepts is a preorder -/

theorem accepts_self_of_members {t : Ty} (h : ∀ m ∈ t.members, m.accepts m = true) :
    t.accepts t = true := by
  cases t with
  | union ms => exact accepts_union_iff.2 fun m hm => ⟨m, hm, h m hm⟩
  | _ => exact h _ List.mem_cons_self

theorem Built.accepts_members {t : Ty} (h : Built t) : ∀ m ∈ t.members, m.accepts m = true := by
  induction h with
  | join htypes ih =>
    rename_i types
    have hmember : ∀ m ∈ types.flatMap members, m.isUnion = false ∧ m.accepts m = true := by
      intro m hm
      obtain ⟨t, ht, hm⟩ := List.mem_flatMap.1 hm
      exact ⟨((htypes t ht).of_mem_members m hm).1, ih t ht m hm⟩
    have hjoined := joined types
    generalize Ty.join types = joint at hjoined
    intro m hm
    cases hjoined with
    | any _ | none _ => exact List.mem_singleton.1 hm ▸ rfl
    | single ht _ =>
      rw [members_of_not_isUnion (hmember _ ht).1] at hm
      exact List.mem_singleton.1 hm ▸ (hmember _ ht).2
    | union _ _ _ hmem => exact (hmember m ((hmem m).1 hm)).2
  | list _ ih =>
    refine List.forall_mem_singleton.2 (accepts_list_iff.2 ⟨_, rfl, ?_⟩)
    exact accepts_self_of_members ih
  | map _ _ ihkey ihvalue =>
    refine List.forall_mem_singleton.2 (accepts_map_iff.2 ⟨_, _, rfl, ?_, ?_⟩)
    · exact accepts_self_of_members ihkey
    · exact accepts_self_of_members ihvalue
  | record hnames _ ih =>
    refine List.forall_mem_singleton.2 (accepts_record_iff.2 ⟨_, rfl, ?_⟩)
    exact acceptsFields_iff.2 fun f hf =>
      ⟨f.2, Fields.type?_eq_of_mem hnames hf, accepts_self_of_members (ih f hf)⟩
  | proto name _ _ _ => exact List.forall_mem_singleton.2 (accepts_proto_iff.2 ⟨_, rfl⟩)
  | sanitized kind =>
    exact List.forall_mem_singleton.2 (by rw [sanitized_accepts, beq_self_eq_true])
  | _ => exact List.forall_mem_singleton.2 rfl

/-- The union of some types accepts each of their members. -/
theorem join_accepts_of_mem {types : List Ty} {t : Ty} (ht : t ∈ types.flatMap members)
    (hflat : t.isUnion = false) (hself : t.accepts t = true) : (join types).accepts t = true := by
  have hjoined := joined types
  generalize join types = joint at hjoined
  cases hjoined with
  | any _ => rfl
  | none hnone =>
    rw [hnone] at ht
    cases ht
  | single _ hall => exact hall t ht ▸ hself
  | union _ _ _ hmem =>
    refine accepts_union_iff.2 fun m hm => ⟨t, (hmem t).2 ht, ?_⟩
    rw [members_of_not_isUnion hflat, List.mem_singleton] at hm
    exact hm ▸ hself

theorem accepts_members {target source : Ty} (h : target.accepts source = true) :
    ∀ m ∈ source.members, ∃ t ∈ target.members, t.accepts m = true := by
  cases target with
  | any | unknown => exact fun m _ => ⟨_, List.mem_cons_self, rfl⟩
  | union targets => exact accepts_union_iff.1 h
  | _ =>
    rw [members_of_not_isUnion (isUnion_eq_false_of_accepts rfl h)]
    exact List.forall_mem_singleton.2 ⟨_, List.mem_cons_self, h⟩

/-- What accepts a type accepts all that the type accepts. -/
theorem accepts_trans : (a b c : Ty) → a.accepts b = true → b.accepts c = true →
    a.accepts c = true
  | .any, _, _, _, _ | .unknown, _, _, _, _ => rfl
  | .union targets, b, c, hab, hbc => by
    refine accepts_union_iff.2 fun m hm => ?_
    obtain ⟨s, hs, hsm⟩ := accepts_members hbc m hm
    obtain ⟨t, ht, hts⟩ := accepts_union_iff.1 hab s hs
    exact ⟨t, ht, accepts_trans t s m hts hsm⟩
  | .null, b, c, hab, hbc | .bool, b, c, hab, hbc | .int, b, c, hab, hbc
  | .float, b, c, hab, hbc | .sanitized _, b, c, hab, hbc => (beq_iff_eq.1 hab) ▸ hbc
  | .string, b, c, hab, hbc => by
    rcases accepts_string_iff.1 hab with rfl | ⟨kind, rfl⟩
    · exact hbc
    · rw [sanitized_accepts, beq_iff_eq] at hbc
      exact accepts_string_iff.2 (.inr ⟨kind, hbc⟩)
  | .list element, b, c, hab, hbc => by
    obtain ⟨midElement, rfl, hab⟩ := accepts_list_iff.1 hab
    obtain ⟨sourceElement, rfl, hbc⟩ := accepts_list_iff.1 hbc
    exact accepts_list_iff.2 ⟨_, rfl, accepts_trans element _ _ hab hbc⟩
  | .map key value, b, c, hab, hbc => by
    obtain ⟨midKey, midValue, rfl, hkey, hvalue⟩ := accepts_map_iff.1 hab
    obtain ⟨sourceKey, sourceValue, rfl, hkey', hvalue'⟩ := accepts_map_iff.1 hbc
    exact accepts_map_iff.2 ⟨_, _, rfl, accepts_trans key _ _ hkey hkey',
      accepts_trans value _ _ hvalue hvalue'⟩
  | .record fields, b, c, hab, hbc => by
    obtain ⟨midFields, rfl, hab⟩ := accepts_record_iff.1 hab
    obtain ⟨sourceFields, rfl, hbc⟩ := accepts_record_iff.1 hbc
    refine accepts_record_iff.2 ⟨_, rfl, acceptsFields_iff.2 fun f hf => ?_⟩
    obtain ⟨midTy, hmid, hab⟩ := acceptsFields_iff.1 hab f hf
    obtain ⟨sourceTy, hsource, hbc⟩ := acceptsFields_iff.1 hbc _ (Fields.mem_of_type?_eq_some hmid)
    have hsize := Fields.sizeOf_lt_of_mem hf
    exact ⟨sourceTy, hsource, accepts_trans f.2 _ _ hab hbc⟩
  | .proto name fields, b, c, hab, hbc => by
    obtain ⟨midFields, rfl⟩ := accepts_proto_iff.1 hab
    exact accepts_proto_iff.2 (accepts_proto_iff.1 hbc)
termination_by a => sizeOf a

/-- **What a type accepts is a preorder.**  Every type that can be built accepts
    itself, and what accepts a type accepts all that this type accepts. -/
theorem accepts_preorder :
    (∀ a : Ty, a.Built → a.accepts a = true) ∧
      ∀ a b c : Ty, a.accepts b = true → b.accepts c = true → a.accepts c = true :=
  ⟨fun _ ha => accepts_self_of_members ha.accepts_members, accepts_trans⟩

/-- A record, one with fewer fields and a wider union, and one with a union that is
    open to everything. -/
theorem accepts_preorder_records :
    let narrow := record [("a", list (join [.sanitized .html, .null])), ("b", proto "p" [])]
    let wide := record [("a", list (join [.null, .string, .int]))]
    let unbounded := record [("a", list (join [.unknown, .null]))]
    narrow.Built ∧ narrow.accepts narrow = true ∧ unbounded.accepts wide = true ∧
      wide.accepts narrow = true ∧ unbounded.accepts narrow = true := by
  intro narrow wide unbounded
  have hnarrow : narrow.Built := by
    have hunion : Built (join [.sanitized .html, .null]) :=
      .join (List.forall_mem_cons.2 ⟨.sanitized .html, List.forall_mem_singleton.2 .null⟩)
    have hproto : Built (proto "p" []) := .proto "p" .nil fun _ hf => nomatch hf
    exact .record (by decide)
      (List.forall_mem_cons.2 ⟨.list hunion, List.forall_mem_singleton.2 hproto⟩)
  exact ⟨hnarrow, accepts_preorder.1 narrow hnarrow, by decide, by decide,
    accepts_preorder.2 unbounded wide narrow (by decide) (by decide)⟩

/-! ### Sources that are unions -/

/-- **When a union is accepted.**  The union of some types is accepted exactly if each
    of the types is and, unless joining them gives no union, the declared type is
    one that takes unions. -/
theorem accepts_union_types_iff (registry : TypeRegistry) {types : List Ty} (hne : types ≠ [])
    (hbuilt : ∀ s ∈ types, s.Built) (target : Ty) :
    target.accepts (registry.union types).1 = true ↔
      (∀ s ∈ types, target.accepts s = true) ∧
        ((registry.union types).1.isUnion = true → target.takesUnions = true) := by
  rw [TypeRegistry.union_eq]
  dsimp only
  have hflat : ∀ s ∈ types, ∀ m ∈ s.members, m.isUnion = false :=
    fun s hs m hm => ((hbuilt s hs).of_mem_members m hm).1
  have hjoined := joined types
  generalize join types = joint at hjoined
  cases hjoined with
  | any hany =>
    obtain ⟨s, hs, hany⟩ := List.mem_flatMap.1 hany
    constructor
    · exact fun h => ⟨fun s _ => accepts_trans target .any s h rfl, fun h => nomatch h⟩
    · exact fun h => (hbuilt s hs).eq_of_any_mem hany ▸ h.1 s hs
  | none hnone =>
    obtain ⟨s, hs⟩ := List.exists_mem_of_ne_nil types hne
    exact absurd (List.flatMap_eq_nil_iff.1 hnone s hs) (hbuilt s hs).members_ne_nil
  | single ht hall =>
    obtain ⟨s, hs, ht⟩ := List.mem_flatMap.1 ht
    have heq : ∀ s ∈ types, s = joint := fun s hs =>
      (hbuilt s hs).eq_of_members_eq fun m hm => hall m (List.mem_flatMap.2 ⟨s, hs, hm⟩)
    constructor
    · refine fun h => ⟨fun s hs => heq s hs ▸ h, fun hunion => ?_⟩
      rw [hflat s hs joint ht] at hunion
      cases hunion
    · exact fun h => heq s hs ▸ h.1 s hs
  | @union ms _ _ _ hmem =>
    have hmembers : ∀ m ∈ ms, m.isUnion = false := by
      intro m hm
      obtain ⟨s, hs, hm⟩ := List.mem_flatMap.1 ((hmem m).1 hm)
      exact hflat s hs m hm
    cases htarget : target.takesUnions with
    | false =>
      refine ⟨fun h => ?_, fun h => nomatch h.2 rfl⟩
      cases isUnion_eq_false_of_accepts htarget h
    | true =>
      rw [@accepts_iff_members target (.union ms) htarget hmembers, and_iff_left fun _ => rfl]
      change (∀ m ∈ ms, _) ↔ _
      constructor
      · exact fun h s hs => (accepts_iff_members htarget (hflat s hs)).2 fun m hm =>
          h m ((hmem m).2 (List.mem_flatMap.2 ⟨s, hs, hm⟩))
      · intro h m hm
        obtain ⟨s, hs, hm⟩ := List.mem_flatMap.1 ((hmem m).1 hm)
        exact (accepts_iff_members htarget (hflat s hs)).1 (h s hs) m hm

/-- Content of two kinds, or none, where a string or nothing is declared. -/
theorem accepts_union_types_iff_content :
    let types := [sanitized .html, join [.sanitized .js, .null]]
    let target := join [.string, .null]
    types ≠ [] ∧ (∀ s ∈ types, s.Built) ∧
      (target.accepts (({} : TypeRegistry).union types).1 = true ↔
        (∀ s ∈ types, target.accepts s = true) ∧
          ((({} : TypeRegistry).union types).1.isUnion = true → target.takesUnions = true)) := by
  intro types target
  have hbuilt : ∀ s ∈ types, s.Built := by
    have hunion : Built (join [.sanitized .js, .null]) :=
      .join (List.forall_mem_cons.2 ⟨.sanitized .js, List.forall_mem_singleton.2 .null⟩)
    exact List.forall_mem_cons.2 ⟨.sanitized .html, List.forall_mem_singleton.2 hunion⟩
  exact ⟨List.cons_ne_nil _ _, hbuilt, accepts_union_types_iff {} (List.cons_ne_nil _ _) hbuilt target⟩

/-- Content of two kinds may stand where a string is declared, each by itself, but not
    the union of the two; it may where a string or null is declared. -/
theorem string_refuses_union_of_content :
    let contents := [sanitized .html, sanitized .js]
    contents ≠ [] ∧ (∀ s ∈ contents, s.Built) ∧ (∀ s ∈ contents, string.accepts s = true) ∧
      string.accepts (({} : TypeRegistry).union contents).1 = false ∧
      (join [.string, .null]).accepts (({} : TypeRegistry).union contents).1 = true := by
  intro contents
  have hbuilt : ∀ s ∈ contents, s.Built :=
    List.forall_mem_cons.2 ⟨.sanitized .html, List.forall_mem_singleton.2 (.sanitized .js)⟩
  exact ⟨List.cons_ne_nil _ _, hbuilt, by decide, by decide, by decide⟩

end Stencil.Ty
