/-
  Stencil/Proofs/Ty/Interning.lean
  ================================
  **The unions that a registry keeps.**

  Protos are registered, names looked up, unions asked for and texts read, in
  any order and also where a text is refused.  At every moment a registry keeps
  exactly the unions that were asked for so far, each once
  (`Interns.afterAll`).  So what it answers does not depend on its history, it
  keeps as many unions as different sets of members were asked for, and asking
  again changes nothing (`unions_after_calls`).
-/
import Stencil.Proofs.Ty.Reading
import Stencil.Proofs.Ty.RoundTrip
import Stencil.Proofs.Ty.Unions

namespace Stencil

open Ty (Built memberSet MakeUnion AreMembers)

namespace TypeRegistry

/-! ### Calls of a registry -/

/-- What can be asked of a registry. -/
inductive Call where
  | register (name : String) (fields : Fields)
  | find (name : String)
  | union (types : List Ty)
  | read (source : List Char)

/-- The types in the call are built. -/
def Call.IsProper : Call → Prop
  | register _ fields => Ty.Reader.AreFields Built fields
  | union types => ∀ t ∈ types, Built t
  | find _ | read _ => True

/-- The registry after a call. -/
def after (registry : TypeRegistry) : Call → TypeRegistry
  | .register name fields => registry.register name fields
  | .find _ => registry
  | .union types => (registry.union types).2
  | .read source => (registry.read source).2

/-- The unions that a call asks for, each by types to be joined, the latest first.  A text
    asks for the unions of its alternatives, as far as it is read. -/
def asks (registry : TypeRegistry) : Call → List (List Ty)
  | .union types => [types]
  | .read source => ((Ty.Reader.readAll registry.find? Ty.Reader.listing source).run.run []).2.map Ty.members
  | .register _ _ | .find _ => []

/-- The registry after several calls. -/
def afterAll (registry : TypeRegistry) (calls : List Call) : TypeRegistry :=
  calls.foldl after registry

/-- The unions that several calls ask for, the latest first. -/
def asksAll (registry : TypeRegistry) : List Call → List (List Ty)
  | [] => []
  | call :: rest => asksAll (registry.after call) rest ++ registry.asks call

/-! ### What a registry keeps -/

/-- A registry of types that are built keeps exactly the unions that were asked for. -/
structure Interns (registry : TypeRegistry) (asked : List (List Ty)) : Prop where
  protos : ∀ p ∈ registry.protos, Built p.2
  built : ∀ types ∈ asked, ∀ t ∈ types, Built t
  nodup : registry.unions.Nodup
  mem_iff : ∀ ms, ms ∈ registry.unions ↔ ∃ types ∈ asked, Ty.join types = .union ms

namespace Interns

variable {registry : TypeRegistry} {asked : List (List Ty)} {types : List Ty}

theorem empty : Interns {} [] :=
  ⟨fun _ hp => (nomatch hp), fun _ h => (nomatch h), List.nodup_nil, fun ms => by simp [unions]⟩

/-- A name stands for a type that is built. -/
theorem find (h : Interns registry asked) {name : String} {t : Ty}
    (hfind : registry.find? name = some t) : Built t := by
  unfold find? at hfind
  split at hfind
  · rename_i hbuiltin
    cases hfind
    unfold Ty.builtin? at hbuiltin
    split at hbuiltin
    case h_8 =>
      split at hbuiltin
      · cases hbuiltin
      · cases hbuiltin
        exact .sanitized _
      · cases hbuiltin
    all_goals
      cases hbuiltin
      constructor
  · exact h.protos (name, t) (Fields.mem_of_type?_eq_some hfind)

/-- Names stand for types that are built, so what is read is built as well. -/
theorem inherits (h : Interns registry asked) : Ty.Reader.Inherits registry.find? Built :=
  ⟨.unknown, h.find, .list, .map, .record, .join⟩

/-- The union of some types is asked for. -/
theorem remember (h : Interns registry asked) (htypes : ∀ t ∈ types, Built t) :
    Interns (registry.remember (Ty.join types)) (types :: asked) := by
  refine ⟨?_, List.forall_mem_cons.2 ⟨htypes, h.built⟩, ?_, fun ms => ?_⟩
  · rw [protos_remember]
    exact h.protos
  · exact nodup_unions_remember h.nodup _
  · rw [mem_unions_remember, h.mem_iff, List.exists_mem_cons_iff]

/-- The unions that are built while a text is read are asked for. -/
theorem foldr (h : Interns registry asked) {built : List Ty} (hbuilt : ∀ t ∈ built, Built t) :
    Interns (built.foldr (fun t r => r.remember t) registry) (built.map Ty.members ++ asked) := by
  induction built with
  | nil => exact h
  | cons t rest ih =>
    obtain ⟨ht, hrest⟩ := List.forall_mem_cons.1 hbuilt
    have hmembers : ∀ m ∈ t.members, Built m := fun m hm => (ht.of_mem_members m hm).2
    have hremember := (ih hrest).remember hmembers
    rwa [Ty.join_members ht] at hremember

/-- What one call keeps. -/
theorem after (h : Interns registry asked) {call : Call} (hcall : call.IsProper) :
    Interns (registry.after call) (registry.asks call ++ asked) := by
  cases call with
  | register name fields =>
    refine ⟨List.forall_mem_cons.2 ⟨?_, h.protos⟩, h.built, h.nodup, h.mem_iff⟩
    exact .proto name hcall.1 hcall.2
  | find name => exact h
  | union types =>
    rw [TypeRegistry.after, union_eq]
    exact h.remember hcall
  | read source =>
    rw [TypeRegistry.after, read_eq]
    apply h.foldr
    exact (Ty.Reader.explains_readAll h.inherits source [] (List.forall_mem_nil _)).1

/-- What several calls keep. -/
theorem afterAll (h : Interns registry asked) {calls : List Call}
    (hcalls : ∀ call ∈ calls, call.IsProper) :
    Interns (registry.afterAll calls) (registry.asksAll calls ++ asked) := by
  induction calls generalizing registry asked with
  | nil => exact h
  | cons call rest ih =>
    obtain ⟨hcall, hrest⟩ := List.forall_mem_cons.1 hcalls
    rw [asksAll, List.append_assoc]
    exact ih (h.after hcall) hrest

theorem areMembers (h : Interns registry asked) {ms : List Ty} (hms : ms ∈ registry.unions) :
    AreMembers ms := by
  obtain ⟨types, htypes, hjoin⟩ := (h.mem_iff ms).1 hms
  have hbuilt := Built.join (h.built types htypes)
  rw [hjoin] at hbuilt
  exact hbuilt.areMembers

/-- A registry keeps as many unions as there are sets of members that make one among those
    that were asked for. -/
theorem unionCount_eq (h : Interns registry asked) :
    registry.unionCount = ((asked.map memberSet).toFinset.filter MakeUnion).card := by
  have hsets : (registry.unions.map List.toFinset).toFinset =
      (asked.map memberSet).toFinset.filter MakeUnion := by
    ext set
    rw [List.mem_toFinset, List.mem_map, Finset.mem_filter, List.mem_toFinset, List.mem_map]
    constructor
    · rintro ⟨ms, hms, rfl⟩
      obtain ⟨types, htypes, hjoin⟩ := (h.mem_iff ms).1 hms
      obtain ⟨-, hset, hmake⟩ := (Ty.join_eq_union_iff (h.built types htypes)).1 hjoin
      exact ⟨⟨types, htypes, hset.symm⟩, hset ▸ hmake⟩
    · rintro ⟨⟨types, htypes, rfl⟩, hmake⟩
      obtain ⟨ms, hjoin⟩ := Ty.exists_join_eq_union (h.built types htypes) hmake
      obtain ⟨-, hset, -⟩ := (Ty.join_eq_union_iff (h.built types htypes)).1 hjoin
      exact ⟨ms, (h.mem_iff ms).2 ⟨types, htypes, hjoin⟩, hset⟩
  have hnodup : (registry.unions.map List.toFinset).Nodup := by
    refine h.nodup.map_on fun ms hms ns hns heq => ?_
    apply (h.areMembers hms).ascending.eq_of_mem_iff (h.areMembers hns).ascending
    intro t
    rw [← List.mem_toFinset, heq, List.mem_toFinset]
  rw [← hsets, List.toFinset_card_of_nodup hnodup, List.length_map, unions, List.length_map]
  rfl

/-- What was asked for once is not kept a second time. -/
theorem union_eq_self (h : Interns registry asked) {types' : List Ty} (hasked : types' ∈ asked)
    (hset : memberSet types' = memberSet types) : (registry.union types).2 = registry := by
  rw [union_eq]
  apply remember_eq_self
  intro ms hms
  rw [h.mem_iff]
  exact ⟨types', hasked, (Ty.join_congr hset).trans hms⟩

end Interns

/-- **Unions are built from sets of members, over the whole life of a registry.**  After
    any calls, what types are joined to depends on the set of their members and on nothing
    else, neither on the registry nor on the calls before; only `any` hides the others.
    Joining what was joined is joining all of it.  Every union that is kept has two members
    or more, none of them a union or `any`; there are as many as there are sets of such
    members that were asked for, and asking for one of these sets again keeps nothing new. -/
theorem unions_after_calls (calls : List Call) (hcalls : ∀ call ∈ calls, call.IsProper) :
    let registry := ({} : TypeRegistry).afterAll calls
    let asked := ({} : TypeRegistry).asksAll calls
    (∀ (other : TypeRegistry) (xs ys : List Ty), xs ≠ [] → (∀ t ∈ xs, Built t) → ys ≠ [] →
      (∀ t ∈ ys, Built t) → ((registry.union xs).1 = (other.union ys).1 ↔
        memberSet xs = memberSet ys ∨ .any ∈ memberSet xs ∧ .any ∈ memberSet ys)) ∧
    (∀ xs ys : List Ty, xs ≠ [] → (∀ t ∈ xs, Built t) → ys ≠ [] → (∀ t ∈ ys, Built t) →
      let later := (registry.union xs).2.union ys
      (later.2.union [(registry.union xs).1, later.1]).1 = (registry.union (xs ++ ys)).1) ∧
    (∀ ms ∈ registry.unions, AreMembers ms) ∧
    registry.unionCount = ((asked.map memberSet).toFinset.filter MakeUnion).card ∧
    ∀ types ∈ asked, ∀ types' : List Ty, memberSet types = memberSet types' →
      (registry.union types').2 = registry := by
  intro registry asked
  have hinterns : Interns registry asked := by
    have h := Interns.empty.afterAll hcalls
    rwa [List.append_nil] at h
  refine ⟨?_, ?_, ?_, ?_, ?_⟩
  · intro other xs ys hxs hbuilt hys hbuilt'
    rw [union_eq, union_eq]
    exact Ty.join_eq_iff hxs hbuilt hys hbuilt'
  · intro xs ys hxs hbuilt hys hbuilt'
    have hparts : ∀ part ∈ [xs, ys], part ≠ [] ∧ ∀ t ∈ part, Built t :=
      List.forall_mem_cons.2 ⟨⟨hxs, hbuilt⟩, List.forall_mem_singleton.2 ⟨hys, hbuilt'⟩⟩
    have hjoin := Ty.join_map_join hparts
    rw [List.flatten_cons, List.flatten_singleton] at hjoin
    dsimp only
    rw [union_eq, union_eq, union_eq, union_eq]
    exact hjoin
  · exact fun ms hms => hinterns.areMembers hms
  · exact hinterns.unionCount_eq
  · exact fun types htypes types' hset => hinterns.union_eq_self htypes hset

/-- A proto is registered, a text is read that asks for two unions, one of them is asked for
    in another order, and a text is refused after it asked for the same again. -/
def unionCalls : List Call :=
  [.register "acme.Person" [("name", .string)], .read "list<int|null>|acme.Person|null".toList,
    .union [.null, .int, .null], .read "null|int >".toList]

theorem unions_after_calls_repeated : (∀ call ∈ unionCalls, call.IsProper) ∧
    (({} : TypeRegistry).asksAll unionCalls).length = 4 ∧
    (({} : TypeRegistry).afterAll unionCalls).unionCount = 2 ∧
    ∀ ms ∈ (({} : TypeRegistry).afterAll unionCalls).unions, AreMembers ms := by
  have hcalls : ∀ call ∈ unionCalls, call.IsProper := by
    have hfields : Ty.Reader.AreFields Built [("name", .string)] :=
      ⟨List.pairwise_singleton _ _, List.forall_mem_singleton.2 .string⟩
    have htypes : ∀ t ∈ [Ty.null, .int, .null], Built t := by
      rw [List.forall_mem_cons, List.forall_mem_cons, List.forall_mem_singleton]
      exact ⟨.null, .int, .null⟩
    rw [unionCalls, List.forall_mem_cons, List.forall_mem_cons, List.forall_mem_cons,
      List.forall_mem_singleton]
    exact ⟨hfields, trivial, htypes, trivial⟩
  obtain ⟨-, -, hmembers, -, -⟩ := unions_after_calls unionCalls hcalls
  exact ⟨hcalls, by decide +kernel, by decide +kernel, hmembers⟩

end TypeRegistry

end Stencil
