/-
  Stencil/Proofs/Ty/RoundTrip.lean
  ================================
  **Types are read back from their text.**

  In a registry that was made by registering protos and asking for types, a name
  stands for a type that is written like the name (`Made.names`).  So a type that
  was read is one that a type expression can denote, and reading its text gives it
  again and remembers no further union (`read_text_of_read`).
-/
import Stencil.Proofs.Compiler.Reading
import Stencil.Proofs.Ty.ReadBack

namespace Stencil

namespace Ty

theorem names_builtin? : Names builtin? := by
  intro name t h
  unfold builtin? at h
  split at h
  case h_8 =>
    split at h
    · cases h
    · rename_i kind _ hkind
      rw [ContentKind.ofName?] at hkind
      have hname := List.find?_some hkind
      cases h
      exact ⟨rfl, congrArg String.toList (beq_iff_eq.1 hname)⟩
    · cases h
  all_goals
    cases h
    exact ⟨rfl, rfl⟩

end Ty

namespace TypeRegistry

/-- The registries there are: the empty one, and one with a proto registered or a union
    remembered. -/
inductive Made : TypeRegistry → Prop
  | empty : Made {}
  | register {registry : TypeRegistry} (h : Made registry) (name : String) (fields : Fields) :
      Made (registry.register name fields)
  | remember {registry : TypeRegistry} (h : Made registry) (ty : Ty) : Made (registry.remember ty)

theorem Made.lookup_eq_some {registry : TypeRegistry} (h : registry.Made) {name : String} {t : Ty}
    (hlookup : registry.protos.lookup name = some t) : ∃ fields, t = .proto name fields := by
  induction h with
  | empty => cases hlookup
  | register _ other fields ih =>
    rw [TypeRegistry.register, List.lookup_cons] at hlookup
    split at hlookup
    · rename_i heq
      cases hlookup
      exact ⟨fields, by rw [beq_iff_eq.1 heq]⟩
    · exact ih hlookup
  | remember _ ty ih =>
    rw [protos_remember] at hlookup
    exact ih hlookup

theorem Made.names {registry : TypeRegistry} (h : registry.Made) : Ty.Names registry.find? := by
  intro name t hfind
  unfold find? at hfind
  split at hfind
  · rename_i hbuiltin
    cases hfind
    exact Ty.names_builtin? _ _ hbuiltin
  · obtain ⟨fields, rfl⟩ := h.lookup_eq_some hfind
    exact ⟨rfl, rfl⟩

/-! ### The unions that a registry remembers -/

variable {registry : TypeRegistry} {types : List Ty}

theorem remember_eq_self {t : Ty} (h : ∀ ms, t = .union ms → ms ∈ registry.unions) :
    registry.remember t = registry := by
  unfold remember
  split
  · rename_i ms
    rw [intern]
    split
    · rfl
    · rename_i hlookup
      exact absurd hlookup (mem_unions_iff.1 (h ms rfl))
  · rfl

theorem mem_unions_foldr {ms : List Ty} :
    ms ∈ (types.foldr (fun t r => r.remember t) registry).unions ↔
      .union ms ∈ types ∨ ms ∈ registry.unions := by
  induction types with
  | nil => simp
  | cons t rest ih =>
    rw [List.foldr_cons, mem_unions_remember, ih, List.mem_cons, or_assoc, eq_comm]

theorem foldr_remember_eq_self (h : ∀ ms, .union ms ∈ types → ms ∈ registry.unions) :
    types.foldr (fun t r => r.remember t) registry = registry := by
  induction types with
  | nil => rfl
  | cons t rest ih =>
    rw [List.foldr_cons, ih fun ms hms => h ms (List.mem_cons_of_mem _ hms)]
    exact remember_eq_self fun ms ht => h ms (ht ▸ List.mem_cons_self)

/-! ### Reading -/

variable {source : List Char} {ty : Ty}

/-- A type that was read is read again from its text, and of the unions that this builds
    none is new. -/
theorem exists_runs_text (hregistry : registry.Made) {built : List Ty}
    (h : Runs (Ty.Reader.readAll registry.find? Ty.Reader.listing source) [] ty built) :
    ∃ again, Runs (Ty.Reader.readAll registry.find? Ty.Reader.listing ty.text.toList) [] ty again ∧
      again ⊆ built := by
  obtain ⟨tokens, htype, -⟩ := Ty.Reader.exists_isType_of_runs_readAll h
  have hdenoted := Ty.denoted_of_isType hregistry.names htype
  obtain ⟨again, hagain, hbuilt⟩ := Ty.Reader.reads_chars hregistry.names hdenoted []
  refine ⟨again, ?_, fun u hu => (hbuilt u hu).resolve_left (List.not_mem_nil)⟩
  rwa [Ty.text, String.toList_ofList]

/-- **Types are read back from their text.**  With the same protos, the text of a type that
    was read is read as this type; no union is remembered that reading the type would not
    have remembered, so none at all once it was read.  Types that were read and are
    written alike are the same. -/
theorem read_text_of_read (hregistry : registry.Made) (h : (registry.read source).1 = .ok ty) :
    (∀ other, SameProtos registry other →
      (other.read ty.text.toList).1 = .ok ty ∧
        (other.read ty.text.toList).2.unions ⊆ (other.read source).2.unions) ∧
    ((registry.read source).2.read ty.text.toList).2 = (registry.read source).2 ∧
    ∀ source' ty', (registry.read source').1 = .ok ty' → ty'.text = ty.text → ty' = ty := by
  obtain ⟨built, hruns, hafter⟩ := exists_runs_of_read h
  obtain ⟨again, hagain, hsubset⟩ := exists_runs_text hregistry hruns
  refine ⟨fun other hother => ?_, ?_, fun source' ty' h' htext => ?_⟩
  · rw [find?_eq hother] at hruns hagain
    rw [read_of_runs hruns, read_of_runs hagain]
    refine ⟨rfl, fun ms hms => ?_⟩
    rcases mem_unions_foldr.1 hms with hms | hms
    · exact mem_unions_foldr.2 (.inl (hsubset hms))
    · exact mem_unions_foldr.2 (.inr hms)
  · have hsame : SameProtos registry (registry.read source).2 := fun name => by rw [protos_read]
    rw [find?_eq hsame] at hagain
    rw [read_of_runs hagain]
    refine foldr_remember_eq_self fun ms hms => ?_
    rw [hafter]
    exact mem_unions_foldr.2 (.inl (hsubset hms))
  · obtain ⟨built', hruns', -⟩ := exists_runs_of_read h'
    obtain ⟨again', hagain', -⟩ := exists_runs_text hregistry hruns'
    rw [htext] at hagain'
    have hboth := (read_of_runs hagain').symm.trans (read_of_runs hagain)
    exact Except.ok.inj (congrArg Prod.fst hboth)

/-- A record with a proto and with a union inside another, written in no particular order. -/
theorem read_text_of_read_records :
    let registry := ({} : TypeRegistry).register "acme.Person" [("name", .string)]
    let source := "[who:acme.Person|null, by : map< string,list<null|int|js> >|null|?]".toList
    ∃ ty, registry.Made ∧ (registry.read source).1 = .ok ty ∧
      ty.text = "[by: ?|map<string, list<int|js|null>>|null, who: acme.Person|null]" ∧
      (registry.read ty.text.toList).1 = .ok ty ∧
      ((registry.read source).2.read ty.text.toList).2 = (registry.read source).2 := by
  intro registry source
  have hregistry : registry.Made := Made.empty.register "acme.Person" [("name", .string)]
  have hread : (registry.read source).1.toOption.any fun ty =>
      ty.text = "[by: ?|map<string, list<int|js|null>>|null, who: acme.Person|null]" := by
    decide +kernel
  obtain ⟨ty, hread, htext⟩ := any_toOption.1 hread
  obtain ⟨hsame, hafter, -⟩ := read_text_of_read hregistry hread
  exact ⟨ty, hregistry, hread, of_decide_eq_true htext, (hsame registry fun _ => rfl).1, hafter⟩

end TypeRegistry

end Stencil
