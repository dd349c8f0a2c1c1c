/-
  Stencil/Proofs/Compiler/Reading.lean
  ====================================
  **What reading takes from a compiler.**

  Readers look names of types up in the registry, and they have it remember the
  unions that they build.  Looking up does not see the unions, and remembering
  does not touch the protos, so how a source is read depends on the protos that
  are registered and on nothing else (`steady_readSource`): not on the sources
  before it, and not on what was compiled before.
-/
import Stencil.Proofs.Build.File
import Stencil.Proofs.Ty.Registry

namespace Stencil

/-! ### The registry -/

namespace TypeRegistry

/-- Registries with the same protos under the same names. -/
def SameProtos (registry registry' : TypeRegistry) : Prop :=
  ∀ name, registry.protos.lookup name = registry'.protos.lookup name

theorem find?_eq {registry registry' : TypeRegistry} (h : SameProtos registry registry') :
    registry.find? = registry'.find? := by
  funext name
  rw [find?, h name, find?]

@[simp] theorem protos_read (registry : TypeRegistry) (source : List Char) :
    (registry.read source).2.protos = registry.protos := by
  have hfold : ∀ unions : List Ty,
      (unions.foldr (fun ty r => r.remember ty) registry).protos = registry.protos := by
    intro unions
    induction unions with
    | nil => rfl
    | cons ty rest ih => rw [List.foldr_cons, protos_remember, ih]
  rw [read_eq]
  exact hfold _

theorem read_fst_eq {registry registry' : TypeRegistry} (h : SameProtos registry registry')
    (source : List Char) : (registry.read source).1 = (registry'.read source).1 := by
  rw [read_eq, read_eq, find?_eq h]
  rfl

end TypeRegistry

open TypeRegistry (SameProtos)

/-! ### The readers -/

variable {registry : TypeRegistry}

namespace Header

theorem run_paramType_eq (optional : Bool) (source : List Char) (registry : TypeRegistry) :
    (paramType optional source).run.run registry =
      match registry.read source with
      | (.ok ty, registry) =>
        if optional then
          let (ty, registry) := registry.union [ty, .null]
          (.ok ty, registry)
        else (.ok ty, registry)
      | (.error e, registry) => (.error e, registry) := rfl

/-- A type is what its text says with the protos; one that is optional may also be
    null. -/
theorem run_paramType (optional : Bool) (source : List Char) (registry : TypeRegistry) :
    ((paramType optional source).run.run registry).1 =
        (registry.read source).1.map (fun ty => if optional then Ty.join [ty, .null] else ty) ∧
      ((paramType optional source).run.run registry).2.protos = registry.protos := by
  have hprotos := TypeRegistry.protos_read registry source
  rw [run_paramType_eq]
  cases hread : registry.read source with
  | mk outcome after =>
    rw [hread] at hprotos
    cases outcome with
    | error e => exact ⟨rfl, hprotos⟩
    | ok ty =>
      cases optional with
      | false => exact ⟨rfl, hprotos⟩
      | true =>
        dsimp only
        rw [if_pos rfl, TypeRegistry.union_eq]
        exact ⟨rfl, (TypeRegistry.protos_remember _ _).trans hprotos⟩

theorem steady_paramType (optional : Bool) (source : List Char) :
    Steady (SameProtos · registry) (paramType optional source) := by
  refine ⟨((paramType optional source).run.run registry).1, fun s hs => ?_⟩
  obtain ⟨hresult, hprotos⟩ := run_paramType optional source s
  rw [hresult, (run_paramType optional source registry).1, TypeRegistry.read_fst_eq hs]
  exact ⟨rfl, fun name => by rw [hprotos, hs name]⟩

theorem steady_readParam (tag : ParamTag) : Steady (SameProtos · registry) (readParam tag) := by
  rw [readParam]
  split
  · exact steady_throw _
  · exact steady_bind (steady_adapt (steady_paramType _ _) _) fun _ => steady_pure _

end Header

namespace RawTemplate

theorem steady_orFail {Cause α : Type} (f : Cause → TemplateCause)
    (result : Except (Fault Cause) α) : Steady (SameProtos · registry) (orFail f result) :=
  steady_mk _

theorem steady_read (scope : Scope) (raw : RawTemplate) :
    Steady (SameProtos · registry) (raw.read scope) := by
  have hopening : Steady (SameProtos · registry) (raw.readFromOpening scope) := by
    rw [readFromOpening_eq]
    refine steady_bind (steady_orFail _ _) fun scanned => ?_
    refine steady_bind (steady_orFail _ _) fun info => ?_
    obtain ⟨tags, tokens⟩ := Header.splitParamTags none scanned.tokens
    refine steady_bind (steady_adapt (steady_mapM Header.steady_readParam _) _) fun params => ?_
    refine steady_bind (steady_orFail _ _) fun info => ?_
    exact steady_bind (steady_orFail _ _) fun body => steady_pure _
  exact steady_bind (steady_adapt hopening _) fun template => steady_pure _

end RawTemplate

namespace File

theorem Reader.steady_addTemplate (r : Reader Nat) (raw : RawTemplate) :
    Steady (SameProtos · registry) (r.addTemplate readTemplate raw) := by
  rw [addTemplate]
  split
  · exact steady_throw _
  · exact steady_bind (steady_adapt (RawTemplate.steady_read _ _) _) fun template => steady_pure _

theorem Reader.steady_declared (result : Except Cause (Reader Nat)) (line : Nat) :
    Steady (SameProtos · registry) (declared line result : Header.Typing Cause _) := by
  cases result with
  | error cause => exact steady_throw _
  | ok r => exact steady_pure _

theorem Reader.steady_step (path : String) (r : Reader Nat) (t : Placed) :
    Steady (SameProtos · registry) (r.step readTemplate path t) := by
  rw [step]
  cases t.item with
  | doc chars => exact steady_pure _
  | comment => exact steady_pure _
  | package text => exact steady_declared _ _
  | namespaceDecl text => exact steady_declared _ _
  | aliasDecl text => exact steady_declared _ _
  | template raw => exact r.steady_addTemplate raw

theorem steady_read (path : String) (text : List Char) :
    Steady (SameProtos · registry) (read path text) := by
  rw [read_eq]
  refine steady_bind (steady_foldlM (Reader.steady_step path) _ _) fun r => ?_
  split
  · exact steady_throw _
  · exact steady_mk _

end File

namespace Compiler

theorem steady_readSource (source : Source) :
    Steady (SameProtos · registry) (readSource source) :=
  steady_adapt (File.steady_read _ _) _

/-- A source is read from the characters of its text, in whatever form they are
    known. -/
theorem readSource_of_toList (source : Source) {text : List Char}
    (h : source.text.toList = text) : readSource source =
      (File.read source.path text).adapt (File.toParseError source.path) := by
  rw [readSource, h]

/-- What a source is parsed to is the placed file for the draft that it is read to. -/
theorem exists_gives_of_parseFile {types : TypeRegistry} {source : Source}
    {file : SourceFile Mark} {next : NodeId} (h : (parseFile types source).1 = .ok (file, next)) :
    ∃ draft, Gives (File.read source.path source.text.toList) draft ∧
      SourceFile.place 0 draft = (file, next) := by
  rw [parseFile_eq] at h
  obtain ⟨draft, hread, hplace⟩ := map_eq_ok.1 h
  have hgives : Gives (readSource source) draft := ⟨types, _, Prod.ext hread rfl⟩
  exact ⟨draft, gives_of_gives_adapt hgives, hplace⟩

end Compiler

end Stencil
