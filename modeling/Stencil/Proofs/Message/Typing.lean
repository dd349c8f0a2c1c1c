/-
  Stencil/Proofs/Message/Typing.lean
  ==================================
  **Types can be resolved before an insertion or after it.**

  An insertion does not look at expressions, takes the ones that it moves and
  copies along with their types, and never moves a node to another template.  So
  for a file set that is read both orders give the same tree, and the same
  summary or the same error up to types (`insertMsgs_resolveTypes`).
-/
import Stencil.Proofs.Compiler.Resolution
import Stencil.Proofs.Message.Expressions
import Stencil.Proofs.Message.Shapes

namespace Stencil

open Stencil.Tree (ShapedBody)

/-- The error without the types of the expressions that it carries. -/
def InsertionError.untyped (e : InsertionError) : InsertionError := e.mapExprs Expr.untyped

theorem InsertionError.untyped_mapExprs_resolve (params : List Param) (e : InsertionError) :
    (e.mapExprs (Expr.resolve params)).untyped = e.untyped := by
  cases e with
  | choiceMsg msg loc =>
    exact congrArg (InsertionError.choiceMsg · loc) (Tree.mapExprs_mapExprs _ _ msg)
  | unknownPlaceholder => rfl

/-- The file with the types of all expressions resolved. -/
def SourceFile.resolveTypes (file : SourceFile Mark) : SourceFile Mark :=
  { file with templates := file.templates.map Template.resolveTypes }

namespace Message

/-- The second visit gives what the first one gives with `g` applied, after the same
    progress, and has the same error up to types. -/
structure Visit.Resolves {β : Type} (g : β → β) (v v' : Visit β) : Prop where
  result : v'.result = g v.result
  progress : v'.progress = v.progress
  error : v'.error.map InsertionError.untyped = v.error.map InsertionError.untyped

namespace Visit.Resolves

variable {β γ : Type} {g : β → β} {v v' : Visit β}

theorem map {h : γ → γ} (hv : Resolves g v v') {wrap wrap' : β → γ}
    (hwrap : wrap' (g v.result) = h (wrap v.result)) : Resolves h (v.map wrap) (v'.map wrap') :=
  ⟨(congrArg wrap' hv.result).trans hwrap, hv.progress, hv.error⟩

/-- The visit of a list, from that of its first element and that of the rest. -/
theorem cons (hv : Resolves g v v') {rest : List β} {visit visit' : Progress → Visit (List β)}
    (hrest : ∀ progress, Resolves (List.map g) (visit progress) (visit' progress)) :
    Resolves (List.map g)
      (match v.error with
        | some e => ⟨v.result :: rest, v.progress, some e⟩
        | none => (visit v.progress).map (v.result :: ·))
      (match v'.error with
        | some e => ⟨v'.result :: rest.map g, v'.progress, some e⟩
        | none => (visit' v'.progress).map (v'.result :: ·)) := by
  obtain ⟨result, progress, error⟩ := v
  obtain ⟨result', progress', error'⟩ := v'
  obtain ⟨hresult, hprogress, herror⟩ := hv
  dsimp only at hresult hprogress herror
  subst hresult hprogress
  cases error with
  | some e =>
    cases error' with
    | some e' => exact ⟨rfl, rfl, herror⟩
    | none => cases herror
  | none =>
    cases error' with
    | some e' => cases herror
    | none => exact (hrest _).map rfl

end Visit.Resolves

namespace Insertion

variable (ins : Insertion)

theorem resolves_visitTemplate (progress : Progress) {t : Template Mark} (h : ShapedBody t.body) :
    (ins.visitTemplate progress t).Resolves Template.resolveTypes
      (ins.visitTemplate progress t.resolveTypes) := by
  rw [Template.resolveTypes_eq h, visitTemplate_mapExprs]
  refine ⟨?_, rfl, ?_⟩
  · exact (Template.resolveTypes_eq (ins.shapedBody_visitTemplate progress h)).symm
  · rw [Visit.mapExprs, Option.map_map]
    exact congrArg (Option.map · _) (funext fun e => e.untyped_mapExprs_resolve _)

theorem resolves_visitTemplates (progress : Progress) {ts : List (Template Mark)}
    (h : ∀ t ∈ ts, ShapedBody t.body) :
    (ins.visitTemplates progress ts).Resolves (List.map Template.resolveTypes)
      (ins.visitTemplates progress (ts.map Template.resolveTypes)) := by
  induction ts generalizing progress with
  | nil => exact ⟨rfl, rfl, rfl⟩
  | cons t rest ih =>
    obtain ⟨ht, hrest⟩ := List.forall_mem_cons.1 h
    rw [List.map_cons, visitTemplates, visitTemplates]
    exact (ins.resolves_visitTemplate progress ht).cons fun progress => ih progress hrest

theorem resolves_visitFiles (progress : Progress) {files : List (SourceFile Mark)}
    (h : ∀ file ∈ files, ∀ t ∈ file.templates, ShapedBody t.body) :
    (ins.visitFiles progress files).Resolves (List.map SourceFile.resolveTypes)
      (ins.visitFiles progress (files.map SourceFile.resolveTypes)) := by
  induction files generalizing progress with
  | nil => exact ⟨rfl, rfl, rfl⟩
  | cons file rest ih =>
    obtain ⟨hfile, hrest⟩ := List.forall_mem_cons.1 h
    have hfirst : ((ins.visitTemplates progress file.templates).map fun templates =>
        { file with templates }).Resolves SourceFile.resolveTypes
          ((ins.visitTemplates progress file.resolveTypes.templates).map fun templates =>
            { file.resolveTypes with templates }) :=
      (ins.resolves_visitTemplates progress hfile).map rfl
    rw [List.map_cons, visitFiles, visitFiles]
    exact hfirst.cons fun progress => ih progress hrest

end Insertion

end Message

namespace FileSet

variable {c : Compiler} {sources : List Source} {set : FileSet}

/-- **Types and translations.**  Resolving the types of a file set that is read and
    then inserting translations gives the same file set as doing it the other way
    round, and the same summary or the same error up to types. -/
theorem insertMsgs_resolveTypes (hparse : (c.parse sources).1 = .ok set)
    (ins : Message.Insertion) :
    (set.resolveTypes.insertMsgs ins).2 = (set.insertMsgs ins).2.resolveTypes ∧
      (set.resolveTypes.insertMsgs ins).1.mapError InsertionError.untyped =
        (set.insertMsgs ins).1.mapError InsertionError.untyped := by
  have hshaped := shapedBody_of_parse hparse
  have hfiles := ins.resolves_visitFiles { next := set.next }
    fun file hfile t ht => hshaped t (List.mem_flatMap.2 ⟨file, hfile, ht⟩)
  obtain ⟨hresult, hprogress, herror⟩ := hfiles
  have hresolved : set.resolveTypes.files = set.files.map SourceFile.resolveTypes := rfl
  have hnext : set.resolveTypes.next = set.next := rfl
  rw [insertMsgs, insertMsgs, hresolved, hnext]
  generalize ins.visitFiles { next := set.next } set.files = v at hresult hprogress herror ⊢
  generalize ins.visitFiles { next := set.next } (set.files.map _) = v' at hresult hprogress herror ⊢
  obtain ⟨files, progress, error⟩ := v
  obtain ⟨files', progress', error'⟩ := v'
  dsimp only at hresult hprogress herror
  subst hresult hprogress
  cases error with
  | some e =>
    cases error' with
    | some e' => exact ⟨rfl, congrArg Except.error (Option.some.inj herror)⟩
    | none => cases herror
  | none =>
    cases error' with
    | some e' => cases herror
    | none => exact ⟨rfl, rfl⟩

/-- A message with a print, and one with a plural. -/
def countedPages : Source :=
  { path := "t.soy"
    text := "\x7bnamespace n\x7d\n\x7btemplate .a\x7d\n\x7b@param n: int\x7d\n" ++
      "\x7bmsg desc=\"\"\x7dof \x7b$n\x7d\x7b/msg\x7d" ++
      "\x7bmsg desc=\"\"\x7d\x7bplural $n\x7d\x7bdefault\x7d\x7b$n\x7d\x7b/plural\x7d\x7b/msg\x7d" ++
      "\n\x7b/template\x7d\n" }

/-- A translation that uses the print twice. -/
def printTwice : Message.Insertion :=
  { bundle := some (Bundle.ofList none [{
      id := 1015381051679361784
      parts := [.placeholder "N", .text "/", .placeholder "N"] }])
    mode := .strict }

/-- The print is copied with its type, and the error about the plural carries types
    in one order and none in the other. -/
theorem insertMsgs_resolveTypes_countedPages : ∃ set,
    (Compiler.parse {} [countedPages]).1 = .ok set ∧
      ((set.resolveTypes.insertMsgs printTwice).2.templates.flatMap fun t =>
        (Tree.preorderAll t.body).flatMap fun n => n.content.exprs.map (·.ty)) =
          [some .int, some .int, some .int, some .int] ∧
      (set.resolveTypes.insertMsgs printTwice).1 ≠ (set.insertMsgs printTwice).1 ∧
      (set.resolveTypes.insertMsgs printTwice).2 = (set.insertMsgs printTwice).2.resolveTypes ∧
      (set.resolveTypes.insertMsgs printTwice).1.mapError InsertionError.untyped =
        (set.insertMsgs printTwice).1.mapError InsertionError.untyped := by
  have hcheck : (Compiler.parse {} [countedPages]).1.toOption.any fun set =>
      ((set.resolveTypes.insertMsgs printTwice).2.templates.flatMap fun t =>
        (Tree.preorderAll t.body).flatMap fun n => n.content.exprs.map (·.ty)) =
          [some .int, some .int, some .int, some .int] ∧
      (set.resolveTypes.insertMsgs printTwice).1 ≠ (set.insertMsgs printTwice).1 := by
    have hread := Compiler.readSource_of_toList countedPages (by
      simp only [countedPages, String.toList_append, String.reduceToList]
      rfl)
    rw [Compiler.parse_eq, List.mapM_cons, List.mapM_nil, hread]
    decide +kernel
  obtain ⟨set, hparse, hset⟩ := any_toOption.1 hcheck
  obtain ⟨htypes, hdiffer⟩ := of_decide_eq_true hset
  exact ⟨set, hparse, htypes, hdiffer, insertMsgs_resolveTypes hparse printTwice⟩

end FileSet

end Stencil
