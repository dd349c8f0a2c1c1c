/-
  Stencil/Proofs/Compiler/Lines.lean
  ==================================
  **Newlines between items change lines and nothing else**
  (`Compiler.parseFile_insert_newlines`).

  Reading takes items one by one and copies their lines, placing copies the lines of
  drafts, and neither looks at a line.  So where the scanner finds the same items on
  other lines, the same file is read, with those lines in it.
-/
import Stencil.Proofs.Build.File
import Stencil.Proofs.File.Lines

namespace Stencil

/-! ### Files on other lines -/

/-- The file with `f` applied to the lines of its aliases, and `mark` to all marks. -/
def SourceFile.relocate {α β : Type} (f : Nat → Nat) (mark : α → β) (file : SourceFile α) :
    SourceFile β :=
  { mark := mark file.mark
    info := { file.info with aliases := file.info.aliases.map (Alias.mapLine f) }
    templates := file.templates.map (Template.mapMarks mark) }

/-- The error with its line changed. -/
def ParseError.mapLine (f : Nat → Nat) (e : ParseError) : ParseError :=
  { e with location := e.location.mapLine f }

namespace File

/-- The reader with the lines of what it has read changed. -/
def Reader.mapLine (f : Nat → Nat) (r : Reader Nat) : Reader Nat :=
  { r with
    aliases := r.aliases.map (Alias.mapLine f)
    templates := r.templates.map (Template.mapMarks f) }

namespace Reader

variable (f : Nat → Nat) (r : Reader Nat)

theorem addPackage_mapLine (text : List Char) :
    (r.mapLine f).addPackage text = (r.addPackage text).map (mapLine f) := by
  change (if r.package.isSome then _ else if r.namespaceDecl.isSome then _ else _) = _
  unfold addPackage
  split_ifs <;> rfl

theorem addNamespace_mapLine (text : List Char) :
    (r.mapLine f).addNamespace text = (r.addNamespace text).map (mapLine f) := by
  change (if r.namespaceDecl.isSome then _ else _) = _
  unfold addNamespace
  split
  · rfl
  · cases readNamespace text <;> rfl

theorem addAlias_mapLine (text : List Char) (loc : Location) :
    (r.mapLine f).addAlias text (loc.mapLine f) = (r.addAlias text loc).map (mapLine f) := by
  have htemplates : (r.mapLine f).templates.isEmpty = r.templates.isEmpty := List.isEmpty_map
  have hnames : ∀ name,
      (r.mapLine f).aliases.any (·.name == name) = r.aliases.any (·.name == name) := by
    intro name
    exact List.any_map
  have hnamed : (r.mapLine f).namespaceDecl = r.namespaceDecl := rfl
  unfold addAlias
  rw [htemplates, hnamed]
  dsimp only
  rw [hnames]
  split_ifs
  · rfl
  · rfl
  · rfl
  · rfl
  · change Except.ok _ = Except.ok _
    simp only [mapLine, List.map_append]
    rfl

theorem scope?_mapLine : (r.mapLine f).scope? = r.scope?.map (Scope.mapLine f) := by
  obtain ⟨package, namespaceDecl, aliases, templates, doc⟩ := r
  cases namespaceDecl <;> rfl

variable {f r} {path : String} {t : Placed}

theorem mirrors_addTemplate {raw : RawTemplate}
    (hf : ∀ d ≤ raw.height, f (d + raw.line) = d + f raw.line) :
    Mirrors (mapLine f) (Fault.mapLine f) (r.addTemplate readTemplate raw)
      ((r.mapLine f).addTemplate readTemplate { raw with line := f raw.line }) := by
  rw [addTemplate, addTemplate, scope?_mapLine]
  cases r.scope? with
  | none => exact mirrors_throw _
  | some scope =>
    have hread : Mirrors (Template.mapMarks f) (Fault.mapLine f)
        (RawTemplate.read scope { raw with doc := r.doc })
        (RawTemplate.read (scope.mapLine f) { raw with doc := r.doc, line := f raw.line }) := by
      rw [RawTemplate.read_mapLine]
      exact RawTemplate.mirrors_read scope { raw with doc := r.doc } hf
    exact mirrors_bind (mirrors_adapt hread fun _ => rfl) fun _ => mirrors_pure _

theorem mirrors_declared (result : Except Cause (Reader Nat)) (line : Nat) :
    Mirrors (mapLine f) (Fault.mapLine f) (declared line result : Header.Typing Cause _)
      (declared (f line) (result.map (mapLine f)) : Header.Typing Cause _) := by
  cases result with
  | error cause => exact mirrors_throw _
  | ok r => exact mirrors_pure _

/-- An item whose lines move is taken as before. -/
theorem mirrors_step (ht : t.Moves f) :
    Mirrors (mapLine f) (Fault.mapLine f) (r.step readTemplate path t)
      ((r.mapLine f).step readTemplate path (t.mapLine f)) := by
  obtain ⟨item, line⟩ := t
  cases item with
  | doc chars => exact mirrors_pure _
  | comment => exact mirrors_pure _
  | package text =>
    have hdeclared := mirrors_declared (f := f) (r.addPackage text) line
    rwa [← addPackage_mapLine] at hdeclared
  | namespaceDecl text =>
    have hdeclared := mirrors_declared (f := f) (r.addNamespace text) line
    rwa [← addNamespace_mapLine] at hdeclared
  | aliasDecl text =>
    have hdeclared := mirrors_declared (f := f)
      (r.addAlias text ((Location.ofFile path).atLine line)) line
    rwa [← addAlias_mapLine] at hdeclared
  | template raw =>
    refine mirrors_addTemplate fun d hd => ?_
    rw [ht.line_eq raw rfl]
    exact ht.move d hd

theorem finish_mapLine (hzero : f 0 = 0) :
    (r.mapLine f).finish path 0 =
      ((r.finish path 0).map (SourceFile.relocate f f)).mapError (Fault.mapLine f) := by
  rw [finish, finish, scope?_mapLine]
  cases r.scope? with
  | none =>
    change Except.error (⟨.missingNamespace, 0⟩ : Fault Cause) = .error ⟨.missingNamespace, f 0⟩
    rw [hzero]
  | some scope =>
    simp only [Option.map_some, Except.map, Except.mapError, SourceFile.relocate, mapLine,
      List.map_reverse, hzero]
    rfl

end Reader

/-- Where the scanner finds the same items on other lines, the same file is read. -/
theorem mirrors_read {f : Nat → Nat} (hzero : f 0 = 0) (path : String) {text text' : List Char}
    (hscan : scan text' =
      ((scan text).1.map (Placed.mapLine f), (scan text).2.map (Fault.mapLine f)))
    (hmoves : ∀ t ∈ (scan text).1, t.Moves f) :
    Mirrors (SourceFile.relocate f f) (Fault.mapLine f) (read path text) (read path text') := by
  rw [read_eq, read_eq, hscan]
  have hstep : ∀ t ∈ (scan text).1, ∀ r, Mirrors (Reader.mapLine f) (Fault.mapLine f)
      (Reader.step readTemplate path r t)
      (Reader.step readTemplate path (r.mapLine f) (t.mapLine f)) :=
    fun t ht r => Reader.mirrors_step (hmoves t ht)
  refine mirrors_bind (mirrors_foldlM hstep {}) fun r => ?_
  cases (scan text).2 with
  | some fault => exact mirrors_throw _
  | none =>
    dsimp only [Option.map_none]
    rw [Reader.finish_mapLine hzero]
    exact mirrors_mk

end File

/-! ### Placing -/

theorem Template.place_mapMarks (f : Nat → Nat) (path : String) (parent : Option NodeId)
    (next : NodeId) (t : Template Nat) :
    place path parent next (t.mapMarks f) =
      ((place path parent next t).1.mapMarks (Mark.mapLine f), (place path parent next t).2) := by
  have hloc : ∀ line, (Location.ofFile path).atLine (f line) =
      ((Location.ofFile path).atLine line).mapLine f := fun _ => rfl
  obtain ⟨hbody, hnext⟩ := Tree.linkAll_numberAll_mapAll f hloc (some next) (next + 1) t.body
  rw [place, place]
  exact Prod.ext (congrArg (Template.mk _ _) hbody) hnext

theorem Template.placeAll_mapMarks (f : Nat → Nat) (path : String) (parent : Option NodeId)
    (next : NodeId) (ts : List (Template Nat)) :
    placeAll path parent next (ts.map (mapMarks f)) =
      ((placeAll path parent next ts).1.map (mapMarks (Mark.mapLine f)),
        (placeAll path parent next ts).2) := by
  induction ts generalizing next with
  | nil => rfl
  | cons t rest ih =>
    simp only [List.map_cons, placeAll, place_mapMarks, ih]

theorem SourceFile.place_relocate (f : Nat → Nat) (next : NodeId) (file : SourceFile Nat) :
    place next (file.relocate f f) =
      ((place next file).1.relocate f (Mark.mapLine f), (place next file).2) := by
  rw [place, place, relocate]
  dsimp only
  rw [Template.placeAll_mapMarks]
  rfl

/-- A source that is read like another on other lines gives the same file on them. -/
theorem Compiler.parseFile_eq_relocate {f : Nat → Nat} {source source' : Source}
    (h : Mirrors (SourceFile.relocate f f) (ParseError.mapLine f) (readSource source)
      (readSource source')) (types : TypeRegistry) :
    Compiler.parseFile types source' =
      (((Compiler.parseFile types source).1.map fun parsed =>
          (parsed.1.relocate f (Mark.mapLine f), parsed.2)).mapError (ParseError.mapLine f),
        (Compiler.parseFile types source).2) := by
  rw [Compiler.parseFile_eq, Compiler.parseFile_eq, h types]
  cases (readSource source).run.run types with
  | mk result types' =>
    cases result with
    | error e => rfl
    | ok draft =>
      exact congrArg (fun parsed => (Except.ok parsed, types')) (SourceFile.place_relocate f 0 draft)

/-- **Newlines between items move what stands below them.**  Where a text ends its items,
    newlines after it leave the outcome, the identities and the types as they are; lines
    up to the end of that text stay, and lines below it are further down by as much. -/
theorem Compiler.parseFile_insert_newlines (types : TypeRegistry) (path : String)
    {above : String} (h : File.EndsItems above.toList) (count : Nat) (below : String) :
    Compiler.parseFile types
        ⟨path, above ++ String.ofList (List.replicate count '\n') ++ below⟩ =
      (((Compiler.parseFile types ⟨path, above ++ below⟩).1.map fun parsed =>
          (parsed.1.relocate (File.moveBelow (above.toList.count '\n') count)
            (Mark.mapLine (File.moveBelow (above.toList.count '\n') count)), parsed.2)).mapError
          (ParseError.mapLine (File.moveBelow (above.toList.count '\n') count)),
        (Compiler.parseFile types ⟨path, above ++ below⟩).2) := by
  obtain ⟨hscan, hmoves⟩ := File.scan_insert h count below.toList
  generalize hmove : File.moveBelow (above.toList.count '\n') count = move at hscan hmoves ⊢
  have hzero : move 0 = 0 := hmove ▸ File.moveBelow_of_le (Nat.zero_le _) count
  refine parseFile_eq_relocate ?_ types
  rw [readSource, readSource]
  dsimp only
  rw [String.toList_append, String.toList_append, String.toList_append, String.toList_ofList]
  exact mirrors_adapt (File.mirrors_read hzero path hscan hmoves) fun _ => rfl

/-- A file up to the end of its first template, and the template below it. -/
def linesAbove : String :=
  "\x7bnamespace acme.views\x7d\n\x7balias acme.parts\x7d\n" ++
    "\x7btemplate .head\x7d\nHead.\n\x7b/template\x7d\n"

def linesBelow : String :=
  "/** Below. */\n\x7btemplate .page\x7d\n\x7bcall parts.foot /\x7d\n" ++
    "\x7bmsg desc=\"\"\x7dBye, \x7b$name\x7d.\x7b/msg\x7d\n\x7b/template\x7d\n"

/-- The lines of the templates of a source and of the nodes in them, where it is read. -/
def linesOfTemplates (text : String) : Option (List (Nat × List Nat)) :=
  (Compiler.parseFile {} ⟨"page.soy", text⟩).1.toOption.map fun parsed =>
    parsed.1.templates.map fun t =>
      (t.mark.loc.line, (Tree.preorderAll t.body).map (·.mark.loc.line))

theorem Compiler.parseFile_insert_newlines_templates :
    linesOfTemplates (linesAbove ++ linesBelow) =
      some [(3, [3]), (7, [8, 9, 9, 9, 9, 9, 9])] ∧
    linesOfTemplates (linesAbove ++ String.ofList (List.replicate 3 '\n') ++ linesBelow) =
      some [(3, [3]), (10, [11, 12, 12, 12, 12, 12, 12])] ∧
    File.EndsItems linesAbove.toList ∧
    Compiler.parseFile {}
        ⟨"page.soy", linesAbove ++ String.ofList (List.replicate 3 '\n') ++ linesBelow⟩ =
      (((Compiler.parseFile {} ⟨"page.soy", linesAbove ++ linesBelow⟩).1.map fun parsed =>
          (parsed.1.relocate (File.moveBelow (linesAbove.toList.count '\n') 3)
            (Mark.mapLine (File.moveBelow (linesAbove.toList.count '\n') 3)), parsed.2)).mapError
          (ParseError.mapLine (File.moveBelow (linesAbove.toList.count '\n') 3)),
        (Compiler.parseFile {} ⟨"page.soy", linesAbove ++ linesBelow⟩).2) := by
  have hends : File.EndsItems linesAbove.toList := ⟨.inr (by decide +kernel), by decide +kernel⟩
  exact ⟨by decide +kernel, by decide +kernel, hends,
    Compiler.parseFile_insert_newlines {} "page.soy" hends 3 linesBelow⟩

end Stencil
