/-
  Stencil/Proofs/Compiler/Errors.lean
  ===================================
  **Where a file is rejected.**

  An error names the file and a line of it, except for the one that is about the file
  as a whole; and if it comes out of a template, its line is one of the template
  (`Compiler.located_of_parseFile`).

  Complaints about a template are counted from its opening tag, and only put at lines of
  the file when the whole template is read.  All other complaints are about an item and
  at its line, or the scanner's own.
-/
import Stencil.Proofs.Build.File
import Stencil.Proofs.File.Extents

namespace Stencil

/-- The complaints about a template are at its lines. -/
theorem RawTemplate.line_of_fails_read {scope : Scope} {raw : RawTemplate}
    {fault : Fault TemplateCause} (h : Fails (raw.read scope) fault) :
    raw.line ≤ fault.line ∧ fault.line ≤ raw.line + raw.height := by
  obtain ⟨s, h⟩ := h
  rw [RawTemplate.mirrors_read_readFromOpening scope raw s] at h
  have hlocated := raw.runsLocated_readFromOpening scope s
  cases hrun : (raw.readFromOpening scope).run.run s with
  | mk result mid =>
    rw [hrun] at h hlocated
    cases result with
    | ok t => cases h
    | error first =>
      cases h
      have hline : first.line ≤ raw.height := hlocated.fault first rfl
      change raw.line ≤ first.line + raw.line ∧ first.line + raw.line ≤ _
      omega

namespace File

/-- The complaint comes out of an item or of the scanner, and not out of a template or
    the whole file. -/
def Cause.isAtItem : Cause → Bool
  | .missingNamespace | .template _ => false
  | _ => true

/-- What a complaint is about: the whole file, a line of the text, or a template in it. -/
inductive Blames (text : List Char) : Fault Cause → Prop
  | file : Blames text ⟨.missingNamespace, 0⟩
  | item {cause : Cause} {line : Nat} (hcause : cause.isAtItem)
      (hline : 0 < line ∧ line ≤ lineCount text) : Blames text ⟨cause, line⟩
  | template {t : Placed} {raw : RawTemplate} {doc : Option (List Char)} {scope : Scope}
      {fault : Fault TemplateCause} (ht : t ∈ (scan text).1) (hraw : t.item = .template raw)
      (h : Fails (RawTemplate.read scope { raw with doc }) fault) :
      Blames text (fault.map .template)

namespace Reader

variable {r : Reader Nat} {text : List Char}

theorem isAtItem_of_addPackage {cause : Cause} {name : List Char}
    (h : r.addPackage name = .error cause) : cause.isAtItem := by
  rw [addPackage] at h
  split_ifs at h <;> cases h <;> rfl

theorem isAtItem_of_readNamespace {cause : Cause} {declared : List Char}
    (h : readNamespace declared = .error cause) : cause.isAtItem := by
  rw [readNamespace] at h
  rcases bind_eq_error.1 h with h | ⟨cmd, -, h⟩
  · obtain ⟨_, -, rfl⟩ := mapError_eq_error.1 h
    rfl
  · dsimp only at h
    split at h
    · rcases bind_eq_error.1 h with h | ⟨_, -, h⟩
      · obtain ⟨_, -, rfl⟩ := mapError_eq_error.1 h
        rfl
      · cases h
    · cases h
      rfl

theorem isAtItem_of_addNamespace {cause : Cause} {declared : List Char}
    (h : r.addNamespace declared = .error cause) : cause.isAtItem := by
  rw [addNamespace] at h
  split at h
  · cases h
    rfl
  · rcases bind_eq_error.1 h with h | ⟨_, -, h⟩
    · exact isAtItem_of_readNamespace h
    · cases h

theorem isAtItem_of_addAlias {cause : Cause} {name : List Char} {loc : Location}
    (h : r.addAlias name loc = .error cause) : cause.isAtItem := by
  unfold addAlias at h
  dsimp only at h
  split_ifs at h <;> cases h <;> rfl

/-- A declaration that is not taken is complained about at its line. -/
theorem blames_of_fails_declared {result : Except Cause (Reader Nat)} {line : Nat}
    {fault : Fault Cause} (h : Fails (declared line result : Header.Typing Cause _) fault)
    (hresult : ∀ cause, result = .error cause → cause.isAtItem)
    (hline : 0 < line ∧ line ≤ lineCount text) : Blames text fault := by
  cases result with
  | ok r => exact absurd h not_fails_pure
  | error cause =>
    cases eq_of_fails_throw h
    exact .item (hresult cause rfl) hline

/-- What is wrong with an item is at its line, or it is a template. -/
theorem blames_of_fails_step {path : String} {t : Placed} {fault : Fault Cause}
    (ht : t ∈ (scan text).1) (h : Fails (r.step readTemplate path t) fault) : Blames text fault := by
  have hwithin := within_of_mem_scan ht
  rw [lastLine_foldl] at hwithin
  have hline : 0 < t.line ∧ t.line ≤ lineCount text :=
    ⟨hwithin.pos, Nat.le_trans (Nat.le_add_right _ _) hwithin.last_le⟩
  rw [step] at h
  split at h
  · exact absurd h not_fails_pure
  · exact absurd h not_fails_pure
  · exact blames_of_fails_declared h (fun _ => isAtItem_of_addPackage) hline
  · exact blames_of_fails_declared h (fun _ => isAtItem_of_addNamespace) hline
  · exact blames_of_fails_declared h (fun _ => isAtItem_of_addAlias) hline
  · rename_i raw hraw
    rw [addTemplate] at h
    split at h
    · cases eq_of_fails_throw h
      rw [← hwithin.line_eq raw hraw] at hline
      exact .item rfl hline
    · rcases fails_bind h with h | ⟨template, -, h⟩
      · obtain ⟨first, hfirst, rfl⟩ := fails_adapt h
        exact .template ht hraw hfirst
      · exact absurd h not_fails_pure

end Reader

/-- Whatever is wrong with a text is about a line of it, a template in it, or all of it. -/
theorem blames_of_fails_read {path : String} {text : List Char} {fault : Fault Cause}
    (h : Fails (read path text) fault) : Blames text fault := by
  rw [read_eq] at h
  rcases fails_bind h with h | ⟨r, -, h⟩
  · obtain ⟨t, ht, r, hstep⟩ := exists_fails_of_foldlM h
    exact Reader.blames_of_fails_step ht hstep
  · split at h
    · rename_i first hfirst
      cases eq_of_fails_throw h
      exact .item rfl (fault_line_le hfirst)
    · have hfinish := eq_error_of_fails_mk h
      rw [Reader.finish] at hfinish
      split at hfinish
      · cases hfinish
        exact .file
      · cases hfinish

end File

/-- **Every error names a place in its file.**  It names the path of the source that is
    rejected, and the line is 0 just if the file has no namespace, and else a line of the
    source.  An error out of a template is in the lines from its opening tag to its end
    tag. -/
theorem Compiler.located_of_parseFile {types : TypeRegistry} {source : Source} {e : ParseError}
    (h : (Compiler.parseFile types source).1 = .error e) :
    ∃ fault, ((File.read source.path source.text.toList).run.run types).1 = .error fault ∧
      e = File.toParseError source.path fault ∧
      e.location.path = some source.path ∧
      (e.location.line = 0 ↔ fault.cause = .missingNamespace) ∧
      (fault.cause ≠ .missingNamespace →
        1 ≤ e.location.line ∧ e.location.line ≤ File.lineCount source.text.toList) ∧
      ∀ cause, fault.cause = .template cause →
        ∃ t ∈ (File.scan source.text.toList).1, ∃ raw doc scope, t.item = .template raw ∧
          Fails (RawTemplate.read scope { raw with doc }) ⟨cause, e.location.line⟩ ∧
          ∃ extent : raw.Extent source.text.toList, extent.firstLine = raw.line ∧
            extent.firstLine ≤ e.location.line ∧ e.location.line ≤ extent.endLine := by
  rw [parseFile_eq] at h
  change (((File.read source.path source.text.toList).run.run types).1.mapError
    (File.toParseError source.path)).map (SourceFile.place 0) = .error e at h
  cases hread : ((File.read source.path source.text.toList).run.run types).1 with
  | ok file =>
    rw [hread] at h
    cases h
  | error fault =>
    rw [hread] at h
    cases h
    refine ⟨fault, rfl, rfl, rfl, ?_⟩
    change (fault.line = 0 ↔ _) ∧ (_ → 1 ≤ fault.line ∧ fault.line ≤ _) ∧ ∀ cause, _ →
      ∃ t ∈ (File.scan source.text.toList).1, ∃ raw doc scope, t.item = .template raw ∧
        Fails (RawTemplate.read scope { raw with doc }) ⟨cause, fault.line⟩ ∧
        ∃ extent : raw.Extent source.text.toList, extent.firstLine = raw.line ∧
          extent.firstLine ≤ fault.line ∧ fault.line ≤ extent.endLine
    cases File.blames_of_fails_read ⟨types, hread⟩ with
    | file => exact ⟨iff_of_true rfl rfl, fun h => absurd rfl h, fun _ h => absurd h (by simp)⟩
    | @item cause line hcause hline =>
      have hown : cause ≠ .missingNamespace ∧ ∀ inner, cause ≠ .template inner := by
        refine ⟨?_, fun inner => ?_⟩ <;> rintro rfl <;> cases hcause
      refine ⟨iff_of_false (Nat.ne_of_gt hline.1) hown.1, fun _ => hline, fun inner h => ?_⟩
      exact absurd h (hown.2 inner)
    | @template t raw doc scope first ht hraw hfails =>
      obtain ⟨extent, hextent⟩ := File.exists_extent ht hraw
      obtain ⟨hfirst, hend⟩ := RawTemplate.line_of_fails_read hfails
      change raw.line ≤ first.line at hfirst
      change first.line ≤ raw.line + raw.height at hend
      rw [← hextent, ← extent.endLine_eq] at hend
      rw [← hextent] at hfirst
      have hline : 1 ≤ first.line := Nat.le_trans extent.firstLine_pos hfirst
      refine ⟨iff_of_false (Nat.ne_of_gt hline) (by simp [Fault.map]), fun _ => ?_, fun cause hcause => ?_⟩
      · exact ⟨hline, Nat.le_trans hend extent.endLine_le⟩
      · cases hcause
        exact ⟨t, ht, raw, doc, scope, hraw, hfails, extent, hextent, hfirst, hend⟩

/-- A template with a conditional that is left open, below one that is read. -/
def openConditional : Source :=
  { path := "mail.soy"
    text := "\x7bnamespace acme.mail\x7d\n\n\x7btemplate .subject\x7d\n  Hello\n" ++
      "\x7b/template\x7d\n\n\x7btemplate .body\x7d\n  \x7bif $urgent\x7d\n  Now!\n" ++
      "\x7b/template\x7d\n" }

theorem Compiler.located_of_parseFile_openConditional : ∃ e,
    (Compiler.parseFile {} openConditional).1 = .error e ∧ e.location.line = 8 ∧
    ∃ fault, ((File.read openConditional.path openConditional.text.toList).run.run {}).1 =
        .error fault ∧
      e = File.toParseError openConditional.path fault ∧
      e.location.path = some openConditional.path ∧
      (e.location.line = 0 ↔ fault.cause = .missingNamespace) ∧
      (fault.cause ≠ .missingNamespace →
        1 ≤ e.location.line ∧ e.location.line ≤ File.lineCount openConditional.text.toList) ∧
      ∀ cause, fault.cause = .template cause →
        ∃ t ∈ (File.scan openConditional.text.toList).1, ∃ raw doc scope,
          t.item = .template raw ∧
          Fails (RawTemplate.read scope { raw with doc }) ⟨cause, e.location.line⟩ ∧
          ∃ extent : raw.Extent openConditional.text.toList, extent.firstLine = raw.line ∧
            extent.firstLine ≤ e.location.line ∧ e.location.line ≤ extent.endLine := by
  have hcheck : (match (Compiler.parseFile {} openConditional).1 with
      | .error e => e.location.line == 8
      | .ok _ => false) = true := by decide +kernel
  cases hparse : (Compiler.parseFile {} openConditional).1 with
  | ok parsed =>
    rw [hparse] at hcheck
    cases hcheck
  | error e =>
    rw [hparse] at hcheck
    exact ⟨e, rfl, eq_of_beq hcheck, Compiler.located_of_parseFile hparse⟩

end Stencil
