/-
  Stencil/Proofs/File/OpeningTags.lean
  ====================================
  **Where the opening tags of a file stand.**

  A brace between two items of a file opens a tag.  If the file is read, the tag ends on
  its line, and it declares something or opens a template
  (`Compiler.openingTags_of_parseFile`).  The tags of declarations start their lines.
  Nothing makes those of templates do so.
-/
import Stencil.Proofs.Compiler.Reading
import Stencil.Proofs.File.Lines

namespace Stencil

open Text (isBlank)

namespace File

/-! ### Tags -/

/-- The first word of a tag. -/
def tagName (inside : List Char) : String := String.ofList (inside.takeWhile fun c => !isBlank c)

def declarationNames : List String := ["delpackage", "namespace", "alias"]

def templateNames : List String := ["template", "deltemplate"]

/-- Behind the text the scanner is between two items. -/
def EndsBetween (before : List Char) : Prop := (before.foldl Scanner.step {}).mode = .between

/-- What comes after the text starts a line. -/
def EndsLine (before : List Char) : Prop := before = [] ∨ before.getLast? = some '\n'

instance (before : List Char) : Decidable (EndsBetween before) :=
  inferInstanceAs (Decidable (_ = _))

instance (before : List Char) : Decidable (EndsLine before) := inferInstanceAs (Decidable (_ ∨ _))

/-- A tag that opens between two items of a text, with what stands before, in and after
    it.  It ends at the first brace that closes and is not in double quotes. -/
structure IsOpeningTag (text before inside after : List Char) : Prop where
  text_eq : text = before ++ '\x7b' :: inside ++ '\x7d' :: after
  between : EndsBetween before
  closes : isTagInside false inside

/-- A tag that declares something starts its line, and any other one opens a template. -/
def IsPlaced (name : String) (startsLine : Prop) : Prop :=
  name ∈ declarationNames ∧ startsLine ∨ name ∈ templateNames

/-- What stands in a tag is on one line. -/
theorem newline_notMem_of_isTagInside {quoted : Bool} {inside : List Char}
    (h : isTagInside quoted inside) : '\n' ∉ inside := by
  induction inside generalizing quoted with
  | nil => exact List.not_mem_nil
  | cons c cs ih =>
    simp only [isTagInside, Bool.and_eq_true, bne_iff_ne] at h
    exact List.not_mem_cons_of_ne_of_not_mem (Ne.symm h.1.1) (ih h.2)

/-- What a cut at white space leaves before it is the first word. -/
theorem tagName_eq {inside : List Char} {name : String} {text : List Char}
    (h : (match Text.cut? isBlank inside with
      | some (name, text) => (String.ofList name, Text.trim text)
      | none => (String.ofList inside, [])) = (name, text)) : tagName inside = name := by
  have hword : inside.takeWhile (fun c => !isBlank c) =
      ((Text.cut? isBlank inside).map (·.1)).getD inside := by
    clear h
    induction inside with
    | nil => rfl
    | cons c cs ih =>
      by_cases hc : isBlank c
      · rw [List.takeWhile_cons_of_neg (by simp [hc]), Text.cut?, if_pos hc]
        rfl
      · rw [List.takeWhile_cons_of_pos (by simp [hc]), Text.cut?, if_neg hc, ih]
        cases Text.cut? isBlank cs <;> rfl
  rw [tagName, hword]
  cases hcut : Text.cut? isBlank inside with
  | none =>
    rw [hcut] at h
    cases h
    rfl
  | some pair =>
    rw [hcut] at h
    cases h
    rfl

namespace Scanner

variable {s : Scanner}

/-- A scanner that is stuck finds a fault in every text that goes on. -/
theorem fault?_ne_none_of_stuck {fault : Fault ScanCause} (hs : s.mode = .stuck fault)
    (cs : List Char) : (cs.foldl step s).fault? ≠ none := by
  rw [fault?, (foldl_step_stuck hs cs).1]
  exact Option.some_ne_none fault

/-- A tag that is not in its place cannot be closed. -/
theorem isPlaced_of_closeTag {line : Nat} {lineStart : Bool} {inside : List Char}
    (h : ∀ fault, (s.closeTag line lineStart inside).mode ≠ .stuck fault) :
    IsPlaced (tagName inside) lineStart := by
  have hdeclare : ∀ {item : Item} {name : String}, name ∈ declarationNames →
      (∀ fault, (if lineStart then s.emit item line
        else s.fail (.notAtLineStart name) line).mode ≠ .stuck fault) →
      IsPlaced name lineStart := by
    intro item name hname hopen
    split at hopen
    · rename_i hstart
      exact .inl ⟨hname, hstart⟩
    · exact absurd rfl (hopen _)
  unfold Scanner.closeTag at h
  split at h
  rename_i name text hcut
  rw [tagName_eq hcut]
  dsimp only at h
  split at h
  · exact hdeclare (by decide) h
  · exact hdeclare (by decide) h
  · exact hdeclare (by decide) h
  · exact .inr (by decide)
  · exact .inr (by decide)
  · split at h <;> exact absurd rfl (h _)

/-- A tag that is open is closed on its line, and it is in its place. -/
theorem exists_of_tag {line : Nat} {lineStart quoted : Bool} {seen cs : List Char}
    (hmode : s.mode = .tag line lineStart quoted seen) (h : (cs.foldl step s).fault? = none) :
    ∃ inside after, cs = inside ++ '\x7d' :: after ∧ isTagInside quoted inside ∧
      IsPlaced (tagName (seen.reverse ++ inside)) lineStart := by
  induction cs generalizing s quoted seen with
  | nil =>
    rw [List.foldl_nil, fault?, hmode] at h
    cases h
  | cons c cs ih =>
    have hstep : (s.step c).mode = (s.stepChar c).mode := by rw [step_eq]
    rw [stepChar, hmode] at hstep
    dsimp only at hstep
    rw [List.foldl_cons] at h
    by_cases hline : c = '\n'
    · rw [if_pos hline] at hstep
      exact absurd h (fault?_ne_none_of_stuck hstep cs)
    · rw [if_neg hline] at hstep
      by_cases hclose : c = '\x7d' && !quoted
      · rw [if_pos hclose] at hstep
        simp only [Bool.and_eq_true, decide_eq_true_eq, Bool.not_eq_true'] at hclose
        obtain ⟨rfl, rfl⟩ := hclose
        refine ⟨[], cs, rfl, rfl, ?_⟩
        rw [List.append_nil]
        exact isPlaced_of_closeTag fun fault hstuck =>
          fault?_ne_none_of_stuck (hstep.trans hstuck) cs h
      · rw [if_neg hclose] at hstep
        obtain ⟨inside, after, rfl, hinside, hplaced⟩ := ih hstep h
        refine ⟨c :: inside, after, rfl, ?_, ?_⟩
        · simp only [isTagInside, Bool.and_eq_true, bne_iff_ne, Bool.or_eq_true]
          refine ⟨⟨hline, ?_⟩, hinside⟩
          cases quoted with
          | true => exact .inl rfl
          | false => exact .inr fun hc => hclose (by rw [hc]; rfl)
        · rwa [List.reverse_cons, List.append_assoc] at hplaced

/-- The scanner knows where its line starts. -/
theorem lineStart_foldl (cs : List Char) : (cs.foldl step {}).lineStart ↔ EndsLine cs := by
  rcases List.eq_nil_or_concat' cs with rfl | ⟨front, c, rfl⟩
  · exact iff_of_true rfl (.inl rfl)
  · rw [List.foldl_append, List.foldl_cons, List.foldl_nil, step_eq]
    simp [EndsLine]

end Scanner

/-- A brace between two items of a text without faults opens a tag that is in its place. -/
theorem exists_isOpeningTag {text before rest : List Char} (h : (scan text).2 = none)
    (htext : text = before ++ '\x7b' :: rest) (hbetween : EndsBetween before) :
    ∃ inside after, IsOpeningTag text before inside after ∧
      IsPlaced (tagName inside) (EndsLine before) := by
  have hopen : ((before.foldl Scanner.step {}).step '\x7b').mode =
      .tag (before.foldl Scanner.step {}).line (before.foldl Scanner.step {}).lineStart false [] := by
    rw [Scanner.step_eq, Scanner.stepChar, hbetween]
    rfl
  change (text.foldl Scanner.step {}).fault? = none at h
  rw [htext, List.foldl_append, List.foldl_cons] at h
  obtain ⟨inside, after, rfl, hinside, hplaced⟩ := Scanner.exists_of_tag hopen h
  refine ⟨inside, after, ⟨by simp [htext], hbetween, hinside⟩, ?_⟩
  rwa [Scanner.lineStart_foldl] at hplaced

/-- A file that is read has no faults. -/
theorem fault?_eq_none_of_gives_read {path : String} {text : List Char} {file : SourceFile Nat}
    (h : Gives (read path text) file) : (scan text).2 = none := by
  rw [read] at h
  obtain ⟨r, -, h⟩ := gives_bind h
  split at h
  · exact absurd h not_gives_throw
  · assumption

end File

open File

/-- **The opening tags of a file that is read.**  Each brace between two items opens a tag
    that ends on its line.  The tag declares something and starts its line, or it opens a
    template.  So all tags start their lines if those of the templates do. -/
theorem Compiler.openingTags_of_parseFile {types : TypeRegistry} {source : Source}
    {file : SourceFile Mark} {next : NodeId}
    (h : (Compiler.parseFile types source).1 = .ok (file, next)) :
    (∀ before rest, source.text.toList = before ++ '\x7b' :: rest → EndsBetween before →
      ∃ inside after, IsOpeningTag source.text.toList before inside after ∧ '\n' ∉ inside ∧
        IsPlaced (tagName inside) (EndsLine before)) ∧
    ((∀ before inside after, IsOpeningTag source.text.toList before inside after →
        EndsLine before) ↔
      ∀ before inside after, IsOpeningTag source.text.toList before inside after →
        tagName inside ∈ templateNames → EndsLine before) := by
  obtain ⟨draft, hgives, -⟩ := exists_gives_of_parseFile h
  have hfault := fault?_eq_none_of_gives_read hgives
  refine ⟨fun before rest htext hbetween => ?_, fun hall => ?_, fun htemplates => ?_⟩
  · obtain ⟨inside, after, htag, hplaced⟩ := exists_isOpeningTag hfault htext hbetween
    exact ⟨inside, after, htag, newline_notMem_of_isTagInside htag.closes, hplaced⟩
  · intro before inside after htag _
    exact hall before inside after htag
  · intro before inside after htag
    have htext := htag.text_eq
    rw [List.append_assoc, List.cons_append] at htext
    obtain ⟨inside', after', htag', hplaced⟩ := exists_isOpeningTag hfault htext htag.between
    rcases hplaced with ⟨-, hstarts⟩ | hname
    · exact hstarts
    · exact htemplates before inside' after' htag' hname

namespace File

/-- A file of a package up to the tag of its second template. -/
def footAbove : String :=
  "\x7bdelpackage p\x7d\n\x7bnamespace a\x7d // a\n\x7balias b.c\x7d /* c */\n" ++
    "\x7btemplate .t\x7d\x7b$x\x7d\x7b/template\x7d\n"

/-- The second template. -/
def footBelow : String := "deltemplate b.d\x7d\x7b/deltemplate\x7d"

def foot : Source := { path := "mail.soy", text := footAbove ++ "\x7b" ++ footBelow }

/-- A template that starts behind its doc comment. -/
def inlineTemplate : Source :=
  { path := "t.soy"
    text := "\x7bnamespace ns\x7d\n/** Doc. */ \x7btemplate .t\x7dx\x7b/template\x7d\n" }

end File

theorem Compiler.openingTags_of_parseFile_foot : ∃ file next,
    (Compiler.parseFile {} foot).1 = .ok (file, next) ∧
    foot.text.toList = footAbove.toList ++ '\x7b' :: footBelow.toList ∧
    EndsBetween footAbove.toList ∧
    (∃ inside after, IsOpeningTag foot.text.toList footAbove.toList inside after ∧
      '\n' ∉ inside ∧ IsPlaced (tagName inside) (EndsLine footAbove.toList)) ∧
    ((∀ before inside after, IsOpeningTag foot.text.toList before inside after →
        EndsLine before) ↔
      ∀ before inside after, IsOpeningTag foot.text.toList before inside after →
        tagName inside ∈ templateNames → EndsLine before) := by
  have hcheck : (Compiler.parseFile {} foot).1.toOption.any fun parsed =>
      parsed.1.templates.length = 2 := by
    -- the characters are spelled out, as it takes long to compute them from the string
    have hread := Compiler.readSource_of_toList foot (by
      unfold foot footAbove footBelow
      simp only [String.toList_append, String.reduceToList]
      rfl)
    rw [Compiler.parseFile_eq, hread]
    decide +kernel
  obtain ⟨⟨file, next⟩, hparse, -⟩ := any_toOption.1 hcheck
  have htext : foot.text.toList = footAbove.toList ++ '\x7b' :: footBelow.toList := by
    unfold foot
    rw [String.toList_append, String.toList_append, List.append_assoc]
    rfl
  have hbetween : EndsBetween footAbove.toList := by decide +kernel
  obtain ⟨htags, hall⟩ := Compiler.openingTags_of_parseFile hparse
  exact ⟨file, next, hparse, htext, hbetween, htags _ _ htext hbetween, hall⟩

/-- The tag of a template need not start its line. -/
theorem Compiler.not_endsLine_inlineTemplate : ∃ file next before inside after,
    (Compiler.parseFile {} inlineTemplate).1 = .ok (file, next) ∧
    IsOpeningTag inlineTemplate.text.toList before inside after ∧
    tagName inside = "template" ∧ ¬ EndsLine before := by
  have hcheck : (Compiler.parseFile {} inlineTemplate).1.toOption.any
      (fun parsed => parsed.1.templates.length = 1) = true := by decide +kernel
  obtain ⟨⟨file, next⟩, hparse, -⟩ := any_toOption.1 hcheck
  have htag : IsOpeningTag inlineTemplate.text.toList
      "\x7bnamespace ns\x7d\n/** Doc. */ ".toList "template .t".toList
      "x\x7b/template\x7d\n".toList :=
    ⟨by decide +kernel, by decide +kernel, by decide⟩
  exact ⟨file, next, _, _, _, hparse, htag, by decide, by decide +kernel⟩

end Stencil
