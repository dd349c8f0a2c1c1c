/-
  Stencil/Proofs/File/Extents.lean
  ================================
  **Where the scanner is in a text.**

  A template that is found in a text is a part of it: its opening tag, which is on one
  line, then its body and its end tag (`exists_extent`).  And where the text ends too
  early, what is missing is missed at a line of the text (`fault_line_le`).

  The scanner knows the line of what is open and what it has read of it.  It does not
  know what stands before, so the invariant (`Traces`) relates both to the text that it
  has been fed.
-/
import Stencil.Proofs.File.Lines

namespace Stencil

open Text (isBlank trim)

namespace File

/-! ### The lines of a text -/

/-- The number of lines of a text; a newline at its end opens no further one. -/
def lineCount (text : List Char) : Nat :=
  if text = [] ∨ text.getLast? = some '\n' then text.count '\n' else text.count '\n' + 1

/-- The last line of a text is the one of its last character. -/
theorem lineCount_concat (text : List Char) (c : Char) :
    lineCount (text ++ [c]) = lineAfter 1 text := by
  by_cases hc : c = '\n' <;> simp [lineCount, lineAfter, hc, Nat.add_comm]

/-- What has a character after it starts in a line of the text. -/
theorem lineAfter_le_lineCount (before : List Char) {rest : List Char} (h : rest ≠ []) :
    lineAfter 1 before ≤ lineCount (before ++ rest) := by
  obtain ⟨init, c, rfl⟩ := (List.eq_nil_or_concat' rest).resolve_left h
  rw [← List.append_assoc, lineCount_concat, lineAfter, lineAfter, List.count_append,
    ← Nat.add_assoc]
  exact Nat.le_add_right _ _

theorem lineCount_le_concat (text : List Char) (c : Char) :
    lineCount text ≤ lineCount (text ++ [c]) := by
  rw [lineCount_concat, lineCount, lineAfter]
  split <;> omega

theorem lastLine_foldl (text : List Char) :
    (text.foldl Scanner.step {}).lastLine = lineCount text := by
  rcases List.eq_nil_or_concat' text with rfl | ⟨init, c, rfl⟩
  · rfl
  · have hline := Scanner.line_foldl (init ++ [c]) {} (Scanner.bounded_foldl [])
    have hstart : ((init ++ [c]).foldl Scanner.step {}).lineStart = (c == '\n') := by
      rw [List.foldl_append, List.foldl_cons, List.foldl_nil, Scanner.step_eq]
    rw [lineCount_concat, Scanner.lastLine, hline, hstart, lineAfter, lineAfter, List.count_append]
    by_cases hc : c = '\n' <;> simp [hc, Nat.add_comm]

/-! ### Templates in a text -/

def openingTag (isDelegate : Bool) (inside : List Char) : List Char :=
  '\x7b' :: (templateName isDelegate).toList ++ inside ++ ['\x7d']

def endTag (isDelegate : Bool) : List Char :=
  '\x7b' :: '/' :: (templateName isDelegate).toList ++ ['\x7d']

end File

/-- The part of a text that a template is: its tags and its body, which other text may
    stand around. -/
structure RawTemplate.Extent (raw : RawTemplate) (text : List Char) where
  before : List Char
  inside : List Char
  after : List Char
  text_eq : text = before ++ File.openingTag raw.isDelegate inside ++ raw.body ++
    File.endTag raw.isDelegate ++ after
  trim_inside : trim inside = raw.text
  oneLine : '\n' ∉ inside

namespace RawTemplate.Extent

variable {raw : RawTemplate} {text : List Char} (e : raw.Extent text)

/-- The line of the opening tag. -/
def firstLine : Nat := File.lineAfter 1 e.before

/-- The line of the end tag. -/
def endLine : Nat :=
  File.lineAfter 1 (e.before ++ File.openingTag raw.isDelegate e.inside ++ raw.body)

theorem firstLine_pos : 0 < e.firstLine := Nat.lt_of_lt_of_le Nat.one_pos (Nat.le_add_right _ _)

theorem endLine_eq : e.endLine = e.firstLine + raw.height := by
  have hinside : e.inside.count '\n' = 0 := List.count_eq_zero.2 e.oneLine
  have hname : (File.templateName raw.isDelegate).toList.count '\n' = 0 := by
    cases raw.isDelegate <;> rfl
  simp [endLine, firstLine, File.lineAfter, File.openingTag, RawTemplate.height, hinside, hname,
    Nat.add_assoc]

theorem endLine_le : e.endLine ≤ File.lineCount text := by
  have hrest : File.endTag raw.isDelegate ++ e.after ≠ [] := List.cons_ne_nil _ _
  have hle := File.lineAfter_le_lineCount
    (e.before ++ File.openingTag raw.isDelegate e.inside ++ raw.body) hrest
  rwa [← List.append_assoc, ← e.text_eq] at hle

/-- The same part of a longer text. -/
def append (more : List Char) : raw.Extent (text ++ more) where
  before := e.before
  inside := e.inside
  after := e.after ++ more
  text_eq := by rw [← List.append_assoc, ← e.text_eq]
  trim_inside := e.trim_inside
  oneLine := e.oneLine

end RawTemplate.Extent

namespace File

/-! ### The scanner in a text -/

/-- A template that is found is a part of the text, at its line. -/
def Item.StandsIn (text : List Char) : Item → Prop
  | .template raw => ∃ e : raw.Extent text, e.firstLine = raw.line
  | _ => True

/-- What is open started in a line of the text; a tag or template is all that the text
    has from there on. -/
def Mode.OpenIn (text : List Char) : Mode → Prop
  | .slash | .slashStar | .slashStarStar => lineAfter 1 text ≤ lineCount text
  | .comment line _ | .doc line _ => line ≤ lineCount text
  | .tag line _ _ chars =>
    ∃ before, text = before ++ '\x7b' :: chars.reverse ∧ line = lineAfter 1 before ∧ '\n' ∉ chars
  | .template line isDelegate tagText chars =>
    ∃ before inside, text = before ++ openingTag isDelegate inside ++ chars.reverse ∧
      trim inside = tagText ∧ '\n' ∉ inside ∧ line = lineAfter 1 before
  | _ => True

theorem Item.StandsIn.append {text : List Char} {item : Item} (h : item.StandsIn text)
    (more : List Char) : item.StandsIn (text ++ more) := by
  cases item with
  | template raw =>
    obtain ⟨e, hline⟩ := h
    exact ⟨e.append more, hline⟩
  | _ => trivial

/-- The text of a tag is its first word and the rest of it. -/
theorem exists_of_cut {inside : List Char} {name : String} {text : List Char}
    (h : (match Text.cut? isBlank inside with
      | some (name, text) => (String.ofList name, trim text)
      | none => (String.ofList inside, [])) = (name, text)) :
    ∃ rest, inside = name.toList ++ rest ∧ trim rest = text := by
  split at h
  · rename_i first rest hcut
    cases h
    obtain ⟨c, hc, -, rfl⟩ := Text.cut?_eq_some_iff.1 hcut
    refine ⟨c :: rest, by rw [String.toList_ofList], ?_⟩
    rw [trim, Text.trimStart, List.dropWhile_cons_of_pos hc]
    rfl
  · cases h
    exact ⟨[], by rw [String.toList_ofList, List.append_nil], rfl⟩

theorem eq_append_endTag {chars body : List Char} {isDelegate : Bool}
    (h : endTag? chars = some (isDelegate, body)) :
    chars.reverse ++ ['\x7d'] = body.reverse ++ endTag isDelegate := by
  rw [endTag?] at h
  split at h
  · rename_i hplain
    cases h
    rw [Text.dropPrefix?_eq_some_iff.1 hplain, List.reverse_append, List.reverse_reverse,
      List.append_assoc]
    rfl
  · obtain ⟨_, hdelegate, heq⟩ := Option.map_eq_some_iff.1 h
    cases heq
    rw [Text.dropPrefix?_eq_some_iff.1 hdelegate, List.reverse_append, List.reverse_reverse,
      List.append_assoc]
    rfl

namespace Scanner

/-- What the scanner has found, and what is open, stands in the text. -/
structure Traces (text : List Char) (s : Scanner) : Prop where
  items : ∀ t ∈ s.items, t.item.StandsIn text
  mode : s.mode.OpenIn text

variable {text : List Char} {s : Scanner}

theorem Traces.withMode (h : s.Traces text) {more : List Char} {mode : Mode}
    (hmode : mode.OpenIn (text ++ more)) : Traces (text ++ more) { s with mode } :=
  ⟨fun t ht => (h.items t ht).append more, hmode⟩

theorem Traces.emit (h : s.Traces text) {more : List Char} {item : Item}
    (hitem : item.StandsIn (text ++ more)) (line : Nat) :
    Traces (text ++ more) (s.emit item line) :=
  ⟨List.forall_mem_cons.2 ⟨hitem, fun t ht => (h.items t ht).append more⟩, trivial⟩

theorem Traces.emit_plain (h : s.Traces text) {more : List Char} {item : Item}
    (hitem : item.isTemplate = false) (line : Nat) : Traces (text ++ more) (s.emit item line) := by
  refine h.emit ?_ line
  cases item with
  | template raw => cases hitem
  | _ => trivial

theorem Traces.fail (h : s.Traces text) (more : List Char) (cause : ScanCause) (line : Nat) :
    Traces (text ++ more) (s.fail cause line) := h.withMode trivial

/-- A character that is no newline stands in the line after it. -/
theorem lineAfter_concat_le {c : Char} (hc : c ≠ '\n') :
    lineAfter 1 (text ++ [c]) ≤ lineCount (text ++ [c]) := by
  rw [lineCount_concat, lineAfter, lineAfter, List.count_append, List.count_singleton,
    if_neg (by simpa using hc), Nat.add_zero]

theorem Traces.stepBetween (h : s.Traces text) (hline : s.line = lineAfter 1 text) (c : Char) :
    Traces (text ++ [c]) (s.stepBetween c) := by
  rw [Scanner.stepBetween]
  split
  · exact h.withMode trivial
  · split
    · rename_i hc
      exact h.withMode (lineAfter_concat_le (by rw [hc]; decide))
    · split
      · rename_i hc
        exact h.withMode ⟨text, by rw [hc]; rfl, hline, List.not_mem_nil⟩
      · exact h.fail _ _ _

/-- After the tag of a template the template is open. -/
theorem Traces.closeTag (h : s.Traces text) {before inside : List Char} {line : Nat}
    (htext : text = before ++ '\x7b' :: inside) (hline : line = lineAfter 1 before)
    (hinside : '\n' ∉ inside) (lineStart : Bool) :
    Traces (text ++ ['\x7d']) (s.closeTag line lineStart inside) := by
  have hdeclare : ∀ {item : Item} {name : String}, item.isTemplate = false →
      Traces (text ++ ['\x7d'])
        (if lineStart then s.emit item line else s.fail (.notAtLineStart name) line) := by
    intro item name hitem
    split
    · exact h.emit_plain hitem line
    · exact h.fail _ _ _
  have hopen : ∀ isDelegate tagText,
      (∃ rest, inside = (templateName isDelegate).toList ++ rest ∧ trim rest = tagText) →
      Mode.OpenIn (text ++ ['\x7d']) (.template line isDelegate tagText []) := by
    rintro isDelegate tagText ⟨rest, rfl, htrim⟩
    refine ⟨before, rest, ?_, htrim, fun hrest => hinside (List.mem_append_right _ hrest), hline⟩
    rw [htext, openingTag]
    simp
  unfold Scanner.closeTag
  split
  rename_i name tagText hcut
  have hparts := exists_of_cut hcut
  dsimp only
  split
  · exact hdeclare rfl
  · exact hdeclare rfl
  · exact hdeclare rfl
  · exact h.withMode (hopen false tagText hparts)
  · exact h.withMode (hopen true tagText hparts)
  · split
    · exact h.fail _ _ _
    · exact h.fail _ _ _

theorem Traces.closeTemplate (h : s.Traces text) {before inside tagText chars body : List Char}
    {line : Nat} {isDelegate closesDelegate : Bool}
    (htext : text = before ++ openingTag isDelegate inside ++ chars.reverse)
    (htrim : trim inside = tagText) (hinside : '\n' ∉ inside) (hline : line = lineAfter 1 before)
    (hend : endTag? chars = some (closesDelegate, body)) :
    Traces (text ++ ['\x7d'])
      (s.closeTemplate line isDelegate tagText closesDelegate body.reverse) := by
  rw [Scanner.closeTemplate]
  split
  · exact h.fail _ _ _
  · split
    · exact h.fail _ _ _
    · rename_i hsame
      have hdelegate : isDelegate = closesDelegate := by simpa using hsame
      subst hdelegate
      have hextent : text ++ ['\x7d'] =
          before ++ openingTag isDelegate inside ++ body.reverse ++ endTag isDelegate ++ [] := by
        rw [htext, List.append_assoc, eq_append_endTag hend]
        simp
      have hitem : Item.StandsIn (text ++ ['\x7d'])
          (.template ⟨isDelegate, tagText, body.reverse, none, line⟩) :=
        ⟨⟨before, inside, [], hextent, htrim, hinside⟩, hline.symm⟩
      exact h.emit hitem line

theorem Traces.stepChar (h : s.Traces text) (hline : s.line = lineAfter 1 text) (c : Char) :
    Traces (text ++ [c]) (s.stepChar c) := by
  have hhere : s.line ≤ lineCount (text ++ [c]) := by rw [hline, lineCount_concat]
  have hmore : ∀ {line}, line ≤ lineCount text → line ≤ lineCount (text ++ [c]) :=
    fun hle => Nat.le_trans hle (lineCount_le_concat text c)
  have hmode := h.mode
  rw [Scanner.stepChar]
  split
  · exact h.stepBetween hline c
  · split
    · rename_i hc
      exact h.withMode (lineAfter_concat_le (by rw [hc]; decide))
    · split
      · have hemit : Traces (text ++ [c]) (s.emit .comment s.line) := h.emit_plain rfl _
        exact ⟨hemit.items, trivial⟩
      · exact h.fail _ _ _
  · split
    · rename_i hc
      exact h.withMode (lineAfter_concat_le (by rw [hc]; decide))
    · exact h.withMode hhere
  · split
    · exact h.emit_plain rfl _
    · exact h.withMode hhere
  · rename_i line afterStar heq
    rw [heq] at hmode
    split
    · exact h.emit_plain rfl _
    · exact h.withMode (hmore hmode)
  · split
    · exact h.stepBetween hline c
    · rename_i heq _
      exact ⟨fun t ht => (h.items t ht).append _, by rw [heq]; trivial⟩
  · rename_i line chars heq
    rw [heq] at hmode
    split
    · exact h.emit_plain rfl _
    · exact h.withMode (hmore hmode)
  · rename_i line lineStart quoted chars heq
    rw [heq] at hmode
    obtain ⟨before, htext, hbefore, hchars⟩ := hmode
    split
    · exact h.fail _ _ _
    · rename_i hc
      split
      · rename_i hclose
        obtain ⟨rfl, -⟩ : c = '\x7d' ∧ quoted = false := by simpa using hclose
        exact h.closeTag htext hbefore (by simpa using hchars) lineStart
      · refine h.withMode ⟨before, by rw [htext]; simp, hbefore, ?_⟩
        exact List.not_mem_cons_of_ne_of_not_mem (Ne.symm hc) hchars
  · rename_i line isDelegate tagText chars heq
    rw [heq] at hmode
    obtain ⟨before, inside, htext, htrim, hinside, hbefore⟩ := hmode
    split
    · rename_i hend
      exact h.closeTemplate htext htrim hinside hbefore hend
    · exact h.withMode ⟨before, inside, by rw [htext]; simp, htrim, hinside, hbefore⟩
  · rename_i fault heq
    exact ⟨fun t ht => (h.items t ht).append _, by rw [heq]; trivial⟩

theorem traces_foldl (text : List Char) : (text.foldl step {}).Traces text := by
  induction text using List.reverseRecOn with
  | nil => exact ⟨List.forall_mem_nil _, trivial⟩
  | append_singleton text c ih =>
    have hline := line_foldl text {} (bounded_foldl [])
    obtain ⟨hitems, hmode⟩ := ih.stepChar hline c
    rw [List.foldl_append, List.foldl_cons, List.foldl_nil, step_eq]
    exact ⟨hitems, hmode⟩

end Scanner

/-- A template that is found in a text stands in it, at the line that it knows. -/
theorem exists_extent {text : List Char} {t : Placed} {raw : RawTemplate} (ht : t ∈ (scan text).1)
    (hraw : t.item = .template raw) : ∃ e : raw.Extent text, e.firstLine = raw.line := by
  have hitem := (Scanner.traces_foldl text).items t (List.mem_reverse.1 ht)
  rwa [hraw] at hitem

/-- Where the items of a text end too early, this is at a line of the text. -/
theorem fault_line_le {text : List Char} {fault : Fault ScanCause}
    (h : (scan text).2 = some fault) : 0 < fault.line ∧ fault.line ≤ lineCount text := by
  have hbounded := Scanner.bounded_foldl text
  refine ⟨hbounded.fault_pos h, ?_⟩
  have hstuck := hbounded.mode
  rw [lastLine_foldl] at hstuck
  have hline := Scanner.line_foldl text {} (Scanner.bounded_foldl [])
  have hopen := (Scanner.traces_foldl text).mode
  change Scanner.fault? _ = some fault at h
  generalize text.foldl Scanner.step {} = s at *
  obtain ⟨mode, line, lineStart, items⟩ := s
  cases mode with
  | between | lineComment => cases h
  | slash | slashStar | slashStarStar =>
    cases h
    exact hline.trans_le hopen
  | comment | doc =>
    cases h
    exact hopen
  | tag =>
    cases h
    obtain ⟨before, rfl, rfl, -⟩ := hopen
    exact lineAfter_le_lineCount before (List.cons_ne_nil _ _)
  | template =>
    cases h
    obtain ⟨before, inside, rfl, -, -, rfl⟩ := hopen
    rw [List.append_assoc]
    exact lineAfter_le_lineCount before (List.cons_ne_nil _ _)
  | stuck =>
    cases h
    exact hstuck.2

end File

end Stencil
