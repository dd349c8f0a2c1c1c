/-
  Stencil/Proofs/Template/DocLayout.lean
  ======================================
  **Cleaning a doc comment undoes its layout.**

  In the usual layout of a doc comment each line has a row of its own, with a star
  after the indentation.  Cleaning gives the lines back, whatever they start with
  themselves: the indentation is what all rows have in common, one star is taken,
  and then as many spaces as all lines have, which is the one after the star when
  some line does not start with a space (`clean_layout`).
-/
import Stencil.Proofs.Text.Split
import Stencil.Proofs.Text.Trim
import Stencil.Template.DocComment

namespace Stencil.DocComment

open Text (allBlank isBlank joinWith splitOn dropEndWhile)

/-! ### The usual layout -/

/-- What stands after the star of a row: nothing for the empty line. -/
def afterStar : List Char → List Char
  | [] => []
  | c :: cs => ' ' :: c :: cs

def row (indent : Nat) (line : List Char) : List Char :=
  List.replicate indent ' ' ++ '*' :: afterStar line

/-- The opening, a row for each line, and the closing. -/
def rows (indent closing : Nat) (lines : List (List Char)) : List (List Char) :=
  "/**".toList :: lines.map (row indent) ++ [List.replicate closing ' ' ++ "*/".toList]

/-- Lines as a doc comment. -/
def layout (lineEnd : List Char) (indent closing : Nat) (lines : List (List Char)) : List Char :=
  joinWith lineEnd (rows indent closing lines)

/-- Lines that a layout shows as they are: without line ends and the word that is
    escaped, the blank ones empty, and not all of the others indented. -/
structure Plain (lines : List (List Char)) : Prop where
  newline : ∀ line ∈ lines, '\n' ∉ line
  carriageReturn : ∀ line ∈ lines, '\r' ∉ line
  deprecated : ∀ line ∈ lines, ¬ "@deprecated".toList <:+: line
  blank : ∀ line ∈ lines, allBlank line → line = []
  flush : ∃ line ∈ lines, allBlank line = false ∧ line.head? ≠ some ' '

variable {lines : List (List Char)} {indent closing n : Nat} {line lineEnd : List Char} {c : Char}

theorem Plain.ne_nil (h : Plain lines) : lines ≠ [] := by
  obtain ⟨line, hline, -⟩ := h.flush
  exact List.ne_nil_of_mem hline

theorem forall_mem_rows {P : List Char → Prop} (hopening : P "/**".toList)
    (hrow : ∀ line ∈ lines, P (row indent line))
    (hclosing : P (List.replicate closing ' ' ++ "*/".toList)) :
    ∀ text ∈ rows indent closing lines, P text := by
  refine List.forall_mem_append.2 ⟨List.forall_mem_cons.2 ⟨hopening, ?_⟩, ?_⟩
  · exact List.forall_mem_map.2 hrow
  · exact List.forall_mem_singleton.2 hclosing

/-- A row has the line at its end, and nothing else than spaces and a star before it. -/
theorem exists_row_eq (indent : Nat) (line : List Char) :
    ∃ before, row indent line = before ++ line ∧ ∀ c ∈ before, c = ' ' ∨ c = '*' := by
  cases line with
  | nil =>
    refine ⟨List.replicate indent ' ' ++ ['*'], (List.append_nil _).symm, ?_⟩
    simp +contextual [or_imp]
  | cons c cs =>
    refine ⟨List.replicate indent ' ' ++ ['*', ' '], by simp [row, afterStar], ?_⟩
    simp +contextual [or_imp]

theorem mem_row (hstar : c ≠ '*') (hspace : c ≠ ' ') (h : c ∈ row indent line) : c ∈ line := by
  obtain ⟨before, heq, hbefore⟩ := exists_row_eq indent line
  rw [heq] at h
  rcases List.mem_append.1 h with h | h
  · rcases hbefore c h with rfl | rfl <;> contradiction
  · exact h

/-! ### Line ends and the word that is escaped -/

theorem Plain.carriageReturn_notMem (h : Plain lines) :
    ∀ text ∈ rows indent closing lines, '\r' ∉ text :=
  forall_mem_rows (by decide)
    (fun line hline hmem => h.carriageReturn line hline (mem_row (by decide) (by decide) hmem))
    (by simp)

theorem Plain.plainLineEnds_layout (h : Plain lines)
    (hend : lineEnd ∈ ["\n".toList, "\r\n".toList]) :
    plainLineEnds (layout lineEnd indent closing lines) =
      layout ['\n'] indent closing lines := by
  have hreturn : ¬ ['\r'] <:+: layout ['\n'] indent closing lines := by
    intro hmem
    obtain ⟨text, htext, hmem⟩ :=
      Text.exists_isInfix_of_joinWith (List.cons_ne_nil _ _) (by decide) hmem
    exact h.carriageReturn_notMem text htext (hmem.subset List.mem_cons_self)
  have hpairs : Text.replace "\r\n" "\n" (layout lineEnd indent closing lines) =
      layout ['\n'] indent closing lines := by
    rcases List.mem_cons.1 hend with rfl | hend
    · refine Text.replaceFrom_eq_self fun hmem => hreturn (List.IsInfix.trans ?_ hmem)
      exact (List.prefix_append ['\r'] ['\n']).isInfix
    · cases List.mem_singleton.1 hend
      exact Text.replaceFrom_joinWith h.carriageReturn_notMem ['\n']
  rw [plainLineEnds, hpairs]
  exact Text.replaceFrom_eq_self hreturn

theorem Plain.replace_deprecated (h : Plain lines) (new : String) :
    Text.replace "@deprecated" new (layout ['\n'] indent closing lines) =
      layout ['\n'] indent closing lines := by
  have hrows : ∀ text ∈ rows indent closing lines, ¬ "@deprecated".toList <:+: text := by
    refine forall_mem_rows (by decide) (fun line hline hmem => ?_) fun hmem => ?_
    · obtain ⟨before, heq, hbefore⟩ := exists_row_eq indent line
      rw [heq] at hmem
      refine h.deprecated line hline (Text.isInfix_of_append (fun hat => ?_) hmem)
      exact absurd (hbefore '@' hat) (by decide)
    · have hat : '@' ∈ List.replicate closing ' ' ++ "*/".toList := hmem.subset List.mem_cons_self
      simp at hat
  refine Text.replaceFrom_eq_self fun hmem => ?_
  obtain ⟨text, htext, hmem⟩ :=
    Text.exists_isInfix_of_joinWith (by decide) (by decide) hmem
  exact hrows text htext hmem

/-! ### The opening and the closing -/

theorem dropOpening_newline (text : List Char) :
    dropOpening ("/**".toList ++ '\n' :: text) = text := by
  rw [dropOpening, Text.dropPrefix?_eq_some_iff.2 rfl]
  rfl

theorem dropClosing_newline (text : List Char) (closing : Nat) :
    dropClosing (text ++ '\n' :: (List.replicate closing ' ' ++ "*/".toList)) = text := by
  have hclosing : Text.dropSuffix? "*/".toList
      (text ++ '\n' :: (List.replicate closing ' ' ++ "*/".toList)) =
      some (text ++ ['\n'] ++ List.replicate closing ' ') :=
    Text.dropSuffix?_eq_some_iff.2 (by simp)
  have hspaces : dropEndWhile (· == ' ') (text ++ ['\n'] ++ List.replicate closing ' ') =
      text ++ ['\n'] := by
    rw [Text.dropEndWhile_append_of_pos (by simp)]
    exact Text.dropEndWhile_eq_self (by simp)
  rw [dropClosing, hclosing]
  simp only [hspaces]
  rw [Text.dropSuffix?_eq_some_iff.2 rfl]

theorem layout_eq (hne : lines ≠ []) : layout ['\n'] indent closing lines =
    "/**".toList ++ '\n' :: (joinWith ['\n'] (lines.map (row indent)) ++
      '\n' :: (List.replicate closing ' ' ++ "*/".toList)) := by
  have hrows : lines.map (row indent) ≠ [] := mt List.map_eq_nil_iff.1 hne
  obtain ⟨first, rest, heq⟩ := List.exists_cons_of_ne_nil hrows
  rw [layout, rows, Text.joinWith_concat (List.cons_ne_nil _ _), heq, Text.joinWith_cons_cons]
  simp

/-! ### Rows without the layout -/

theorem commonLead_eq (hlead : ∃ l ∈ lines, allBlank l = false ∧ (l.takeWhile (· == c)).length = n)
    (hle : ∀ l ∈ lines, allBlank l = false → n ≤ (l.takeWhile (· == c)).length) :
    commonLead c lines = n := by
  have hmin : ((lines.filter fun l => !allBlank l).map
      fun l => (l.takeWhile (· == c)).length).min? = some n := by
    refine List.min?_eq_some_iff.2 ⟨?_, List.forall_mem_map.2 fun l hl => ?_⟩
    · obtain ⟨l, hl, hblank, hn⟩ := hlead
      exact List.mem_map.2 ⟨l, List.mem_filter.2 ⟨hl, by simp [hblank]⟩, hn⟩
    · obtain ⟨hl, hblank⟩ := List.mem_filter.1 hl
      exact hle l hl (by simpa using hblank)
  exact congrArg (Option.getD · 0) hmin

theorem dropLead_map {f g : List Char → List Char}
    (hblank : ∀ line ∈ lines, allBlank (f line) → f line = g line)
    (hdrop : ∀ line ∈ lines, allBlank (f line) = false → (f line).drop n = g line) :
    dropLead n (lines.map f) = lines.map g := by
  rw [dropLead, List.map_map]
  refine List.map_congr_left fun line hline => ?_
  rw [Function.comp_apply]
  split
  · rename_i h
    exact hblank line hline h
  · rename_i h
    exact hdrop line hline (by simpa using h)

theorem allBlank_row (indent : Nat) (line : List Char) : allBlank (row indent line) = false := by
  simp [allBlank, row, show isBlank '*' = false from rfl]

theorem takeWhile_space_row (indent : Nat) (line : List Char) :
    (row indent line).takeWhile (· == ' ') = List.replicate indent ' ' := by
  rw [row, List.takeWhile_append_of_pos (by simp), List.takeWhile_cons_of_neg (by decide),
    List.append_nil]

theorem takeWhile_star_row (line : List Char) : (row 0 line).takeWhile (· == '*') = ['*'] := by
  cases line <;> rfl

theorem dropIndent_rows (hne : lines ≠ []) :
    dropIndent (lines.map (row indent)) = lines.map (row 0) := by
  obtain ⟨line, hline⟩ := List.exists_mem_of_ne_nil lines hne
  have hindent : commonLead ' ' (lines.map (row indent)) = indent := by
    refine commonLead_eq ⟨_, List.mem_map_of_mem hline, allBlank_row indent line, ?_⟩
      (List.forall_mem_map.2 fun line _ _ => ?_)
    · rw [takeWhile_space_row, List.length_replicate]
    · rw [takeWhile_space_row, List.length_replicate]
  rw [dropIndent, hindent]
  refine dropLead_map (fun line _ h => ?_) fun line _ _ => ?_
  · rw [allBlank_row] at h
    cases h
  · exact List.drop_left' List.length_replicate

theorem commonLead_star_rows (hne : lines ≠ []) : commonLead '*' (lines.map (row 0)) = 1 := by
  obtain ⟨line, hline⟩ := List.exists_mem_of_ne_nil lines hne
  refine commonLead_eq ⟨_, List.mem_map_of_mem hline, allBlank_row 0 line, ?_⟩
    (List.forall_mem_map.2 fun line _ _ => ?_)
  · rw [takeWhile_star_row, List.length_singleton]
  · rw [takeWhile_star_row, List.length_singleton]

theorem dropLead_star_rows (lines : List (List Char)) :
    dropLead 1 (lines.map (row 0)) = lines.map afterStar := by
  refine dropLead_map (fun line _ h => ?_) fun line _ _ => rfl
  rw [allBlank_row] at h
  cases h

theorem allBlank_afterStar (line : List Char) : allBlank (afterStar line) = allBlank line := by
  cases line <;> rfl

/-- The space after the stars is all that the lines have in common. -/
theorem Plain.commonLead_afterStar (h : Plain lines) :
    commonLead ' ' (lines.map afterStar) = 1 := by
  obtain ⟨line, hline, hblank, hflush⟩ := h.flush
  refine commonLead_eq ⟨_, List.mem_map_of_mem hline, ?_, ?_⟩
    (List.forall_mem_map.2 fun line _ hblank => ?_)
  · rw [← hblank]
    exact allBlank_afterStar line
  · cases line with
    | nil => cases hblank
    | cons c cs =>
      have hc : ¬ (c == ' ') := by simpa using hflush
      rw [afterStar, List.takeWhile_cons_of_pos rfl, List.takeWhile_cons, if_neg hc]
      rfl
  · cases line with
    | nil => cases hblank
    | cons c cs =>
      rw [afterStar, List.takeWhile_cons_of_pos rfl]
      exact Nat.le_add_left 1 _

theorem Plain.dropIndent_afterStar (h : Plain lines) :
    dropIndent (lines.map afterStar) = lines := by
  rw [dropIndent, h.commonLead_afterStar]
  refine (dropLead_map (g := id) (fun line hline hblank => ?_) fun line _ hblank => ?_).trans
    (List.map_id lines)
  · rw [allBlank_afterStar] at hblank
    rw [h.blank line hline hblank]
    rfl
  · cases line with
    | nil => cases hblank
    | cons c cs => rfl

theorem Plain.dropStars_rows (h : Plain lines) : dropStars (lines.map (row indent)) = lines := by
  rw [dropStars, dropIndent_rows h.ne_nil]
  simp only [commonLead_star_rows h.ne_nil, dropLead_star_rows]
  exact h.dropIndent_afterStar

/-- Cleaning a doc comment in the usual layout gives its lines. -/
theorem clean_layout (h : Plain lines) (hend : lineEnd ∈ ["\n".toList, "\r\n".toList]) :
    clean (layout lineEnd indent closing lines) = joinWith ['\n'] lines := by
  have hnewline : ∀ text ∈ lines.map (row indent), '\n' ∉ text :=
    List.forall_mem_map.2 fun line hline hmem =>
      h.newline line hline (mem_row (by decide) (by decide) hmem)
  have hrows : lines.map (row indent) ≠ [] := mt List.map_eq_nil_iff.1 h.ne_nil
  simp only [clean]
  rw [h.plainLineEnds_layout hend, h.replace_deprecated, layout_eq h.ne_nil, dropOpening_newline,
    dropClosing_newline, Text.splitOn_joinWith hnewline hrows, h.dropStars_rows]

/-- Lines may start with stars, slashes, tabs and spaces themselves, and the closing need not
    stand under the stars. -/
theorem clean_layout_stars :
    Plain ["* First.\t".toList, [], "\t/** tab".toList, "  @param? x *".toList] ∧
    clean "/**\r\n   * * First.\t\r\n   *\r\n   * \t/** tab\r\n   *   @param? x *\r\n */".toList =
      "* First.\t\n\n\t/** tab\n  @param? x *".toList ∧
    clean "/**\n* * First.\t\n*\n* \t/** tab\n*   @param? x *\n*/".toList =
      "* First.\t\n\n\t/** tab\n  @param? x *".toList := by
  have h : Plain ["* First.\t".toList, [], "\t/** tab".toList, "  @param? x *".toList] :=
    ⟨by decide, by decide, by decide, by decide, _, List.mem_cons_self, by decide, by decide⟩
  refine ⟨h, Eq.trans ?_ (@clean_layout _ 3 1 "\r\n".toList h (by decide)),
    Eq.trans ?_ (@clean_layout _ 0 0 "\n".toList h (by decide))⟩
  · exact congrArg clean (by decide)
  · exact congrArg clean (by decide)

end Stencil.DocComment
