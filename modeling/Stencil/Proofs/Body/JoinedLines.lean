/-
  Stencil/Proofs/Body/JoinedLines.lean
  ====================================
  **What joining the lines of a text keeps.**

  Joined lines have all the characters of the text other than white space, in their
  order, and no newline, so joining them again changes nothing.  A line that is
  broken between two words, where a space was, is joined with this space
  (`joinLines_broken`), however the new line is indented.
-/
import Stencil.Body.Lines
import Stencil.Proofs.Text.Characters
import Stencil.Proofs.Text.Split
import Stencil.Proofs.Text.Trim

namespace Stencil.Body

open Text (isBlank trim trimStart trimEnd dropEndWhile splitOn)

variable {cs : List Char}

/-! ### Characters other than white space -/

/-- The text without its white space. -/
def visible (cs : List Char) : List Char := cs.filter fun c => !isBlank c

@[simp] theorem visible_append (cs ds : List Char) : visible (cs ++ ds) = visible cs ++ visible ds :=
  List.filter_append ..

theorem visible_dropWhile {p : Char → Bool} (hp : ∀ c, p c → isBlank c) (cs : List Char) :
    visible (cs.dropWhile p) = visible cs := by
  induction cs with
  | nil => rfl
  | cons c cs ih =>
    by_cases hc : p c
    · rw [List.dropWhile_cons_of_pos hc, ih, visible, visible,
        List.filter_cons_of_neg (by simp [hp c hc])]
    · rw [List.dropWhile_cons_of_neg hc]

theorem visible_dropEndWhile {p : Char → Bool} (hp : ∀ c, p c → isBlank c) (cs : List Char) :
    visible (dropEndWhile p cs) = visible cs := by
  have hreverse := visible_dropWhile hp cs.reverse
  rw [visible, visible, List.filter_reverse] at hreverse
  rw [dropEndWhile, visible, List.filter_reverse, hreverse, List.reverse_reverse, visible]

@[simp] theorem visible_trimStart (cs : List Char) : visible (trimStart cs) = visible cs :=
  visible_dropWhile (fun _ => id) cs

@[simp] theorem visible_trimEnd (cs : List Char) : visible (trimEnd cs) = visible cs :=
  visible_dropEndWhile (fun _ => id) cs

@[simp] theorem visible_trim (cs : List Char) : visible (trim cs) = visible cs := by
  rw [trim, visible_trimEnd, visible_trimStart]

/-- The pieces between white space have all the rest. -/
theorem visible_splitOn {p : Char → Bool} (hp : ∀ c, p c → isBlank c) (cs : List Char) :
    (splitOn p cs).flatMap visible = visible cs := by
  induction cs with
  | nil => rfl
  | cons c cs ih =>
    rw [splitOn]
    split
    · rename_i hc
      rw [List.flatMap_cons, ih, visible, visible, visible, List.filter_cons_of_neg (by simp [hp c hc])]
      rfl
    · obtain ⟨piece, pieces, hpieces⟩ := List.exists_cons_of_ne_nil (Text.splitOn_ne_nil p cs)
      rw [hpieces, List.flatMap_cons] at ih
      rw [hpieces, List.flatMap_cons, ← List.singleton_append, visible_append, List.append_assoc, ih,
        ← visible_append]
      rfl

theorem visible_joinLine (before line : List Char) :
    visible (joinLine before line) = visible before ++ visible line := by
  rw [joinLine]
  split
  · rename_i hline
    rw [List.isEmpty_iff.1 hline]
    exact (List.append_nil _).symm
  · split
    · exact visible_append before line
    · rw [visible_append]
      rfl

theorem visible_foldl_joinLine (lines : List (List Char)) (before : List Char) :
    visible (lines.foldl joinLine before) = visible before ++ lines.flatMap visible := by
  induction lines generalizing before with
  | nil => exact (List.append_nil _).symm
  | cons line lines ih =>
    rw [List.foldl_cons, ih, visible_joinLine, List.append_assoc, List.flatMap_cons]

theorem visible_trimLater (lines : List (List Char)) :
    (trimLater lines).flatMap visible = lines.flatMap visible := by
  induction lines with
  | nil => rfl
  | cons line rest ih =>
    cases rest with
    | nil => simp [trimLater]
    | cons next rest =>
      rw [trimLater.eq_3 _ _ (by simp), List.flatMap_cons, ih, visible_trim, ← List.flatMap_cons]

theorem visible_rawLines (cs : List Char) : (rawLines cs).flatMap visible = visible cs := by
  have hreturn : ∀ c, c == '\r' → isBlank c := fun c hc => beq_iff_eq.1 hc ▸ rfl
  have hnewline : ∀ c, c == '\n' → isBlank c := fun c hc => beq_iff_eq.1 hc ▸ rfl
  rw [rawLines, List.flatMap_map, ← visible_splitOn hnewline cs]
  exact List.flatMap_congr fun line _ => visible_dropEndWhile hreturn line

theorem visible_joinLines (cs : List Char) : visible (joinLines cs) = visible cs := by
  rw [joinLines]
  split
  · rename_i first second rest hlines
    rw [visible_foldl_joinLine, visible_trimLater, visible_trimEnd, ← visible_rawLines cs, hlines]
    rfl
  · rfl

/-! ### Newlines -/

theorem notMem_foldl_joinLine {c : Char} (hc : c ≠ ' ') {lines : List (List Char)}
    {before : List Char} (hbefore : c ∉ before) (hlines : ∀ line ∈ lines, c ∉ line) :
    c ∉ lines.foldl joinLine before := by
  induction lines generalizing before with
  | nil => exact hbefore
  | cons line lines ih =>
    obtain ⟨hline, hlines⟩ := List.forall_mem_cons.1 hlines
    refine ih ?_ hlines
    rw [joinLine]
    split
    · exact hbefore
    · split <;> simp [hbefore, hline, hc]

theorem notMem_trimLater {c : Char} {lines : List (List Char)} (h : ∀ line ∈ lines, c ∉ line) :
    ∀ line ∈ trimLater lines, c ∉ line := by
  induction lines with
  | nil => exact h
  | cons line rest ih =>
    obtain ⟨hline, hrest⟩ := List.forall_mem_cons.1 h
    cases rest with
    | nil => exact List.forall_mem_singleton.2 fun hc => hline (Text.subset_trimStart line hc)
    | cons next rest =>
      rw [trimLater.eq_3 _ _ (by simp)]
      exact List.forall_mem_cons.2 ⟨fun hc => hline (Text.subset_trim line hc), ih hrest⟩

theorem newline_notMem_rawLines (cs : List Char) : ∀ line ∈ rawLines cs, '\n' ∉ line := by
  intro line hline hnewline
  obtain ⟨whole, hwhole, rfl⟩ := List.mem_map.1 hline
  obtain ⟨-, hne⟩ := Text.mem_of_mem_splitOn hwhole (Text.subset_dropEndWhile _ _ hnewline)
  exact absurd hne (by decide)

/-- A text without a newline is its own only line. -/
theorem joinLines_eq_self (h : '\n' ∉ cs) : joinLines cs = cs := by
  have hsplit : splitOn (· == '\n') cs = [cs] :=
    Text.splitOn_eq_singleton fun c hc => beq_false_of_ne fun heq => h (heq ▸ hc)
  rw [joinLines, rawLines, hsplit]
  rfl

theorem newline_notMem_joinLines (cs : List Char) : '\n' ∉ joinLines cs := by
  have hlines := newline_notMem_rawLines cs
  rw [joinLines]
  split
  · rename_i first second rest heq
    rw [heq, List.forall_mem_cons] at hlines
    refine notMem_foldl_joinLine (by decide) (fun hfirst => ?_) (notMem_trimLater hlines.2)
    exact hlines.1 (Text.subset_dropEndWhile _ _ hfirst)
  · rename_i hone
    -- all of the text is in one line
    obtain ⟨line, rest, hsplit⟩ := List.exists_cons_of_ne_nil (Text.splitOn_ne_nil (· == '\n') cs)
    cases rest with
    | nil =>
      have hcs := Text.joinWith_splitOn '\n' cs
      rw [hsplit, Text.joinWith] at hcs
      intro hnewline
      rw [← hcs] at hnewline
      exact absurd (Text.mem_of_mem_splitOn (hsplit ▸ List.mem_singleton_self line) hnewline).2
        (by decide)
    | cons second rest => exact absurd (by rw [rawLines, hsplit]; rfl) (hone _ _ _)

theorem joinLines_joinLines (cs : List Char) : joinLines (joinLines cs) = joinLines cs :=
  joinLines_eq_self (newline_notMem_joinLines cs)

/-! ### Broken lines -/

/-- A line that is broken between two words: the text before and after the space
    that stands there, and the blanks that take its place on both sides of the
    newline.  There are no carriage returns, and the words do not touch tags of HTML. -/
structure LineBreak where
  before : List Char
  after : List Char
  trail : List Char
  indent : List Char
  ends : ∃ c, before.getLast? = some c ∧ isBlank c = false ∧ c ≠ '>'
  starts : ∃ c, after.head? = some c ∧ isBlank c = false ∧ c ≠ '<'
  plain : '\r' ∉ before ++ after
  blanks : ∀ c ∈ trail ++ indent, c = ' ' ∨ c = '\t'

namespace LineBreak

/-- The text with the space. -/
def whole (b : LineBreak) : List Char := b.before ++ ' ' :: b.after

/-- The newline with the blanks around it. -/
def pad (b : LineBreak) : List Char := b.trail ++ '\n' :: b.indent

/-- The text with the newline. -/
def broken (b : LineBreak) : List Char := b.before ++ (b.pad ++ b.after)

end LineBreak

@[simp] theorem joinLine_nil (line : List Char) : joinLine [] line = line := by
  rw [joinLine]
  split
  · rename_i hline
    exact (List.isEmpty_iff.1 hline).symm
  · rfl

/-- What stands between the text and a line that is put after it depends on the start
    of the line. -/
theorem exists_gap (before : List Char) (c : Char) :
    ∃ gap, ∀ rest, joinLine before (c :: rest) = before ++ (gap ++ c :: rest) := by
  by_cases h : before.isEmpty || before.getLast? == some '>' || some c == some '<'
  · exact ⟨[], fun rest => by rw [joinLine, if_neg (by simp), List.head?_cons, if_pos h]; rfl⟩
  · exact ⟨[' '], fun rest => by rw [joinLine, if_neg (by simp), List.head?_cons, if_neg h]; rfl⟩

/-- Two words in one line are put after the text like the same words in two lines. -/
theorem joinLine_joinLine {before word next : List Char}
    (hword : ∃ c, word.getLast? = some c ∧ c ≠ '>') (hnext : ∃ c, next.head? = some c ∧ c ≠ '<') :
    joinLine (joinLine before word) next = joinLine before (word ++ ' ' :: next) := by
  obtain ⟨c, hc, hcne⟩ := hword
  obtain ⟨d, hd, hdne⟩ := hnext
  cases word with
  | nil => cases hc
  | cons e front =>
    obtain ⟨rest, rfl⟩ := List.head?_eq_some_iff.1 hd
    obtain ⟨gap, hgap⟩ := exists_gap before e
    have hlast : (before ++ (gap ++ e :: front)).getLast? = some c := by
      simp only [List.getLast?_append, hc, Option.some_or]
    rw [List.cons_append, hgap, hgap, joinLine, if_neg (by simp), hlast, if_neg (by simp [hcne, hdne])]
    simp

/-- Without carriage returns the lines are what stands between newlines. -/
theorem rawLines_eq_splitOn (h : '\r' ∉ cs) : rawLines cs = splitOn (· == '\n') cs := by
  rw [rawLines]
  refine (List.map_congr_left fun line hline => ?_).trans (List.map_id _)
  refine Text.dropEndWhile_eq_self fun c hc => beq_false_of_ne fun heq => h ?_
  exact heq ▸ (Text.mem_of_mem_splitOn hline (List.mem_of_mem_getLast? hc)).1

theorem trimLater_append (lines : List (List Char)) (line : List Char) (rest : List (List Char)) :
    trimLater (lines ++ line :: rest) = lines.map trim ++ trimLater (line :: rest) := by
  induction lines with
  | nil => rfl
  | cons first lines ih =>
    rw [List.cons_append, trimLater.eq_3 _ _ (by simp), ih]
    rfl

theorem joinLines_of_rawLines {first : List Char} {rest : List (List Char)}
    (h : rawLines cs = first :: rest) (hne : rest ≠ []) :
    joinLines cs = (trimLater rest).foldl joinLine (trimEnd first) := by
  obtain ⟨second, rest, rfl⟩ := List.exists_cons_of_ne_nil hne
  rw [joinLines, h]

/-- A line is trimmed at its start, and the rest of it as any later line is. -/
theorem exists_trimLater (rest : List (List Char)) {first : List Char} {d : Char}
    (hd : first.head? = some d) (hblank : isBlank d = false) : ∃ next others,
      next.head? = some d ∧
        ∀ front, trimLater ((front ++ first) :: rest) = trimStart (front ++ next) :: others := by
  cases rest with
  | nil => exact ⟨first, [], hd, fun front => rfl⟩
  | cons second rest =>
    refine ⟨trimEnd first, trimLater (second :: rest), Text.head?_trimEnd hd hblank, fun front => ?_⟩
    have hfirst : ∃ c ∈ first, isBlank c = false := ⟨d, List.mem_of_mem_head? hd, hblank⟩
    rw [trimLater.eq_3 _ _ (by simp), trim]
    by_cases hfront : ∃ c ∈ front, isBlank c = false
    · rw [Text.trimStart_append_of_mem hfront, Text.trimStart_append_of_mem hfront,
        Text.trimEnd_append_of_mem hfirst]
    · have hblanks : ∀ c ∈ front, isBlank c := by
        simpa using hfront
      rw [Text.trimStart_append hblanks hd hblank,
        Text.trimStart_append hblanks (Text.head?_trimEnd hd hblank) hblank]

namespace LineBreak

variable (b : LineBreak)

theorem isBlank_of_mem {c : Char} (hc : c ∈ b.trail ++ b.indent) : isBlank c := by
  rcases b.blanks c hc with rfl | rfl <;> rfl

theorem isBlank_of_mem_pad {c : Char} (hc : c ∈ b.pad) : isBlank c := by
  rw [pad, List.mem_append, List.mem_cons] at hc
  rcases hc with hc | rfl | hc
  · exact b.isBlank_of_mem (List.mem_append_left _ hc)
  · rfl
  · exact b.isBlank_of_mem (List.mem_append_right _ hc)

theorem broken_eq : b.broken = b.before ++ b.trail ++ '\n' :: (b.indent ++ b.after) := by
  simp [broken, pad]

theorem return_notMem_whole : '\r' ∉ b.whole := by
  simpa [whole] using b.plain

/-- The lines of the text with the space and of the text with the newline. -/
theorem exists_rawLines : ∃ lines last first rest,
    rawLines b.whole = lines ++ (last ++ ' ' :: first) :: rest ∧
      rawLines b.broken = lines ++ (last ++ b.trail) :: (b.indent ++ first) :: rest ∧
      (∃ c, last.getLast? = some c ∧ isBlank c = false ∧ c ≠ '>') ∧
      ∃ c, first.head? = some c ∧ isBlank c = false ∧ c ≠ '<' := by
  obtain ⟨c, hc, hcblank, hcne⟩ := b.ends
  obtain ⟨d, hd, hdblank, hdne⟩ := b.starts
  obtain ⟨lines, last, hbefore⟩ : ∃ lines last,
      splitOn (· == '\n') b.before = lines ++ [last] :=
    (List.eq_nil_or_concat' _).resolve_left (Text.splitOn_ne_nil _ _)
  obtain ⟨first, rest, hafter⟩ :=
    List.exists_cons_of_ne_nil (Text.splitOn_ne_nil (· == '\n') b.after)
  have hblanks : ∀ c ∈ b.trail ++ b.indent, (c == '\n') = false ∧ c ≠ '\r' := by
    intro c hc
    rcases b.blanks c hc with rfl | rfl <;> decide
  have hbroken : '\r' ∉ b.broken := by
    have hpad : '\r' ∉ b.trail ++ b.indent := fun hc => (hblanks _ hc).2 rfl
    have hplain := b.plain
    rw [List.mem_append, not_or] at hplain hpad
    simp [broken_eq, hplain, hpad]
  refine ⟨lines, last, first, rest, ?_, ?_, ⟨c, ?_, hcblank, hcne⟩, d, ?_, hdblank, hdne⟩
  · have hspace : splitOn (· == '\n') (' ' :: b.after) = (' ' :: first) :: rest := by
      rw [splitOn, hafter]
      rfl
    rw [rawLines_eq_splitOn b.return_notMem_whole, whole, Text.splitOn_append hbefore hspace]
  · have htrail : splitOn (· == '\n') b.trail = [b.trail] :=
      Text.splitOn_eq_singleton fun c hc => (hblanks c (List.mem_append_left _ hc)).1
    have hindent : splitOn (· == '\n') b.indent = [] ++ [b.indent] :=
      Text.splitOn_eq_singleton fun c hc => (hblanks c (List.mem_append_right _ hc)).1
    rw [rawLines_eq_splitOn hbroken, broken_eq, Text.splitOn_append_cons rfl,
      Text.splitOn_append hbefore htrail, Text.splitOn_append hindent hafter]
    simp
  · refine Text.getLast?_of_splitOn hbefore hc ?_
    rintro rfl
    cases hcblank
  · refine Text.head?_of_splitOn hafter hd ?_
    rintro rfl
    cases hdblank

/-- A line may be broken between two words. -/
theorem joinLines_broken : joinLines b.broken = joinLines b.whole := by
  obtain ⟨lines, last, first, rest, hwhole, hbroken, ⟨c, hc, hcblank, hcne⟩, d, hd, hdblank, hdne⟩ :=
    b.exists_rawLines
  have htrail : ∀ c ∈ b.trail, isBlank c := fun c hc => b.isBlank_of_mem (List.mem_append_left _ hc)
  have hindent : ∀ c ∈ b.indent, isBlank c :=
    fun c hc => b.isBlank_of_mem (List.mem_append_right _ hc)
  have hlast : ∃ c ∈ last, isBlank c = false := ⟨c, List.mem_of_mem_getLast? hc, hcblank⟩
  have hfirst : ∃ c ∈ first, isBlank c = false := ⟨d, List.mem_of_mem_head? hd, hdblank⟩
  have htrimEnd : ∀ {word : List Char}, word.getLast? = some c → trimEnd (word ++ b.trail) = word :=
    fun h => Text.trimEnd_append htrail (Text.isBlank_eq_false_of_getLast? h hcblank)
  cases lines with
  | cons line lines =>
    -- the break is in a later line, and this is trimmed at its start in both texts
    obtain ⟨next, others, hnext, htrim⟩ := exists_trimLater rest hd hdblank
    have hstart := Text.getLast?_trimStart hc hcblank
    have hwholeLater : trimLater ((last ++ ' ' :: first) :: rest) =
        (trimStart last ++ ' ' :: next) :: others := by
      rw [List.append_cons, htrim, List.append_assoc, Text.trimStart_append_of_mem hlast]
      rfl
    have hbrokenLater : trimLater ((last ++ b.trail) :: (b.indent ++ first) :: rest) =
        trimStart last :: next :: others := by
      rw [trimLater.eq_3 _ _ (by simp), htrim, trim, Text.trimStart_append_of_mem hlast,
        htrimEnd hstart, Text.trimStart_append hindent hnext hdblank]
    rw [List.cons_append] at hwhole hbroken
    rw [joinLines_of_rawLines hbroken (by simp), joinLines_of_rawLines hwhole (by simp),
      trimLater_append, trimLater_append, hwholeLater, hbrokenLater, List.foldl_append,
      List.foldl_append, List.foldl_cons, List.foldl_cons, List.foldl_cons,
      joinLine_joinLine ⟨c, hstart, hcne⟩ ⟨d, hnext, hdne⟩]
  | nil =>
    -- the break is in the first line, which keeps its start
    have hword : ∀ {next : List Char}, next.head? = some d →
        joinLine last next = last ++ ' ' :: next := by
      intro next hnext
      have hjoin := @joinLine_joinLine [] last next ⟨c, hc, hcne⟩ ⟨d, hnext, hdne⟩
      rwa [joinLine_nil, joinLine_nil] at hjoin
    rw [joinLines_of_rawLines hbroken (by simp), htrimEnd hc]
    cases rest with
    | nil =>
      have hcs : last ++ ' ' :: first = b.whole := by
        have hlines := Text.joinWith_splitOn '\n' b.whole
        rwa [← rawLines_eq_splitOn b.return_notMem_whole, hwhole, List.nil_append,
          Text.joinWith] at hlines
      have hnewline : '\n' ∉ b.whole := by
        rw [← hcs]
        exact newline_notMem_rawLines b.whole _ (hwhole ▸ List.mem_singleton_self _)
      rw [joinLines_eq_self hnewline, ← hcs, trimLater, Text.trimStart_append hindent hd hdblank]
      exact hword hd
    | cons second rest =>
      rw [joinLines_of_rawLines hwhole (by simp), trimLater.eq_3 _ _ (by simp), trim,
        Text.trimStart_append hindent hd hdblank, List.foldl_cons,
        hword (Text.head?_trimEnd hd hdblank), List.append_cons last ' ' first,
        Text.trimEnd_append_of_mem hfirst, ← List.append_cons]

end LineBreak

end Stencil.Body
