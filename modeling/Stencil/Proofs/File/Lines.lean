/-
  Stencil/Proofs/File/Lines.lean
  ==============================
  **Items on other lines.**

  Behind a text in which no item is open at the end, the scanner finds the items of
  the rest as it would by themselves, further down (`scan_append`).  Items and
  complaints stand in the lines that the scanner has come past (`Scanner.Bounded`).
  So newlines between two such texts move what stands after them, and nothing else
  (`scan_insert`).
-/
import Stencil.Proofs.File.Layout
import Stencil.Proofs.Template.Lines

namespace Stencil.File

/-! ### Lines -/

namespace Item

/-- The item with its line changed, where it knows it. -/
def mapLine (f : Nat → Nat) : Item → Item
  | .template raw => .template { raw with line := f raw.line }
  | item => item

/-- The number of lines of an item after its first one, as far as lines in it matter. -/
def height : Item → Nat
  | .template raw => raw.height
  | _ => 0

def isTemplate : Item → Bool
  | .template _ => true
  | _ => false

end Item

/-- The item with its line changed. -/
def Placed.mapLine (f : Nat → Nat) (t : Placed) : Placed := ⟨t.item.mapLine f, f t.line⟩

/-- The item stands in the lines up to the last, and a template knows where. -/
structure Placed.Within (last : Nat) (t : Placed) : Prop where
  pos : 0 < t.line
  last_le : t.line + t.item.height ≤ last
  line_eq : ∀ raw, t.item = .template raw → raw.line = t.line

theorem Placed.Within.mono {t : Placed} {last last' : Nat} (h : t.Within last)
    (hle : last ≤ last') : t.Within last' := ⟨h.pos, Nat.le_trans h.last_le hle, h.line_eq⟩

namespace Mode

def mapLine (f : Nat → Nat) : Mode → Mode
  | .comment line afterStar => .comment (f line) afterStar
  | .doc line chars => .doc (f line) chars
  | .tag line lineStart quoted chars => .tag (f line) lineStart quoted chars
  | .template line isDelegate text chars => .template (f line) isDelegate text chars
  | .stuck fault => .stuck (fault.mapLine f)
  | mode => mode

/-- No item is open: the scanner is between items, or it cannot go on anyway. -/
def isClosed : Mode → Bool
  | .between | .lineComment | .stuck _ => true
  | _ => false

/-- What is open started in a line up to this one, a template before its lines, and what
    is wrong is in a line up to the last. -/
def Within (last line : Nat) : Mode → Prop
  | .comment start _ | .doc start _ | .tag start _ _ _ => 0 < start ∧ start ≤ line
  | .template start _ _ chars => 0 < start ∧ start + chars.count '\n' ≤ line
  | .stuck fault => 0 < fault.line ∧ fault.line ≤ last
  | _ => True

end Mode

namespace Scanner

variable {s : Scanner}

/-! ### Scanning further down -/

/-- The scanner `count` lines further down, behind other items. -/
def below (before : List Placed) (count : Nat) (s : Scanner) : Scanner :=
  { mode := s.mode.mapLine (· + count)
    line := s.line + count
    lineStart := s.lineStart
    items := s.items.map (Placed.mapLine (· + count)) ++ before }

section Below

variable (before : List Placed) (count : Nat) (s : Scanner)

theorem stepBetween_below (c : Char) :
    (s.below before count).stepBetween c = (s.stepBetween c).below before count := by
  unfold stepBetween
  split
  · rfl
  · split
    · rfl
    · split <;> rfl

theorem closeTag_below (line : Nat) (lineStart : Bool) (inside : List Char) :
    (s.below before count).closeTag (line + count) lineStart inside =
      (s.closeTag line lineStart inside).below before count := by
  unfold closeTag
  split
  rename_i name text _
  dsimp only
  split
  · split <;> rfl
  · split <;> rfl
  · split <;> rfl
  · rfl
  · rfl
  · split <;> rfl

theorem closeTemplate_below (line : Nat) (isDelegate : Bool) (text : List Char)
    (closesDelegate : Bool) (body : List Char) :
    (s.below before count).closeTemplate (line + count) isDelegate text closesDelegate body =
      (s.closeTemplate line isDelegate text closesDelegate body).below before count := by
  unfold closeTemplate
  split
  · rfl
  · split <;> rfl

theorem stepChar_below (c : Char) :
    (s.below before count).stepChar c = (s.stepChar c).below before count := by
  obtain ⟨mode, line, lineStart, items⟩ := s
  cases mode with
  | between => exact stepBetween_below before count _ c
  | slash =>
    simp only [stepChar, below, Mode.mapLine]
    split
    · rfl
    · split <;> rfl
  | slashStar =>
    simp only [stepChar, below, Mode.mapLine]
    split <;> rfl
  | slashStarStar =>
    simp only [stepChar, below, Mode.mapLine]
    split <;> rfl
  | comment start afterStar =>
    simp only [stepChar, below, Mode.mapLine]
    split <;> rfl
  | lineComment =>
    simp only [stepChar, below, Mode.mapLine]
    split
    · exact stepBetween_below before count ⟨.lineComment, line, lineStart, items⟩ c
    · rfl
  | doc start chars =>
    simp only [stepChar, below, Mode.mapLine]
    split <;> rfl
  | tag start atStart quoted chars =>
    simp only [stepChar, below, Mode.mapLine]
    split
    · rfl
    · split
      · exact closeTag_below before count ⟨.tag start atStart quoted chars, line, lineStart, items⟩
          start atStart chars.reverse
      · rfl
  | template start isDelegate text chars =>
    simp only [stepChar, below, Mode.mapLine]
    split
    · exact closeTemplate_below before count
        ⟨.template start isDelegate text chars, line, lineStart, items⟩ _ _ _ _ _
    · rfl
  | stuck fault => rfl

theorem step_below (c : Char) : (s.below before count).step c = (s.step c).below before count := by
  rw [step_eq, step_eq, stepChar_below, below, below, lineAfter, lineAfter]
  dsimp only
  rw [Nat.add_right_comm]

theorem foldl_step_below (cs : List Char) :
    cs.foldl step (s.below before count) = (cs.foldl step s).below before count := by
  induction cs generalizing s with
  | nil => rfl
  | cons c cs ih => rw [List.foldl_cons, List.foldl_cons, step_below, ih]

theorem fault?_below :
    (s.below before count).fault? = s.fault?.map (Fault.mapLine (· + count)) := by
  obtain ⟨mode, line, lineStart, items⟩ := s
  cases mode <;> rfl

end Below

/-! ### The lines that the scanner has come past -/

/-- The line of the last character. -/
def lastLine (s : Scanner) : Nat := if s.lineStart then s.line - 1 else s.line

/-- Items and complaints stand in the lines up to the last character, and what is open
    started in a line up to this one. -/
structure Bounded (s : Scanner) : Prop where
  line : 0 < s.line
  items : ∀ t ∈ s.items, t.Within s.lastLine
  mode : s.mode.Within s.lastLine s.line

/-- What a scanner in a line can become by a character, the line aside. -/
structure Becomes (line next : Nat) (s : Scanner) : Prop where
  line_eq : s.line = line
  items : ∀ t ∈ s.items, t.Within line
  mode : s.mode.Within line next

theorem lastLine_le (s : Scanner) : s.lastLine ≤ s.line := by
  rw [lastLine]
  split <;> omega

theorem Bounded.items_within (h : s.Bounded) : ∀ t ∈ s.items, t.Within s.line :=
  fun t ht => (h.items t ht).mono s.lastLine_le

theorem Bounded.withMode (h : s.Bounded) {mode : Mode} {next : Nat}
    (hmode : mode.Within s.line next) : Becomes s.line next { s with mode } :=
  ⟨rfl, h.items_within, hmode⟩

theorem Bounded.emit (h : s.Bounded) {item : Item} {line next : Nat}
    (hitem : Placed.Within s.line ⟨item, line⟩) : Becomes s.line next (s.emit item line) :=
  ⟨rfl, List.forall_mem_cons.2 ⟨hitem, h.items_within⟩, trivial⟩

theorem Bounded.emit_plain (h : s.Bounded) {item : Item} {line next : Nat}
    (hline : 0 < line ∧ line ≤ s.line) (hitem : item.isTemplate = false) :
    Becomes s.line next (s.emit item line) := by
  have hheight : item.height = 0 := by
    cases item with
    | template raw => cases hitem
    | _ => rfl
  refine h.emit ⟨hline.1, by rw [hheight]; exact hline.2, ?_⟩
  rintro raw rfl
  cases hitem

theorem Bounded.fail (h : s.Bounded) (cause : ScanCause) {line next : Nat}
    (hline : 0 < line ∧ line ≤ s.line) : Becomes s.line next (s.fail cause line) :=
  h.withMode hline

theorem Bounded.stepBetween (h : s.Bounded) (c : Char) {next : Nat} (hnext : s.line ≤ next) :
    Becomes s.line next (s.stepBetween c) := by
  rw [Scanner.stepBetween]
  split
  · exact h.withMode trivial
  · split
    · exact h.withMode trivial
    · split
      · exact h.withMode ⟨h.line, hnext⟩
      · exact h.fail _ ⟨h.line, Nat.le_refl _⟩

theorem Bounded.closeTag (h : s.Bounded) {line next : Nat} (hline : 0 < line ∧ line ≤ s.line)
    (hnext : s.line ≤ next) (lineStart : Bool) (inside : List Char) :
    Becomes s.line next (s.closeTag line lineStart inside) := by
  have hopen : line + ([] : List Char).count '\n' ≤ next := Nat.le_trans hline.2 hnext
  have hdeclare : ∀ {item : Item} {name : String}, item.isTemplate = false → Becomes s.line next
      (if lineStart then s.emit item line else s.fail (.notAtLineStart name) line) := by
    intro item name hitem
    split
    · exact h.emit_plain hline hitem
    · exact h.fail _ hline
  unfold Scanner.closeTag
  split
  dsimp only
  split
  · exact hdeclare rfl
  · exact hdeclare rfl
  · exact hdeclare rfl
  · exact h.withMode ⟨hline.1, hopen⟩
  · exact h.withMode ⟨hline.1, hopen⟩
  · split
    · exact h.fail _ hline
    · exact h.fail _ hline

theorem Bounded.closeTemplate (h : s.Bounded) {line next : Nat} {body : List Char} (hpos : 0 < line)
    (hbody : line + body.count '\n' ≤ s.line) (isDelegate : Bool) (text : List Char)
    (closesDelegate : Bool) :
    Becomes s.line next (s.closeTemplate line isDelegate text closesDelegate body) := by
  have hline : 0 < line ∧ line ≤ s.line := ⟨hpos, Nat.le_trans (Nat.le_add_right _ _) hbody⟩
  rw [Scanner.closeTemplate]
  split
  · exact h.fail _ hline
  · split
    · exact h.fail _ hline
    · refine h.emit ⟨hpos, hbody, ?_⟩
      rintro _ ⟨⟩
      rfl

theorem count_le_of_endTag? {chars body : List Char} {closesDelegate : Bool}
    (h : endTag? chars = some (closesDelegate, body)) : body.count '\n' ≤ chars.count '\n' := by
  rw [endTag?] at h
  split at h
  · rename_i rest hrest
    cases h
    rw [Text.dropPrefix?_eq_some_iff.1 hrest, List.count_append]
    exact Nat.le_add_left _ _
  · obtain ⟨rest, hrest, h⟩ := Option.map_eq_some_iff.1 h
    cases h
    rw [Text.dropPrefix?_eq_some_iff.1 hrest, List.count_append]
    exact Nat.le_add_left _ _

theorem Bounded.stepChar (h : s.Bounded) (c : Char) :
    Becomes s.line (lineAfter s.line [c]) (s.stepChar c) := by
  have hnext : s.line ≤ lineAfter s.line [c] := Nat.le_add_right _ _
  have hhere : 0 < s.line ∧ s.line ≤ s.line := ⟨h.line, Nat.le_refl _⟩
  have hopen : ∀ {line}, 0 < line ∧ line ≤ s.line → 0 < line ∧ line ≤ lineAfter s.line [c] :=
    fun hline => ⟨hline.1, Nat.le_trans hline.2 hnext⟩
  have hmode := h.mode
  rw [Scanner.stepChar]
  split
  · exact h.stepBetween c hnext
  · split
    · exact h.withMode trivial
    · split
      · have hemit : Becomes s.line s.line (s.emit .comment s.line) := h.emit_plain hhere rfl
        exact ⟨hemit.line_eq, hemit.items, trivial⟩
      · exact h.fail _ hhere
  · split
    · exact h.withMode trivial
    · exact h.withMode (hopen hhere)
  · split
    · exact h.emit_plain hhere rfl
    · exact h.withMode (hopen hhere)
  · rename_i line afterStar heq
    rw [heq] at hmode
    split
    · exact h.emit_plain hmode rfl
    · exact h.withMode (hopen hmode)
  · split
    · exact h.stepBetween c hnext
    · rename_i heq _
      exact ⟨rfl, h.items_within, by rw [heq]; trivial⟩
  · rename_i line chars heq
    rw [heq] at hmode
    split
    · exact h.emit_plain hmode rfl
    · exact h.withMode (hopen hmode)
  · rename_i line lineStart quoted chars heq
    rw [heq] at hmode
    split
    · exact h.fail _ hmode
    · split
      · exact h.closeTag hmode hnext _ _
      · exact h.withMode (hopen hmode)
  · rename_i line isDelegate text chars heq
    rw [heq] at hmode
    have hmore : Becomes s.line (lineAfter s.line [c])
        { s with mode := .template line isDelegate text (c :: chars) } := by
      refine h.withMode ⟨hmode.1, ?_⟩
      have hcount := @List.count_append _ _ '\n' [c] chars
      have hbefore : line + chars.count '\n' ≤ s.line := hmode.2
      change line + ([c] ++ chars).count '\n' ≤ s.line + [c].count '\n'
      omega
    split
    · rename_i hend
      refine h.closeTemplate hmode.1 ?_ _ _ _
      rw [List.count_reverse]
      exact Nat.le_trans (Nat.add_le_add_left (count_le_of_endTag? hend) _) hmode.2
    · exact hmore
  · rename_i fault heq
    rw [heq] at hmode
    refine ⟨rfl, h.items_within, ?_⟩
    rw [heq]
    exact ⟨hmode.1, Nat.le_trans hmode.2 s.lastLine_le⟩

theorem Bounded.step (h : s.Bounded) (c : Char) : (s.step c).Bounded := by
  obtain ⟨hline, hitems, hmode⟩ := h.stepChar c
  have hlast : lastLine ⟨(s.stepChar c).mode, lineAfter s.line [c], c == '\n',
      (s.stepChar c).items⟩ = s.line := by
    by_cases hc : c = '\n' <;> simp [lastLine, lineAfter, hc]
  rw [step_eq, hline]
  refine ⟨Nat.lt_of_lt_of_le h.line (Nat.le_add_right _ _), ?_, ?_⟩
  · rw [hlast]
    exact hitems
  · rw [hlast]
    exact hmode

theorem bounded_foldl (cs : List Char) : (cs.foldl step {}).Bounded := by
  have hrun : ∀ s : Scanner, s.Bounded → (cs.foldl step s).Bounded := by
    induction cs with
    | nil => exact fun s hs => hs
    | cons c cs ih => exact fun s hs => ih (s.step c) (hs.step c)
  exact hrun {} ⟨Nat.one_pos, List.forall_mem_nil _, trivial⟩

theorem line_foldl (cs : List Char) (s : Scanner) (h : s.Bounded) :
    (cs.foldl step s).line = lineAfter s.line cs := by
  induction cs generalizing s with
  | nil => rfl
  | cons c cs ih =>
    rw [List.foldl_cons, ih _ (h.step c), step_eq, (h.stepChar c).line_eq, lineAfter_cons]

theorem Bounded.fault_pos (h : s.Bounded) {fault : Fault ScanCause}
    (hfault : s.fault? = some fault) : 0 < fault.line := by
  have hmode := h.mode
  have hline := h.line
  rw [fault?] at hfault
  split at hfault
  all_goals cases hfault
  all_goals first
    | exact hline
    | rename_i heq
      rw [heq] at hmode
      exact hmode.1

/-! ### Texts that are cut between items -/

theorem foldl_step_stuck {fault : Fault ScanCause} (hs : s.mode = .stuck fault) (cs : List Char) :
    (cs.foldl step s).mode = .stuck fault ∧ (cs.foldl step s).items = s.items := by
  induction cs generalizing s with
  | nil => exact ⟨hs, rfl⟩
  | cons c cs ih =>
    have hstay : s.stepChar c = s := by rw [stepChar, hs]
    have hstep : (s.step c).mode = .stuck fault ∧ (s.step c).items = s.items := by
      rw [step_eq, hstay]
      exact ⟨hs, rfl⟩
    rw [List.foldl_cons, ← hstep.2]
    exact ih hstep.1

theorem mode_step_newline (s : Scanner) : (s.step '\n').mode ≠ .lineComment := by
  obtain ⟨mode, line, lineStart, items⟩ := s
  intro h
  cases mode with
  | comment start afterStar => cases afterStar <;> cases h
  | doc start chars =>
    rw [step_eq, stepChar, if_neg (by simp)] at h
    cases h
  | _ => cases h

end Scanner

/-- A text after which a new line starts, and in which no item is open at the end. -/
structure EndsItems (text : List Char) : Prop where
  newline : text = [] ∨ text.getLast? = some '\n'
  closed : (text.foldl Scanner.step {}).mode.isClosed

variable {above below : List Char}

/-- Behind the text the scanner is between items, or it cannot go on. -/
theorem EndsItems.mode_eq (h : EndsItems above) : (above.foldl Scanner.step {}).mode = .between ∨
    ∃ fault, (above.foldl Scanner.step {}).mode = .stuck fault := by
  have hclosed := h.closed
  have hcomment : (above.foldl Scanner.step {}).mode ≠ .lineComment := by
    rcases h.newline with rfl | hlast
    · exact fun h => nomatch h
    · obtain ⟨init, rfl⟩ := List.getLast?_eq_some_iff.1 hlast
      rw [List.foldl_append]
      exact Scanner.mode_step_newline _
  cases hmode : (above.foldl Scanner.step {}).mode with
  | between => exact .inl rfl
  | stuck fault => exact .inr ⟨fault, rfl⟩
  | lineComment => exact absurd hmode hcomment
  | _ =>
    rw [hmode] at hclosed
    cases hclosed

/-- The first line after the text. -/
theorem EndsItems.lines (h : EndsItems above) :
    (above.foldl Scanner.step {}).line = 1 + above.count '\n' ∧
      (above.foldl Scanner.step {}).lineStart = true := by
  refine ⟨Scanner.line_foldl above {} (Scanner.bounded_foldl []), ?_⟩
  rcases h.newline with rfl | hlast
  · rfl
  · obtain ⟨init, rfl⟩ := List.getLast?_eq_some_iff.1 hlast
    rw [List.foldl_append, List.foldl_cons, List.foldl_nil, Scanner.step_eq]
    rfl

theorem EndsItems.lastLine_eq (h : EndsItems above) :
    (above.foldl Scanner.step {}).lastLine = above.count '\n' := by
  rw [Scanner.lastLine, h.lines.1, h.lines.2, if_pos rfl, Nat.add_sub_cancel_left]

/-- Behind a text that ends its items the rest is scanned as by itself, further down. -/
theorem scan_append (h : EndsItems above) (hmode : (above.foldl Scanner.step {}).mode = .between)
    (below : List Char) :
    scan (above ++ below) =
      ((scan above).1 ++ (scan below).1.map (Placed.mapLine (· + above.count '\n')),
        (scan below).2.map (Fault.mapLine (· + above.count '\n'))) := by
  have hstart : above.foldl Scanner.step {} =
      ({} : Scanner).below (scan above).1.reverse (above.count '\n') := by
    obtain ⟨hline, hlineStart⟩ := h.lines
    rw [scan, List.reverse_reverse]
    generalize above.foldl Scanner.step {} = s at hmode hline hlineStart
    obtain ⟨mode, line, lineStart, items⟩ := s
    cases hmode
    cases hline
    cases hlineStart
    rfl
  have hscan : ∀ text, scan text =
      ((text.foldl Scanner.step {}).items.reverse, (text.foldl Scanner.step {}).fault?) :=
    fun _ => rfl
  rw [hscan (above ++ below), List.foldl_append, hstart, Scanner.foldl_step_below,
    Scanner.fault?_below, Scanner.below]
  dsimp only
  rw [List.reverse_append, List.reverse_reverse, ← List.map_reverse]
  rfl

/-! ### Newlines in between -/

/-- The lines after the last of a text, `count` lines further down. -/
def moveBelow (last count line : Nat) : Nat := if line ≤ last then line else line + count

theorem moveBelow_of_le {last line : Nat} (h : line ≤ last) (count : Nat) :
    moveBelow last count line = line := if_pos h

theorem moveBelow_of_lt {last line : Nat} (h : last < line) (count : Nat) :
    moveBelow last count line = line + count := if_neg (Nat.not_le.2 h)

/-- All lines of an item move by as much, and a template knows its line. -/
structure Placed.Moves (f : Nat → Nat) (t : Placed) : Prop where
  move : ∀ d ≤ t.item.height, f (d + t.line) = d + f t.line
  line_eq : ∀ raw, t.item = .template raw → raw.line = t.line

theorem Placed.mapLine_congr {f g : Nat → Nat} {t : Placed}
    (hraw : ∀ raw, t.item = .template raw → raw.line = t.line) (h : f t.line = g t.line) :
    t.mapLine f = t.mapLine g := by
  obtain ⟨item, line⟩ := t
  cases item with
  | template raw =>
    have hline : raw.line = line := hraw raw rfl
    simp only [Placed.mapLine, Item.mapLine, hline, h]
  | _ => exact congrArg _ h

theorem Placed.mapLine_id (t : Placed) : t.mapLine id = t := by
  obtain ⟨item, line⟩ := t
  cases item <;> rfl

theorem Placed.mapLine_mapLine (f g : Nat → Nat) (t : Placed) :
    (t.mapLine f).mapLine g = t.mapLine (g ∘ f) := by
  obtain ⟨item, line⟩ := t
  cases item <;> rfl

variable {t : Placed} {last count : Nat}

/-- An item above the newlines stays where it is. -/
theorem Placed.Within.stays (h : t.Within last) (count : Nat) :
    t.mapLine (moveBelow last count) = t ∧ t.Moves (moveBelow last count) := by
  have hline : t.line ≤ last := Nat.le_trans (Nat.le_add_right _ _) h.last_le
  refine ⟨?_, fun d hd => ?_, h.line_eq⟩
  · have hid : moveBelow last count t.line = id t.line := moveBelow_of_le hline count
    rw [Placed.mapLine_congr h.line_eq hid, t.mapLine_id]
  · have hlast := h.last_le
    rw [moveBelow_of_le hline, moveBelow_of_le (by omega)]

/-- An item below the newlines moves with all its lines. -/
theorem Placed.Within.moves {last' : Nat} (h : t.Within last') (last count : Nat) :
    (t.mapLine (· + last)).mapLine (moveBelow last count) = t.mapLine (· + (last + count)) ∧
      (t.mapLine (· + last)).Moves (moveBelow last count) := by
  have hline : ∀ d, last < d + (t.line + last) := by
    have hpos := h.pos
    omega
  refine ⟨?_, fun d _ => ?_, fun raw hraw => ?_⟩
  · rw [Placed.mapLine_mapLine]
    refine Placed.mapLine_congr h.line_eq ?_
    rw [Function.comp_apply, moveBelow_of_lt (by simpa using hline 0), Nat.add_assoc]
  · change moveBelow last count (d + (t.line + last)) = d + moveBelow last count (t.line + last)
    rw [moveBelow_of_lt (hline d), moveBelow_of_lt (by simpa using hline 0), Nat.add_assoc]
  · obtain ⟨item, line⟩ := t
    cases item with
    | template raw' =>
      cases hraw
      exact congrArg (· + last) (h.line_eq raw' rfl)
    | _ => cases hraw

theorem within_of_mem_scan {text : List Char} (ht : t ∈ (scan text).1) :
    t.Within (text.foldl Scanner.step {}).lastLine :=
  (Scanner.bounded_foldl text).items t (List.mem_reverse.1 ht)

theorem foldl_newlines {s : Scanner} (hmode : s.mode = .between) (hstart : s.lineStart = true)
    (count : Nat) :
    (List.replicate count '\n').foldl Scanner.step s = { s with line := s.line + count } := by
  induction count with
  | zero => rfl
  | succ count ih =>
    obtain ⟨mode, line, lineStart, items⟩ := s
    cases hmode
    cases hstart
    rw [List.replicate_succ', List.foldl_append, ih]
    rfl

theorem EndsItems.append_newlines (h : EndsItems above)
    (hmode : (above.foldl Scanner.step {}).mode = .between) (count : Nat) :
    EndsItems (above ++ List.replicate count '\n') ∧
      ((above ++ List.replicate count '\n').foldl Scanner.step {}).mode = .between ∧
      (scan (above ++ List.replicate count '\n')).1 = (scan above).1 := by
  have hrun := foldl_newlines hmode h.lines.2 count
  rw [← List.foldl_append] at hrun
  refine ⟨⟨?_, by rw [hrun, hmode]; rfl⟩, by rw [hrun, hmode], by rw [scan, hrun]; rfl⟩
  cases count with
  | zero =>
    rw [List.replicate_zero, List.append_nil]
    exact h.newline
  | succ count =>
    rw [List.replicate_succ', ← List.append_assoc, List.getLast?_concat]
    exact .inr rfl

/-- **Newlines between items move what stands below them**, all lines of an item by as
    much, and leave what stands above. -/
theorem scan_insert (h : EndsItems above) (count : Nat) (below : List Char) :
    scan (above ++ List.replicate count '\n' ++ below) =
        ((scan (above ++ below)).1.map (Placed.mapLine (moveBelow (above.count '\n') count)),
          (scan (above ++ below)).2.map (Fault.mapLine (moveBelow (above.count '\n') count))) ∧
      ∀ t ∈ (scan (above ++ below)).1, t.Moves (moveBelow (above.count '\n') count) := by
  have habove : ∀ t ∈ (scan above).1, t.Within (above.count '\n') :=
    fun t ht => h.lastLine_eq ▸ within_of_mem_scan ht
  have hstay : (scan above).1.map (Placed.mapLine (moveBelow (above.count '\n') count)) =
      (scan above).1 := by
    rw [List.map_congr_left (g := id) fun t ht => ((habove t ht).stays count).1, List.map_id]
  rcases h.mode_eq with hmode | ⟨fault, hmode⟩
  · obtain ⟨h', hmode', hitems⟩ := h.append_newlines hmode count
    rw [scan_append h' hmode' below, scan_append h hmode below, hitems, List.count_append,
      List.count_replicate_self]
    dsimp only
    refine ⟨congrArg₂ Prod.mk ?_ ?_, fun t ht => ?_⟩
    · rw [List.map_append, hstay, List.map_map]
      refine congrArg ((scan above).1 ++ ·) (List.map_congr_left fun t ht => ?_)
      exact ((within_of_mem_scan ht).moves _ count).1.symm
    · rw [Option.map_map]
      cases hfault : (scan below).2 with
      | none => rfl
      | some fault =>
        have hpos := (Scanner.bounded_foldl below).fault_pos hfault
        have hmove : moveBelow (above.count '\n') count (fault.line + above.count '\n') =
            fault.line + above.count '\n' + count := moveBelow_of_lt (by omega) count
        rw [Option.map_some, Option.map_some, Function.comp_apply, Fault.mapLine, Fault.mapLine,
          Fault.mapLine, hmove, Nat.add_assoc]
    · rcases List.mem_append.1 ht with ht | ht
      · exact ((habove t ht).stays count).2
      · obtain ⟨t', ht', rfl⟩ := List.mem_map.1 ht
        exact ((within_of_mem_scan ht').moves _ count).2
  · have hstuck : ∀ rest, scan (above ++ rest) = ((scan above).1, some fault) := by
      intro rest
      obtain ⟨hmode', hitems⟩ := Scanner.foldl_step_stuck hmode rest
      rw [scan, scan, List.foldl_append, hitems, Scanner.fault?, hmode']
    have hline := (Scanner.bounded_foldl above).mode
    rw [hmode, h.lastLine_eq] at hline
    rw [List.append_assoc, hstuck, hstuck]
    dsimp only
    rw [hstay, Option.map_some, Fault.mapLine, moveBelow_of_le hline.2]
    exact ⟨rfl, fun t ht => ((habove t ht).stays count).2⟩

end Stencil.File
