/-
  Stencil/Proofs/Body/Quotes.lean
  ===============================
  **String literals in tags.**

  Every string can be written as a literal in single quotes, where a backslash
  stands before what would end the literal or the line.  The scanner of tags and the
  reader of expressions know of the backslashes, so a tag ends where it should and
  the literal denotes the string.  The splitter of prints does not: for it a quote
  ends the literal even after a backslash, and a bar can be left outside of it.  A
  print of the literal has directives if and only if there is such a bar in the
  string (`reads_quoted`).
-/
import Stencil.Proofs.Body.Lines
import Stencil.Proofs.Body.Places
import Stencil.Proofs.Body.Prints
import Stencil.Proofs.Expr.Forms
import Stencil.Template.Reader

namespace Stencil

open Text (isBlank trim trimStart trimEnd isIdentifier)

namespace Expr

/-! ### Literals -/

/-- The characters that stand behind a backslash in a literal, and as what. -/
def escapes : List (Char × Char) :=
  [('\\', '\\'), ('\'', '\''), ('\n', 'n'), ('\r', 'r'), ('\t', 't')]

/-- A character as it stands in a literal. -/
def escape (c : Char) : List Char :=
  match escapes.lookup c with
  | some d => ['\\', d]
  | none => [c]

/-- The literal of a string. -/
def quote (s : String) : List Char := '\'' :: s.toList.flatMap escape ++ ['\'']

/-- A character stands for itself or behind a backslash. -/
theorem escape_cases (c : Char) : (∃ d, (c, d) ∈ escapes ∧ escape c = ['\\', d]) ∨
    (∀ p ∈ escapes, c ≠ p.1) ∧ escape c = [c] := by
  cases h : escapes.lookup c with
  | some d =>
    obtain ⟨before, after, hsplit, -⟩ := List.lookup_eq_some_iff.1 h
    exact .inl ⟨d, by simp [hsplit], by rw [escape, h]⟩
  | none => exact .inr ⟨by simpa using List.lookup_eq_none_iff.1 h, by rw [escape, h]⟩

theorem spells_flatMap_escape (cs : List Char) : Spells (cs.flatMap escape) cs := by
  have hunescape : ∀ p ∈ escapes, unescape p.2 = p.1 := by decide
  induction cs with
  | nil => exact .nil
  | cons c cs ih =>
    rw [List.flatMap_cons]
    rcases escape_cases c with ⟨d, hd, hescape⟩ | ⟨hc, hescape⟩
    · rw [hescape]
      have hspells := spells_unescape (c := d) ih
      rwa [hunescape (c, d) hd] at hspells
    · rw [hescape]
      exact .plain (hc ('\\', '\\') (by decide)) (hc ('\'', '\'') (by decide)) ih

theorem head?_quote (s : String) : (quote s).head? = some '\'' := rfl

theorem getLast?_append_quote (cs : List Char) (s : String) :
    (cs ++ quote s).getLast? = some '\'' := by
  rw [quote, ← List.append_assoc, List.getLast?_concat]

theorem getLast?_quote (s : String) : (quote s).getLast? = some '\'' :=
  getLast?_append_quote [] s

theorem quote_ne_nil (s : String) : quote s ≠ [] := List.cons_ne_nil _ _

theorem trim_padded_quote {before after : List Char} (hbefore : ∀ c ∈ before, isBlank c)
    (hafter : ∀ c ∈ after, isBlank c) (s : String) :
    trim (before ++ quote s ++ after) = quote s := by
  have hlast := Text.isBlank_eq_false_of_getLast? (getLast?_quote s) rfl
  refine Text.trim_padded hbefore hafter (quote_ne_nil s) ?_ hlast
  rw [head?_quote]
  rintro _ ⟨⟩
  rfl

/-- The literal of a string denotes the string. -/
theorem ofText_quote {before after : List Char} (hbefore : ∀ c ∈ before, isBlank c)
    (hafter : ∀ c ∈ after, isBlank c) (s : String) :
    ofText (before ++ quote s ++ after) = ⟨String.ofList (quote s), .str s, none⟩ := by
  have hkind : classify (quote s) = .str s := classify_string (spells_flatMap_escape s.toList)
  rw [ofText, trim_padded_quote hbefore hafter, hkind]

end Expr

namespace Body

open Stencil.Expr (escape escapes escape_cases quote)

/-! ### The scanner in a literal -/

namespace Scanner

variable {s : Scanner} {line : Nat} {chars : List Char}

/-- The scanner in a tag that started at a line. -/
def inTag (s : Scanner) (line : Nat) (chars : List Char) (quoted : Option Quoted) : Scanner :=
  { s with mode := .command line chars quoted }

/-- What the scanner does more with than to keep it, where it stands outside of quotes. -/
def marks : List Char := ['\x7b', '\x7d', '"', '\'', '\n']

/-- Outside of quotes the other characters of a tag are only kept. -/
theorem run_plain {cs : List Char} (hcs : ∀ c ∈ cs, c ∉ marks) :
    cs.foldlM step (s.inTag line chars none) = .ok (s.inTag line (cs.reverse ++ chars) none) := by
  induction cs generalizing chars with
  | nil => rfl
  | cons c cs ih =>
    obtain ⟨hc, hcs⟩ := List.forall_mem_cons.1 hcs
    simp only [marks, List.mem_cons, List.not_mem_nil, or_false, not_or] at hc
    have hstep : (s.inTag line chars none).step c = .ok (s.inTag line (c :: chars) none) := by
      rw [step_eq_stepChar hc.2.2.2.2]
      simp [stepChar, stepCommand, inTag, hc]
    rw [run_cons hstep, ih hcs, List.reverse_cons, List.append_assoc, List.singleton_append]

/-- A character of a string, as it is written in a literal, leads on in the literal. -/
theorem run_escape (c : Char) :
    (escape c).foldlM step (s.inTag line chars (some ⟨'\'', false⟩)) =
      .ok (s.inTag line ((escape c).reverse ++ chars) (some ⟨'\'', false⟩)) := by
  rcases escape_cases c with ⟨d, hd, hescape⟩ | ⟨hc, hescape⟩
  · have hne : ∀ p ∈ escapes, p.2 ≠ '\n' := by decide
    have hbackslash : (s.inTag line chars (some ⟨'\'', false⟩)).step '\\' =
        .ok (s.inTag line ('\\' :: chars) (some ⟨'\'', true⟩)) :=
      step_eq_stepChar (by decide)
    have hnext : (s.inTag line ('\\' :: chars) (some ⟨'\'', true⟩)).step d =
        .ok (s.inTag line (d :: '\\' :: chars) (some ⟨'\'', false⟩)) :=
      step_eq_stepChar (hne (c, d) hd)
    rw [hescape, run_cons hbackslash, run_cons hnext]
    rfl
  · have hquote := hc ('\'', '\'') (by decide)
    have hbackslash := hc ('\\', '\\') (by decide)
    have hstep : (s.inTag line chars (some ⟨'\'', false⟩)).step c =
        .ok (s.inTag line (c :: chars) (some ⟨'\'', false⟩)) := by
      rw [step_eq_stepChar (hc ('\n', 'n') (by decide))]
      simp [stepChar, stepCommand, inTag, hquote, hbackslash]
    rw [hescape, run_cons hstep]
    rfl

theorem run_flatMap_escape (cs : List Char) :
    (cs.flatMap escape).foldlM step (s.inTag line chars (some ⟨'\'', false⟩)) =
      .ok (s.inTag line ((cs.flatMap escape).reverse ++ chars) (some ⟨'\'', false⟩)) := by
  induction cs generalizing chars with
  | nil => rfl
  | cons c cs ih =>
    rw [List.flatMap_cons, run_append (run_escape c), ih, List.reverse_append, List.append_assoc]

/-- After a literal the tag goes on outside of quotes. -/
theorem run_quote (str : String) :
    (quote str).foldlM step (s.inTag line chars none) =
      .ok (s.inTag line ((quote str).reverse ++ chars) none) := by
  have hopen : (s.inTag line chars none).step '\'' =
      .ok (s.inTag line ('\'' :: chars) (some ⟨'\'', false⟩)) := step_eq_stepChar (by decide)
  have hclose : ∀ chars, (s.inTag line chars (some ⟨'\'', false⟩)).step '\'' =
      .ok (s.inTag line ('\'' :: chars) none) := fun _ => step_eq_stepChar (by decide)
  rw [quote, List.cons_append, run_cons hopen, run_append (run_flatMap_escape _),
    run_cons (hclose _)]
  simp [pure, Except.pure]

/-- The mode is the next token's business only. -/
theorem emit_inTag (quoted : Option Quoted) (token : Token) (start : Nat) :
    (s.inTag line chars quoted).emit token start = s.emit token start := by
  rw [emit, emit, flush, flush, inTag]
  split <;> rfl

theorem tokens_flush_emit (token : Token) (start : Nat) :
    (s.emit token start).flush.tokens = ⟨token, start⟩ :: s.flush.tokens := by
  have htext : (s.emit token start).text = [] := by
    rw [emit, flush]
    split <;> rfl
  rw [flush, htext]
  rfl

/-- A tag with a literal in it ends behind the literal. -/
theorem run_tag (hmode : s.mode = .text) {before after : List Char}
    (hbefore : ∀ c ∈ before, c ∉ marks) (hafter : ∀ c ∈ after, c ∉ marks) {str : String}
    {token : Token} (htoken : tagToken (before ++ quote str ++ after) = .ok token) :
    ('\x7b' :: (before ++ quote str ++ after) ++ ['\x7d']).foldlM step s =
      .ok (s.emit token s.line) := by
  have hopen : s.step '\x7b' = .ok (s.inTag s.line [] none) := by
    rw [step_eq_stepChar (by decide), stepChar, hmode]
    rfl
  have hclose : (s.inTag s.line (before ++ quote str ++ after).reverse none).step '\x7d' =
      .ok (s.emit token s.line) := by
    have hne : before ++ quote str ++ after ≠ "literal".toList := by
      intro heq
      have hmem : '\'' ∈ before ++ quote str ++ after := by simp [quote]
      rw [heq] at hmem
      exact absurd hmem (by decide)
    rw [step_eq_stepChar (by decide)]
    simp only [stepChar, inTag, stepCommand, if_true, List.reverse_reverse, closeTag, if_neg hne,
      htoken]
    exact congrArg Except.ok (emit_inTag none token s.line)
  rw [List.cons_append, run_cons hopen, List.append_assoc, List.append_assoc,
    run_append (run_plain hbefore), run_append (run_quote str), run_append (run_plain hafter)]
  have hchars : after.reverse ++ ((quote str).reverse ++ (before.reverse ++ [])) =
      (before ++ quote str ++ after).reverse := by simp
  rw [hchars, run_cons hclose]
  rfl

end Scanner

/-! ### The tokens of tags with a literal -/

/-- A tag with a literal in it is no special text. -/
theorem specialText?_eq_none {content : List Char} (h : '\'' ∈ content) :
    specialText? content = none := by
  have hne : ∀ special : String, '\'' ∉ special.toList → String.ofList content ≠ special := by
    rintro special hspecial rfl
    rw [String.toList_ofList] at hspecial
    exact hspecial h
  rw [specialText?]
  split
  all_goals first | rfl | exact absurd ‹_› (hne _ (by decide))

theorem quote_mem_quote (str : String) : '\'' ∈ quote str := List.mem_cons_self

/-- A command with a name, a space, and a text that has a literal in it. -/
theorem commandToken_keyword {keyword : Keyword} (hkeyword : keyword ∈ Keyword.written)
    {text : List Char} (hquote : '\'' ∈ text) (htrim : trim (' ' :: text) = text)
    (selfClosing : Bool) :
    commandToken (keyword.name.toList ++ ' ' :: text) selfClosing =
      .ok (.command keyword text selfClosing) := by
  have hnames : ∀ k ∈ Keyword.written, Keyword.ofName? k.name = some k ∧
      k.name.toList.all (!isBlank ·) := by decide
  obtain ⟨hname, hall⟩ := hnames keyword hkeyword
  have hplain := List.all_eq_true.1 hall
  have htake : (keyword.name.toList ++ ' ' :: text).takeWhile (fun c => !isBlank c) =
      keyword.name.toList := by
    rw [List.takeWhile_append_of_pos hplain, List.takeWhile_cons_of_neg (by decide),
      List.append_nil]
  have hdrop : (keyword.name.toList ++ ' ' :: text).dropWhile (fun c => !isBlank c) =
      ' ' :: text := by
    rw [List.dropWhile_append_of_pos hplain, List.dropWhile_cons_of_neg (by decide)]
  have hmem : '\'' ∈ keyword.name.toList ++ ' ' :: text :=
    List.mem_append_right _ (List.mem_cons_of_mem _ hquote)
  rw [commandToken, if_neg (by simp), specialText?_eq_none hmem]
  simp only [htake, hdrop, String.ofList_toList, hname, htrim]

/-- A tag that neither starts nor ends with a slash is a command with a body, or without. -/
theorem tagToken_eq_commandToken {inside : List Char} (hfirst : ∀ name, inside ≠ '/' :: name)
    (hlast : (trim inside).getLast? ≠ some '/') :
    tagToken inside = commandToken (trim inside) false := by
  have hsuffix : Text.dropSuffix? ['/'] (trim inside) = none := by
    rw [Option.eq_none_iff_forall_ne_some]
    intro rest hrest
    rw [Text.dropSuffix?_eq_some_iff] at hrest
    rw [hrest, List.getLast?_concat] at hlast
    exact hlast rfl
  rw [tagToken.eq_2 _ hfirst, hsuffix]

/-- No keyword starts with a quote. -/
theorem ofName?_eq_none {name : String} (h : name.toList.head? = some '\'') :
    Keyword.ofName? name = none := by
  have hnames : ∀ k ∈ Keyword.written, k.name.toList.head? ≠ some '\'' := by decide
  rw [Keyword.ofName?, List.find?_eq_none]
  intro k hk heq
  rw [← beq_iff_eq.1 heq] at h
  exact hnames k hk h

/-- A literal by itself is an expression to print. -/
theorem tagToken_quote (str : String) :
    tagToken (quote str) = .ok (.command .expression (quote str) false) := by
  have htrim : trim (quote str) = quote str := by
    simpa using Expr.trim_padded_quote (List.forall_mem_nil _) (List.forall_mem_nil _) str
  have hlast : (quote str).getLast? ≠ some '/' := by
    rw [Expr.getLast?_quote]
    decide
  have hname : (String.ofList ((quote str).takeWhile fun c => !isBlank c)).toList.head? =
      some '\'' := by
    rw [String.toList_ofList, quote, List.cons_append, List.takeWhile_cons_of_pos (by decide)]
    rfl
  rw [tagToken_eq_commandToken (fun name => by simp [quote]) (htrim.symm ▸ hlast), htrim,
    commandToken, if_neg (by simp [quote]), specialText?_eq_none (quote_mem_quote str)]
  simp only [ofName?_eq_none hname]
  rfl

theorem tagToken_print (str : String) :
    tagToken ("print ".toList ++ quote str) = .ok (.command .print (quote str) false) := by
  have hlast := Expr.getLast?_append_quote "print ".toList str
  have htrim : trim ("print ".toList ++ quote str) = "print ".toList ++ quote str :=
    Text.trim_eq_self (by simp; decide) (Text.isBlank_eq_false_of_getLast? hlast rfl)
  have htext : trim (' ' :: quote str) = quote str := by
    simpa using Expr.trim_padded_quote Text.isBlank_of_mem_space (List.forall_mem_nil _) str
  rw [tagToken_eq_commandToken (fun name => by simp) (by rw [htrim, hlast]; decide), htrim]
  have hkeyword : Keyword.print ∈ Keyword.written := by decide
  exact commandToken_keyword hkeyword (quote_mem_quote str) htext false

theorem tagToken_param {key : List Char} (hkey : isIdentifier key) (str : String) :
    tagToken ("param ".toList ++ (key ++ ": ".toList ++ quote str) ++ " /".toList) =
      .ok (.command .param (key ++ ": ".toList ++ quote str) true) := by
  have hquote : '\'' ∈ key ++ ": ".toList ++ quote str :=
    List.mem_append_right _ (quote_mem_quote str)
  have hfirst : ∀ c ∈ (key ++ ": ".toList ++ quote str).head?, isBlank c = false := by
    obtain ⟨c, cs, rfl⟩ := List.exists_cons_of_ne_nil (Text.ne_nil_of_isIdentifier hkey)
    rintro _ ⟨⟩
    exact Text.isBlank_eq_false_of_isIdentifier hkey c List.mem_cons_self
  have hlast : ∀ cs : List Char,
      (cs ++ (key ++ ": ".toList ++ quote str)).getLast? = some '\'' := by
    intro cs
    rw [← List.append_assoc, Expr.getLast?_append_quote]
  generalize key ++ ": ".toList ++ quote str = text at hquote hfirst hlast ⊢
  have hsplit : "param ".toList ++ text ++ " /".toList =
      ("param ".toList ++ text ++ [' ']) ++ ['/'] := by simp
  have hinside : trim ("param ".toList ++ text ++ " /".toList) =
      ("param ".toList ++ text ++ [' ']) ++ ['/'] := by
    rw [hsplit]
    have hslash : ("param ".toList ++ text ++ [' '] ++ ['/']).getLast? = some '/' :=
      List.getLast?_concat
    exact Text.trim_eq_self (by simp; decide) (Text.isBlank_eq_false_of_getLast? hslash rfl)
  have hcontent : trimEnd ("param ".toList ++ text ++ [' ']) = "param ".toList ++ text :=
    Text.trimEnd_append Text.isBlank_of_mem_space
      (Text.isBlank_eq_false_of_getLast? (hlast "param ".toList) rfl)
  have htrim : trim (' ' :: text) = text := by
    have hend := Text.isBlank_eq_false_of_getLast? (hlast []) rfl
    simpa using Text.trim_padded Text.isBlank_of_mem_space (List.forall_mem_nil _)
      (List.ne_nil_of_mem hquote) hfirst hend
  rw [tagToken.eq_2 _ (fun name => by simp), hinside, Text.dropSuffix?_eq_some_iff.2 rfl]
  dsimp only
  rw [hcontent]
  have hkeyword : Keyword.param ∈ Keyword.written := by decide
  exact commandToken_keyword hkeyword hquote htrim true

/-! ### Bars in literals -/

/-- A bar of the string stands outside of quotes and brackets for the splitter of prints,
    which takes no notice of backslashes. -/
def HasBareBar (str : String) : Prop :=
  ∃ before after, str.toList = before ++ '|' :: after ∧
    barScan (some '\'', 0) before = some (none, 0)

theorem barScan_cons (state : Option Char × Nat) (c : Char) (cs : List Char) :
    barScan state (c :: cs) = (barStep state c).bind fun s => barScan s cs := rfl

/-- The scan for bars ends early at a bar that splits only. -/
theorem barScan_eq_none_iff {state : Option Char × Nat} {cs : List Char} :
    barScan state cs = none ↔
      ∃ before after, cs = before ++ '|' :: after ∧ barScan state before = some (none, 0) := by
  constructor
  · intro h
    induction cs generalizing state with
    | nil => cases h
    | cons c cs ih =>
      rw [barScan_cons] at h
      cases hstep : barStep state c with
      | none =>
        obtain ⟨hquote, hdepth, rfl⟩ := eq_of_barStep_eq_none hstep
        exact ⟨[], cs, rfl, congrArg some (Prod.ext hquote hdepth)⟩
      | some next =>
        rw [hstep] at h
        obtain ⟨before, after, rfl, hbefore⟩ := ih h
        exact ⟨c :: before, after, rfl, by rw [barScan_cons, hstep]; exact hbefore⟩
  · rintro ⟨before, after, rfl, hbefore⟩
    rw [barScan_append, hbefore]
    rfl

instance (str : String) : Decidable (HasBareBar str) := decidable_of_iff _ barScan_eq_none_iff

/-- To the splitter a backslash is nothing, and what stands behind it is like the character
    that it means. -/
theorem barStep_escapes {state : Option Char × Nat} (hstate : IsQuote state.1) :
    barStep state '\\' = some state ∧ ∀ p ∈ escapes, barStep state p.2 = barStep state p.1 := by
  obtain ⟨quote, depth⟩ := state
  cases quote with
  | none => simp [escapes, barStep]
  | some q => rcases hstate q rfl with rfl | rfl <;> simp [escapes, barStep]

theorem barScan_escape {state : Option Char × Nat} (hstate : IsQuote state.1) (c : Char) :
    barScan state (escape c) = barStep state c := by
  have hsingle : ∀ d, barScan state [d] = barStep state d := by
    intro d
    rw [barScan_cons]
    exact Option.bind_fun_some _
  rcases escape_cases c with ⟨d, hd, hescape⟩ | ⟨hc, hescape⟩
  · obtain ⟨hbackslash, hmeaning⟩ := barStep_escapes hstate
    rw [hescape, barScan_cons, hbackslash, Option.bind_some, hsingle, hmeaning (c, d) hd]
  · rw [hescape, hsingle]

/-- So a string has the bars that split in it where its literal has them. -/
theorem barScan_flatMap_escape {state : Option Char × Nat} (hstate : IsQuote state.1)
    (cs : List Char) : barScan state (cs.flatMap escape) = barScan state cs := by
  induction cs generalizing state with
  | nil => rfl
  | cons c cs ih =>
    rw [List.flatMap_cons, barScan_append, barScan_escape hstate, barScan_cons]
    cases hstep : barStep state c with
    | none => rfl
    | some next => exact ih (isQuote_of_barStep hstep hstate)

theorem barScan_quote_eq_none_iff {str : String} :
    barScan (none, 0) (quote str) = none ↔ HasBareBar str := by
  have hopen : barStep (none, 0) '\'' = some (some '\'', 0) := rfl
  have hquote : IsQuote (some '\'') := by
    rintro q ⟨⟩
    exact .inl rfl
  have hclose : ∀ state, barScan state ['\''] ≠ none := by
    intro state h
    obtain ⟨before, after, heq, -⟩ := barScan_eq_none_iff.1 h
    have hmem : '|' ∈ ['\''] := by simp [heq]
    exact absurd hmem (by decide)
  rw [HasBareBar, ← barScan_eq_none_iff, quote, List.cons_append, barScan_cons, hopen,
    Option.bind_some, barScan_append, barScan_flatMap_escape hquote]
  cases barScan (some '\'', 0) str.toList with
  | none => simp
  | some state => simpa using hclose state

/-- A text in which no bar splits is the start of the first piece. -/
theorem splitBars_append {state state' : Option Char × Nat} {cs ds piece : List Char}
    {pieces : List (List Char)} (h : barScan state cs = some state')
    (hds : splitBars state'.1 state'.2 ds = piece :: pieces) :
    splitBars state.1 state.2 (cs ++ ds) = (cs ++ piece) :: pieces := by
  induction cs generalizing state with
  | nil =>
    cases h
    exact hds
  | cons c cs ih =>
    rw [barScan_cons, Option.bind_eq_some_iff] at h
    obtain ⟨next, hstep, hrest⟩ := h
    rw [List.cons_append, splitBars_cons_of_some hstep, ih hrest]
    rfl

/-- A print of a literal.  It has directives if and only if the string has a bare bar, and
    denotes the string otherwise. -/
theorem exists_print_quote (implicit : Bool) (str : String) :
    ∃ expr directives, print implicit (quote str) = .ok (.print expr directives implicit) ∧
      (expr = ⟨String.ofList (quote str), .str str, none⟩ ∧ directives = [] ↔ ¬HasBareBar str) := by
  have hblank : ∀ cs, ¬Text.allBlank ('\'' :: cs) := by
    intro cs h
    cases h
  have hquote : ∀ {piece pieces}, splitBars none 0 (quote str) = piece :: pieces →
      ¬Text.allBlank piece → print implicit (quote str) =
        .ok (.print (Expr.ofText piece) (pieces.map directive) implicit) := by
    intro piece pieces hsplit hpiece
    rw [print, hsplit]
    exact if_neg hpiece
  cases hscan : barScan (none, 0) (quote str) with
  | some state =>
    have hsplit : splitBars none 0 (quote str) = [quote str] := by
      have hnil : splitBars state.1 state.2 [] = [[]] := by rw [splitBars]
      have happend := splitBars_append hscan hnil
      rwa [List.append_nil] at happend
    have hexpr : Expr.ofText (quote str) = ⟨String.ofList (quote str), .str str, none⟩ := by
      simpa using Expr.ofText_quote (List.forall_mem_nil _) (List.forall_mem_nil _) str
    have hbar : ¬HasBareBar str := by
      rw [← barScan_quote_eq_none_iff, hscan]
      exact Option.some_ne_none state
    refine ⟨_, _, hquote hsplit (hblank _), ?_⟩
    simp [hexpr, hbar]
  | none =>
    have hbar : HasBareBar str := barScan_quote_eq_none_iff.1 hscan
    obtain ⟨before, after, heq, hbefore⟩ := barScan_eq_none_iff.1 hscan
    have hsplit : splitBars none 0 (quote str) = before :: splitBars none 0 after := by
      have hbar : splitBars none 0 ('|' :: after) = [] :: splitBars none 0 after := by
        simp [splitBars]
      rw [heq, splitBars_append hbefore hbar, List.append_nil]
    obtain ⟨rest, rfl⟩ : ∃ rest, before = '\'' :: rest := by
      cases before with
      | nil => cases heq
      | cons c rest => exact ⟨rest, by rw [(List.cons.inj heq).1]⟩
    refine ⟨_, _, hquote hsplit (hblank rest), ?_⟩
    simp [hbar, splitBars_ne_nil]

/-! ### Tags with a literal -/

/-- The tag that prints the literal of a string, with or without a command. -/
def printTag (implicit : Bool) (str : String) : List Char :=
  '\x7b' :: ((if implicit then [] else "print ".toList) ++ quote str) ++ ['\x7d']

/-- The tag of a parameter whose value is the literal of a string. -/
def paramTag (key : List Char) (str : String) : List Char :=
  '\x7b' :: ("param ".toList ++ (key ++ ": ".toList ++ quote str) ++ " /".toList) ++ ['\x7d']

def printKeyword (implicit : Bool) : Keyword := if implicit then .expression else .print

namespace Scanner

variable {s : Scanner}

theorem run_printTag (hmode : s.mode = .text) (implicit : Bool) (str : String) :
    (printTag implicit str).foldlM step s =
      .ok (s.emit (.command (printKeyword implicit) (quote str) false) s.line) := by
  have hbefore : ∀ c ∈ if implicit then [] else "print ".toList, c ∉ marks :=
    List.all_iff_forall_prop.1 (by cases implicit <;> decide)
  have htoken : tagToken ((if implicit then [] else "print ".toList) ++ quote str ++ []) =
      .ok (.command (printKeyword implicit) (quote str) false) := by
    rw [List.append_nil]
    cases implicit with
    | true => exact tagToken_quote str
    | false => exact tagToken_print str
  have hrun := run_tag hmode hbefore (List.forall_mem_nil _) htoken
  rwa [List.append_nil] at hrun

theorem run_paramTag (hmode : s.mode = .text) {key : List Char} (hkey : isIdentifier key)
    (str : String) : (paramTag key str).foldlM step s =
      .ok (s.emit (.command .param (key ++ ": ".toList ++ quote str) true) s.line) := by
  have hname : ∀ d ∈ marks, Text.isNamePart d = false := List.all_iff_forall_prop.1 (by decide)
  have hkeyPlain : ∀ c ∈ key, c ∉ marks := by
    intro c hc hmem
    have hpart := Text.isNamePart_of_isIdentifier hkey c hc
    rw [hname c hmem] at hpart
    cases hpart
  have hword : ∀ c ∈ "param ".toList, c ∉ marks := List.all_iff_forall_prop.1 (by decide)
  have hcolon : ∀ c ∈ ": ".toList, c ∉ marks := List.all_iff_forall_prop.1 (by decide)
  have hbefore : ∀ c ∈ "param ".toList ++ (key ++ ": ".toList), c ∉ marks :=
    List.forall_mem_append.2 ⟨hword, List.forall_mem_append.2 ⟨hkeyPlain, hcolon⟩⟩
  have hafter : ∀ c ∈ " /".toList, c ∉ marks := List.all_iff_forall_prop.1 (by decide)
  have hinside : "param ".toList ++ (key ++ ": ".toList) ++ quote str ++ " /".toList =
      "param ".toList ++ (key ++ ": ".toList ++ quote str) ++ " /".toList := by
    simp only [List.append_assoc]
  rw [paramTag, ← hinside]
  refine run_tag hmode hbefore hafter ?_
  rw [hinside]
  exact tagToken_param hkey str

end Scanner

/-- A parameter with a literal has the string for its value. -/
theorem callParam_quote {key : List Char} (hkey : isIdentifier key) (str : String) :
    callParam (key ++ ": ".toList ++ quote str) true =
      .ok (.value (String.ofList key) ⟨String.ofList (quote str), .str str, none⟩) := by
  have hcut : Text.cut? (· == ':') (key ++ ": ".toList ++ quote str) =
      some (key, ' ' :: quote str) := by
    rw [Text.cut?_eq_some_iff]
    refine ⟨':', rfl, fun d hd => ?_, by simp⟩
    have hpart := Text.isNamePart_of_isIdentifier hkey d hd
    by_contra hcolon
    rw [Bool.not_eq_false, beq_iff_eq] at hcolon
    rw [hcolon] at hpart
    cases hpart
  have htrim : trim key = key := by
    have hblank := Text.isBlank_eq_false_of_isIdentifier hkey
    exact Text.trim_eq_self (fun c hc => hblank c (List.mem_of_mem_head? hc))
      fun c hc => hblank c (List.mem_of_mem_getLast? hc)
  have hkeyAndValue : keyAndValue? (key ++ ": ".toList ++ quote str) =
      some (key, ' ' :: quote str) := by
    rw [keyAndValue?, hcut]
    simp [htrim, hkey]
  have hexpr : Expr.ofText (' ' :: quote str) = ⟨String.ofList (quote str), .str str, none⟩ := by
    simpa using Expr.ofText_quote Text.isBlank_of_mem_space (List.forall_mem_nil _) str
  rw [callParam, hkeyAndValue]
  simp only [Bool.not_true, hexpr]
  rfl

/-! ### Reading the tags -/

/-- The text of a body up to a place between tags, and what is read of the body there. -/
def Reaches (scope : Scope) (text : List Char) (r : Reader) : Prop :=
  ∃ s : Scanner, text.foldlM Scanner.step {} = .ok s ∧ s.mode = .text ∧
    (Header.splitParamTags none s.flush.tokens.reverse).2.foldlM (Reader.step scope) {} = .ok r

section

variable {t : Placed} {keyword : Keyword} {text : List Char} {selfClosing : Bool}

/-- Any other command is not before the parameters that are declared. -/
theorem declaresNext_concat (ht : t.token = .command keyword text selfClosing)
    (hkeyword : keyword.declaresParam = false) (tokens : List Placed) :
    Header.declaresNext (tokens ++ [t]) = Header.declaresNext tokens := by
  obtain ⟨token, line⟩ := t
  cases ht
  rw [Header.declaresNext, Header.declaresNext]
  induction tokens with
  | nil => simp [Header.isFiller, Token.isBlankText, hkeyword]
  | cons first rest ih =>
    by_cases hfiller : Header.isFiller first
    · rw [List.cons_append, List.dropWhile_cons_of_pos hfiller, List.dropWhile_cons_of_pos hfiller]
      exact ih
    · rw [List.cons_append, List.dropWhile_cons_of_neg hfiller, List.dropWhile_cons_of_neg hfiller]
      obtain ⟨token, line⟩ := first
      cases token <;> rfl

theorem splitParamTags_concat (ht : t.token = .command keyword text selfClosing)
    (hkeyword : keyword.declaresParam = false) (doc : Option (List Char)) (tokens : List Placed) :
    (Header.splitParamTags doc (tokens ++ [t])).2 =
      (Header.splitParamTags doc tokens).2 ++ [t] := by
  induction tokens generalizing doc with
  | nil =>
    have hnext : Header.declaresNext [t] = false := declaresNext_concat ht hkeyword []
    simp [Header.splitParamTags, hnext]
  | cons first rest ih =>
    have hnext := declaresNext_concat ht hkeyword (first :: rest)
    rw [List.cons_append] at hnext ⊢
    rw [Header.splitParamTags, Header.splitParamTags, hnext]
    by_cases hdeclares : Header.declaresNext (first :: rest)
    · rw [if_pos hdeclares, if_pos hdeclares]
      split <;> exact ih _
    · rw [if_neg hdeclares, if_neg hdeclares]
      rfl

end

theorem scan_printTag (implicit : Bool) (str : String) : scan (printTag implicit str) =
    .ok ⟨[⟨.command (printKeyword implicit) (quote str) false, 0⟩], 0⟩ := by
  rw [scan, Scanner.run_printTag rfl]
  rfl

variable {scope : Scope}

theorem read_printTag {implicit : Bool} {str : String} {content : Content}
    (h : print implicit (quote str) = .ok content) :
    read scope [⟨.command (printKeyword implicit) (quote str) false, 0⟩] 0 =
      .ok [.leaf 0 content] := by
  have hstatement : Reader.stepStatement scope {} (printKeyword implicit) (quote str) false 0 =
      .ok { root := [.leaf 0 content] } := by
    cases implicit with
    | true => exact congrArg (fun x => x >>= fun c => pure (Reader.addStatement {} (.leaf 0 c))) h
    | false => exact congrArg (fun x => x >>= fun c => pure (Reader.addStatement {} (.leaf 0 c))) h
  rw [read, List.foldlM_cons, Reader.step]
  simp only [hstatement]
  rfl

/-- A body that is a print of a literal is read as one print. -/
theorem runs_read_printTag {raw : RawTemplate} {info : TemplateInfo} {implicit : Bool}
    {str : String} {content : Content} (hinfo : raw.declare scope = .ok info)
    (hbody : raw.body = printTag implicit str) (h : print implicit (quote str) = .ok content)
    (types : TypeRegistry) :
    Runs (raw.read scope) types ⟨raw.line, info, [.leaf raw.line content]⟩ types := by
  have hsplit : Header.splitParamTags none
      [⟨.command (printKeyword implicit) (quote str) false, 0⟩] =
        ([], [⟨.command (printKeyword implicit) (quote str) false, 0⟩]) := by
    cases implicit <;> rfl
  have hopening : Runs (raw.readFromOpening scope) types ⟨0, info, [.leaf 0 content]⟩ types := by
    rw [RawTemplate.readFromOpening_eq, hbody, scan_printTag, hinfo]
    refine runs_bind.2 ⟨_, types, rfl, runs_bind.2 ⟨info, types, rfl, ?_⟩⟩
    rw [hsplit]
    refine runs_bind.2 ⟨[], types, rfl, runs_bind.2 ⟨info, types, rfl, ?_⟩⟩
    rw [read_printTag h]
    exact runs_bind.2 ⟨_, types, rfl, rfl⟩
  refine runs_bind.2 ⟨_, types, runs_adapt hopening, ?_⟩
  simp [Runs, Tree.leaf, Tree.mapAll, Tree.map]
  rfl

/-- A parameter with a literal, written behind the parameters of an open call, becomes the next
    parameter of the call. -/
theorem reaches_paramTag {text key : List Char} {r : Reader} {o : OpenCall}
    (h : Reaches scope text r) (hfocus : r.focus = .call o) (hkey : isIdentifier key)
    (hnew : ∀ p ∈ o.params, p.content.paramKey? ≠ some (String.ofList key)) (str : String) :
    Reaches scope (text ++ paramTag key str)
      { r with focus := .call { o with params := .leaf (text.count '\n') (.valueParam
          (String.ofList key) ⟨String.ofList (quote str), .str str, none⟩) :: o.params } } := by
  obtain ⟨s, hrun, hmode, hread⟩ := h
  have hline : s.line = text.count '\n' := by
    have hstart : Scanner.Reached {} :=
      ⟨fun _ hnone => (nomatch hnone), Nat.le_refl 0, List.forall_mem_nil _⟩
    exact ((hstart.run text).ensures s hrun).2.trans (Nat.zero_add _)
  refine ⟨_, (Scanner.run_append hrun _).trans (Scanner.run_paramTag hmode hkey str), rfl, ?_⟩
  have hadd : o.params.any (·.content.paramKey? == some (String.ofList key)) = false := by
    simpa using hnew
  have hstep : r.step scope ⟨.command .param (key ++ ": ".toList ++ quote str) true, s.line⟩ =
      .ok { r with focus := .call { o with params := .leaf s.line (.valueParam (String.ofList key)
        ⟨String.ofList (quote str), .str str, none⟩) :: o.params } } := by
    rw [Reader.step, hfocus]
    simp only [Reader.stepCall, callParam_quote hkey str]
    change (o.addParam _ _ >>= _) = _
    rw [OpenCall.addParam, hadd]
    rfl
  rw [Scanner.tokens_flush_emit, List.reverse_cons, splitParamTags_concat rfl rfl,
    List.foldlM_append, hread, ← hline]
  exact bind_eq_ok.2 ⟨r, rfl, bind_eq_ok.2 ⟨_, hstep, rfl⟩⟩

/-- A literal is read as its string, in prints as far as bars allow it.  A body that is a print
    of the literal is read as one print, and this one prints the string and has no directives
    if and only if the string has no bare bar.  A parameter of a call, wherever the call is
    open, has the string for its value. -/
theorem reads_quoted (scope : Scope) (str : String) :
    (∀ (raw : RawTemplate) (info : TemplateInfo) (implicit : Bool),
      raw.declare scope = .ok info → raw.body = printTag implicit str →
      ∃ expr directives,
        (∀ types, Runs (raw.read scope) types
          ⟨raw.line, info, [.leaf raw.line (.print expr directives implicit)]⟩ types) ∧
        (expr = ⟨String.ofList (quote str), .str str, none⟩ ∧ directives = [] ↔
          ¬HasBareBar str)) ∧
    ∀ (text : List Char) (r : Reader) (o : OpenCall) (key : List Char),
      Reaches scope text r → r.focus = .call o → isIdentifier key →
      (∀ p ∈ o.params, p.content.paramKey? ≠ some (String.ofList key)) →
      Reaches scope (text ++ paramTag key str)
        { r with focus := .call { o with params := .leaf (text.count '\n') (.valueParam
            (String.ofList key) ⟨String.ofList (quote str), .str str, none⟩) :: o.params } } := by
  constructor
  · intro raw info implicit hinfo hbody
    obtain ⟨expr, directives, hprint, hbar⟩ := exists_print_quote implicit str
    exact ⟨expr, directives, runs_read_printTag hinfo hbody hprint, hbar⟩
  · intro text r o key htext hfocus hkey hnew
    exact reaches_paramTag htext hfocus hkey hnew str

/-! ### A template with literals -/

/-- A file without aliases. -/
def plainScope : Scope := ⟨"ns", none, .strict, []⟩

/-- A template that prints a string and does nothing else. -/
def printing (str : String) : RawTemplate := ⟨false, ".t".toList, printTag true str, none, 3⟩

/-- What the template declares. -/
def printingInfo : TemplateInfo :=
  { name := "ns.t", shortName := some ".t", form := .basic false, autoescape := .strict
    contentKind := some .html, bound := some ⟨.v2, "Template is missing a doc comment."⟩ }

theorem declare_printing (str : String) :
    (printing str).declare plainScope = .ok printingInfo := by
  change (printing "").declare plainScope = _
  decide +kernel

theorem reaches_openCall : Reaches plainScope "\x7bcall .u\x7d".toList
    { focus := .call ⟨0, "call", .call (.basic "ns.u" ".u") .nothing, []⟩ } := by
  have hcall : basicCall plainScope ".u".toList = .ok (.call (.basic "ns.u" ".u") .nothing) := by
    decide +kernel
  refine ⟨_, rfl, rfl, ?_⟩
  have hstep : Reader.stepStatement plainScope {} .call ".u".toList false 0 =
      .ok { focus := .call ⟨0, "call", .call (.basic "ns.u" ".u") .nothing, []⟩ } :=
    congrArg (fun x => x >>= fun c => pure (Reader.openCall {} "call" 0 false c)) hcall
  exact bind_eq_ok.2 ⟨_, congrArg (atLine 0) hstep, rfl⟩

/-- A string with quotes, brackets, braces and bars is printed and passed on as it is. -/
theorem reads_quoted_crowded :
    let str := "it's (a|b) \x7b\"c|d\"\x7d /"
    (∀ types, Runs ((printing str).read plainScope) types ⟨3, printingInfo,
      [.leaf 3 (.print ⟨String.ofList (quote str), .str str, none⟩ [] true)]⟩ types) ∧
    Reaches plainScope ("\x7bcall .u\x7d".toList ++ paramTag ['k'] str)
      { focus := .call ⟨0, "call", .call (.basic "ns.u" ".u") .nothing,
          [.leaf 0 (.valueParam "k" ⟨String.ofList (quote str), .str str, none⟩)]⟩ } := by
  intro str
  obtain ⟨hprints, hparams⟩ := reads_quoted plainScope str
  obtain ⟨expr, directives, hruns, hbar⟩ :=
    hprints (printing str) printingInfo true (declare_printing str) rfl
  obtain ⟨rfl, rfl⟩ := hbar.2 (by decide +kernel)
  exact ⟨hruns, hparams _ _ _ ['k'] reaches_openCall rfl rfl (List.forall_mem_nil _)⟩

/-- No bar may stand behind a quote: the literal of `'|` is taken for a literal that does not
    end and a directive. -/
theorem not_prints_quoted_bar :
    ¬∀ scope raw info str types, RawTemplate.declare scope raw = .ok info →
      raw.body = printTag true str → Runs (raw.read scope) types
        ⟨raw.line, info, [.leaf raw.line
          (.print ⟨String.ofList (quote str), .str str, none⟩ [] true)]⟩ types := by
  intro h
  have hprint : print true (quote "'|") =
      .ok (.print ⟨"'\\'", .other, none⟩ [⟨"'", none⟩] true) := by
    decide +kernel
  have hliteral := h plainScope (printing "'|") printingInfo "'|" {} (declare_printing _) rfl
  have hdirective := runs_read_printTag (declare_printing "'|") rfl hprint {}
  rw [Runs, hdirective] at hliteral
  have hbodies := congrArg Template.body (Except.ok.inj (Prod.mk.inj hliteral).1)
  have hcontents := congrArg Tree.content (List.cons.inj hbodies).1
  exact List.cons_ne_nil _ _ (Content.print.inj hcontents).2.1

end Body

end Stencil
