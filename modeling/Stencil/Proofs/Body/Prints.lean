/-
  Stencil/Proofs/Body/Prints.lean
  ===============================
  **What the key of a print tells about it.**

  A print is split at the bars outside of quotes and brackets, so no such bar is
  in the text of its expression, and where a directive follows the expression no
  quote or bracket is open at its end.  Hence the expression can be read off the
  key, in which a bar follows it (`expr_eq_of_printKey_eq`).
-/
import Mathlib.Data.List.Basic
import Stencil.Body.Statement
import Stencil.Proofs.Text.Characters

namespace Stencil.Body

open Text (isBlank ne_of_isBlank trim exists_trim)

/-! ### The scan for bars -/

/-- The open quote and the number of open brackets after one more character; no
    state if the character is a bar that splits. -/
def barStep : Option Char × Nat → Char → Option (Option Char × Nat)
  | (some quote, depth), c => some (if c = quote then none else some quote, depth)
  | (none, depth), c =>
    if c = '\'' || c = '"' then some (some c, depth)
    else if c = '(' || c = '[' then some (none, depth + 1)
    else if c = ')' || c = ']' then some (none, depth - 1)
    else if c = '|' && depth = 0 then none
    else some (none, depth)

/-- The state after a text without a bar that splits. -/
def barScan (state : Option Char × Nat) (cs : List Char) : Option (Option Char × Nat) :=
  cs.foldlM barStep state

theorem splitBars_cons_of_some {quote quote' : Option Char} {depth depth' : Nat} {c : Char}
    (h : barStep (quote, depth) c = some (quote', depth')) (cs : List Char) :
    splitBars quote depth (c :: cs) =
      match splitBars quote' depth' cs with
      | [] => [[c]]
      | piece :: pieces => (c :: piece) :: pieces := by
  rw [splitBars.eq_def]
  cases quote with
  | some q =>
    simp only [barStep, Option.some.injEq, Prod.mk.injEq] at h
    obtain ⟨rfl, rfl⟩ := h
    rfl
  | none =>
    simp only [barStep] at h
    split_ifs at h with h₁ h₂ h₃ h₄ <;> obtain ⟨rfl, rfl⟩ := Prod.mk.inj (Option.some.inj h)
    · exact if_pos h₁
    · exact (if_neg h₁).trans (if_pos h₂)
    · exact (if_neg h₁).trans ((if_neg h₂).trans (if_pos h₃))
    · exact (if_neg h₁).trans ((if_neg h₂).trans ((if_neg h₃).trans (if_neg h₄)))

theorem eq_of_barStep_eq_none {quote : Option Char} {depth : Nat} {c : Char}
    (h : barStep (quote, depth) c = none) : quote = none ∧ depth = 0 ∧ c = '|' := by
  cases quote with
  | some q => simp [barStep] at h
  | none =>
    simp only [barStep] at h
    split_ifs at h with _ _ _ hbar
    simp only [Bool.and_eq_true, decide_eq_true_eq] at hbar
    exact ⟨rfl, hbar.2, hbar.1⟩

theorem splitBars_ne_nil (quote : Option Char) (depth : Nat) (text : List Char) :
    splitBars quote depth text ≠ [] := by
  cases text with
  | nil => simp [splitBars]
  | cons c cs =>
    cases h : barStep (quote, depth) c with
    | none =>
      obtain ⟨rfl, rfl, rfl⟩ := eq_of_barStep_eq_none h
      simp [splitBars]
    | some state =>
      rw [splitBars_cons_of_some h]
      split <;> simp

/-- The first piece has no bar that splits, and if there are more pieces nothing
    is open at its end. -/
theorem barScan_of_splitBars {quote : Option Char} {depth : Nat} {text first : List Char}
    {rest : List (List Char)} (h : splitBars quote depth text = first :: rest) :
    ∃ state, barScan (quote, depth) first = some state ∧ (rest ≠ [] → state = (none, 0)) := by
  induction text generalizing quote depth first with
  | nil =>
    rw [splitBars, List.cons.injEq] at h
    obtain ⟨rfl, rfl⟩ := h
    exact ⟨_, rfl, fun h => absurd rfl h⟩
  | cons c cs ih =>
    cases hc : barStep (quote, depth) c with
    | none =>
      obtain ⟨rfl, rfl, rfl⟩ := eq_of_barStep_eq_none hc
      have hfirst : first = [] := by
        simp only [splitBars] at h
        exact (List.cons.inj h).1.symm
      subst hfirst
      exact ⟨_, rfl, fun _ => rfl⟩
    | some state =>
      rw [splitBars_cons_of_some hc] at h
      cases htail : splitBars state.1 state.2 cs with
      | nil => exact absurd htail (splitBars_ne_nil _ _ _)
      | cons piece pieces =>
        rw [htail, List.cons.injEq] at h
        obtain ⟨rfl, rfl⟩ := h
        obtain ⟨last, hscan, hlast⟩ := ih htail
        refine ⟨last, ?_, hlast⟩
        rw [barScan, List.foldlM_cons, hc]
        exact hscan

/-! ### White space opens and closes nothing -/

/-- The open quote is a quote. -/
def IsQuote (quote : Option Char) : Prop := ∀ q, quote = some q → q = '\'' ∨ q = '"'

theorem isQuote_of_barStep {state state' : Option Char × Nat} {c : Char}
    (h : barStep state c = some state') (hq : IsQuote state.1) : IsQuote state'.1 := by
  obtain ⟨quote, depth⟩ := state
  intro q hq'
  cases quote with
  | some q' =>
    simp only [barStep, Option.some.injEq] at h
    subst h
    split_ifs at hq' with hc
    · exact hq q hq'
  | none =>
    simp only [barStep] at h
    split_ifs at h with hc <;> cases h <;> simp_all

theorem isQuote_of_barScan {state state' : Option Char × Nat} {cs : List Char}
    (h : barScan state cs = some state') (hq : IsQuote state.1) : IsQuote state'.1 := by
  induction cs generalizing state with
  | nil =>
    cases h
    exact hq
  | cons c cs ih =>
    rw [barScan, List.foldlM_cons, Option.bind_eq_bind, Option.bind_eq_some_iff] at h
    obtain ⟨mid, hmid, hrest⟩ := h
    exact ih hrest (isQuote_of_barStep hmid hq)

theorem barStep_of_isBlank {state : Option Char × Nat} {c : Char} (hc : isBlank c)
    (hq : IsQuote state.1) : barStep state c = some state := by
  have hne : ∀ d, isBlank d = false → c ≠ d := fun d => ne_of_isBlank hc
  obtain ⟨quote, depth⟩ := state
  cases quote with
  | some q =>
    have hcq : c ≠ q := by
      rcases hq q rfl with rfl | rfl
      · exact hne _ (by decide)
      · exact hne _ (by decide)
    rw [barStep, if_neg hcq]
  | none =>
    have h₁ := hne '\'' (by decide)
    have h₂ := hne '"' (by decide)
    have h₃ := hne '(' (by decide)
    have h₄ := hne '[' (by decide)
    have h₅ := hne ')' (by decide)
    have h₆ := hne ']' (by decide)
    have h₇ := hne '|' (by decide)
    simp [barStep, *]

theorem barScan_of_isBlank {state : Option Char × Nat} {cs : List Char}
    (hcs : ∀ c ∈ cs, isBlank c) (hq : IsQuote state.1) : barScan state cs = some state := by
  induction cs with
  | nil => rfl
  | cons c cs ih =>
    rw [barScan, List.foldlM_cons, barStep_of_isBlank (hcs c List.mem_cons_self) hq]
    exact ih fun d hd => hcs d (List.mem_cons_of_mem c hd)

theorem barScan_append (state : Option Char × Nat) (cs ds : List Char) :
    barScan state (cs ++ ds) = (barScan state cs).bind fun s => barScan s ds :=
  List.foldlM_append

theorem barScan_trim {cs : List Char} {state : Option Char × Nat}
    (h : barScan (none, 0) cs = some state) : barScan (none, 0) (trim cs) = some state := by
  have hnone : IsQuote (none : Option Char) := fun q hq => by cases hq
  obtain ⟨lead, trail, hcs, hlead, htrail⟩ := exists_trim cs
  rw [hcs, barScan_append, barScan_of_isBlank hlead hnone, Option.bind_some, barScan_append,
    Option.bind_eq_some_iff] at h
  obtain ⟨mid, hmid, hend⟩ := h
  rw [barScan_of_isBlank htrail (isQuote_of_barScan hmid hnone)] at hend
  rw [hmid, hend]

/-! ### The expression of a print -/

/-- The expression and directives of a print as it can be written. -/
def IsPrint (expr : Expr) (directives : List PrintDirective) : Prop :=
  ∃ implicit text, print implicit text = .ok (.print expr directives implicit)

variable {expr expr' : Expr} {directives directives' : List PrintDirective}

theorem exists_print {implicit : Bool} {text : List Char} {content : Content}
    (h : print implicit text = .ok content) :
    ∃ expr directives, content = .print expr directives implicit := by
  rw [print] at h
  split at h
  · cases h
  · split at h
    · cases h
    · cases h
      exact ⟨_, _, rfl⟩

theorem exists_pieces_of_isPrint (h : IsPrint expr directives) :
    ∃ text piece pieces, splitBars none 0 text = piece :: pieces ∧ expr = Expr.ofText piece ∧
      directives = pieces.map directive := by
  obtain ⟨implicit, text, h⟩ := h
  rw [print] at h
  cases hsplit : splitBars none 0 text with
  | nil => exact absurd hsplit (splitBars_ne_nil _ _ _)
  | cons piece pieces =>
    rw [hsplit] at h
    dsimp only at h
    split at h
    · cases h
    · cases h
      exact ⟨text, piece, pieces, hsplit, rfl, rfl⟩

/-- Until types are resolved the text of an expression is all there is to it. -/
theorem eq_of_text_eq (h : IsPrint expr directives) (h' : IsPrint expr' directives')
    (htext : expr.text = expr'.text) : expr = expr' := by
  obtain ⟨-, piece, -, -, rfl, -⟩ := exists_pieces_of_isPrint h
  obtain ⟨-, piece', -, -, rfl, -⟩ := exists_pieces_of_isPrint h'
  have hpiece : trim piece = trim piece' := String.ofList_injective htext
  rw [Expr.ofText, Expr.ofText, hpiece]

theorem barScan_text (h : IsPrint expr directives) :
    ∃ state, barScan (none, 0) expr.text.toList = some state ∧
      (directives ≠ [] → state = (none, 0)) := by
  obtain ⟨text, piece, pieces, hsplit, rfl, rfl⟩ := exists_pieces_of_isPrint h
  obtain ⟨state, hscan, hstate⟩ := barScan_of_splitBars hsplit
  refine ⟨state, ?_, fun hne => hstate fun hnil => hne (by rw [hnil, List.map_nil])⟩
  rw [Expr.ofText, String.toList_ofList]
  exact barScan_trim hscan

/-- A bar after a text with nothing open at its end splits, so a text in which
    no bar splits does not go on with it. -/
theorem eq_nil_of_bar_append {text more names names' : List Char} {state state' : Option Char × Nat}
    (hscan : barScan (none, 0) text = some state) (hstate : names ≠ [] → state = (none, 0))
    (hmore : barScan (none, 0) (text ++ more) = some state')
    (h : '|' :: names = more ++ '|' :: names') : more = [] := by
  cases more with
  | nil => rfl
  | cons c more =>
    rw [List.cons_append, List.cons.injEq] at h
    obtain ⟨rfl, rfl⟩ := h
    rw [barScan_append, hscan, hstate (by simp)] at hmore
    cases hmore

theorem text_eq_of_append_bar {text text' names names' : List Char}
    {state state' : Option Char × Nat}
    (hscan : barScan (none, 0) text = some state) (hstate : names ≠ [] → state = (none, 0))
    (hscan' : barScan (none, 0) text' = some state') (hstate' : names' ≠ [] → state' = (none, 0))
    (h : text ++ '|' :: names = text' ++ '|' :: names') : text = text' := by
  rcases List.append_eq_append_iff.1 h with ⟨more, rfl, hmore⟩ | ⟨more, rfl, hmore⟩
  · rw [eq_nil_of_bar_append hscan hstate hscan' hmore, List.append_nil]
  · rw [eq_nil_of_bar_append hscan' hstate' hscan hmore, List.append_nil]

/-- Prints with one key have one expression. -/
theorem expr_eq_of_printKey_eq (h : IsPrint expr directives) (h' : IsPrint expr' directives')
    (hkey : Message.printKey expr directives = Message.printKey expr' directives') :
    expr = expr' := by
  obtain ⟨state, hscan, hstate⟩ := barScan_text h
  obtain ⟨state', hscan', hstate'⟩ := barScan_text h'
  have hnames : ∀ ds : List PrintDirective,
      ("|".intercalate (ds.map (·.name))).toList ≠ [] → ds ≠ [] := by
    rintro ds hne rfl
    exact hne rfl
  apply eq_of_text_eq h h'
  rw [Message.printKey, Message.printKey, PlaceholderKey.shared.injEq] at hkey
  have hlist := congrArg String.toList hkey
  simp only [String.toList_append, List.append_assoc, List.append_cancel_left_eq] at hlist
  exact String.toList_inj.1 (text_eq_of_append_bar hscan (fun hne => hstate (hnames _ hne)) hscan'
    (fun hne => hstate' (hnames _ hne)) hlist)

end Stencil.Body
