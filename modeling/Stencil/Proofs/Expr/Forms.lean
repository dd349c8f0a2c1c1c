/-
  Stencil/Proofs/Expr/Forms.lean
  ==============================
  **The forms of expressions.**

  Literals and references have forms of their own, and an expression that has one of
  them is taken for what it denotes.  Beyond these forms two more are taken: a
  hexadecimal numeral with a sign, and a reference with white space around its head,
  which is never one to injected data, even if the head is `ij`.  No other text is
  taken for anything (`Expr.kind_eq_iff`).
-/
import Mathlib.Data.Bool.AllAny
import Stencil.Expr.Basic
import Stencil.Proofs.Text.DottedNames
import Stencil.Proofs.Text.Numerals

namespace Stencil.Expr

open Text (isBlank isIdentifier trim joinWith segments IsNumeral)

/-! ### String literals -/

/-- The inside of a string literal as it is written, and the text that it stands for:
    quotes and backslashes stand after a backslash only, and every backslash stands
    before a character. -/
inductive Spells : List Char → List Char → Prop
  | nil : Spells [] []
  | plain {c : Char} {cs text : List Char} (hbackslash : c ≠ '\\') (hquote : c ≠ '\'')
      (h : Spells cs text) : Spells (c :: cs) (c :: text)
  | newline {cs text : List Char} (h : Spells cs text) : Spells ('\\' :: 'n' :: cs) ('\n' :: text)
  | carriageReturn {cs text : List Char} (h : Spells cs text) :
      Spells ('\\' :: 'r' :: cs) ('\r' :: text)
  | tab {cs text : List Char} (h : Spells cs text) : Spells ('\\' :: 't' :: cs) ('\t' :: text)
  | escaped {c : Char} {cs text : List Char} (hc : c ∉ ['n', 'r', 't']) (h : Spells cs text) :
      Spells ('\\' :: c :: cs) (c :: text)

theorem unescape_of_notMem {c : Char} (h : c ∉ ['n', 'r', 't']) : unescape c = c := by
  simp only [List.mem_cons, List.not_mem_nil, or_false, not_or] at h
  exact unescape.eq_4 c h.1 h.2.2 h.2.1

theorem spells_unescape {c : Char} {cs text : List Char} (h : Spells cs text) :
    Spells ('\\' :: c :: cs) (unescape c :: text) := by
  by_cases hc : c ∈ ['n', 'r', 't']
  · simp only [List.mem_cons, List.not_mem_nil, or_false] at hc
    rcases hc with rfl | rfl | rfl
    · exact .newline h
    · exact .carriageReturn h
    · exact .tab h
  · rw [unescape_of_notMem hc]
    exact .escaped hc h

theorem decodeLiteral_of_spells {cs text : List Char} (h : Spells cs text) :
    decodeLiteral cs = some text := by
  induction h with
  | nil => rfl
  | @plain c cs text hbackslash hquote _ ih =>
    have hplain : ∀ d ds, c = '\\' → cs = d :: ds → False := fun _ _ hc _ => hbackslash hc
    rw [decodeLiteral.eq_3 c cs hplain, if_neg (by simp [hbackslash, hquote]), ih]
    rfl
  | newline _ ih | carriageReturn _ ih | tab _ ih =>
    rw [decodeLiteral, ih]
    rfl
  | escaped hc _ ih =>
    rw [decodeLiteral, ih, unescape_of_notMem hc]
    rfl

theorem decodeLiteral_eq_some_iff {cs text : List Char} :
    decodeLiteral cs = some text ↔ Spells cs text := by
  refine ⟨fun h => ?_, decodeLiteral_of_spells⟩
  fun_induction decodeLiteral cs generalizing text with
  | case1 =>
    cases h
    exact .nil
  | case2 c cs ih =>
    obtain ⟨rest, hrest, rfl⟩ := Option.map_eq_some_iff.1 h
    exact spells_unescape (ih hrest)
  | case3 c cs _ hc => cases h
  | case4 c cs _ hc ih =>
    obtain ⟨rest, hrest, rfl⟩ := Option.map_eq_some_iff.1 h
    simp only [Bool.or_eq_true, decide_eq_true_eq, not_or] at hc
    exact .plain hc.1 hc.2 (ih hrest)

theorem stringLiteral?_eq_some_iff {text : List Char} {s : String} : stringLiteral? text = some s ↔
    ∃ cs, text = '\'' :: cs ++ ['\''] ∧ Spells cs s.toList := by
  simp only [stringLiteral?, Option.bind_eq_bind, Option.bind_eq_some_iff,
    Text.dropPrefix?_eq_some_iff, Text.dropSuffix?_eq_some_iff, Option.map_eq_some_iff,
    decodeLiteral_eq_some_iff]
  constructor
  · rintro ⟨_, rfl, cs, rfl, decoded, h, rfl⟩
    exact ⟨cs, rfl, by rwa [String.toList_ofList]⟩
  · rintro ⟨cs, rfl, h⟩
    exact ⟨_, rfl, cs, rfl, s.toList, h, String.ofList_toList⟩

/-! ### References -/

/-- A head and keys with dots between them. -/
def path (head : List Char) (keys : List (List Char)) : List Char := joinWith ['.'] (head :: keys)

/-- The head and the keys of a reference are identifiers. -/
def AreNames (head : List Char) (keys : List (List Char)) : Prop :=
  isIdentifier head ∧ ∀ key ∈ keys, isIdentifier key

def refTo (injected : Bool) (head : List Char) (keys : List (List Char)) : DataRef :=
  ⟨injected, String.ofList head, keys.map String.ofList⟩

variable {injected : Bool} {head : List Char} {keys : List (List Char)} {ref : DataRef}

theorem refOf_eq_some_iff :
    refOf injected head keys = some ref ↔ AreNames head keys ∧ refTo injected head keys = ref := by
  simp [refOf, AreNames, refTo]

theorem segments_path (hhead : '.' ∉ head) (hkeys : ∀ key ∈ keys, isIdentifier key) :
    segments (path head keys) = head :: keys :=
  Text.segments_joinWith hhead fun key hkey => Text.dot_notMem_of_isIdentifier (hkeys key hkey)

/-- A reference after `ij`. -/
theorem dataRef?_injected (h : AreNames head keys) :
    dataRef? ('$' :: path ['i', 'j'] (head :: keys)) = some (refTo true head keys) := by
  have hsplit : Text.splitOn (· == '.') (path ['i', 'j'] (head :: keys)) =
      ['i', 'j'] :: head :: keys :=
    segments_path (by decide) (List.forall_mem_cons.2 h)
  simp only [dataRef?, Text.dropPrefix?, if_true, Option.bind_eq_bind, Option.bind_some, hsplit]
  exact refOf_eq_some_iff.2 ⟨h, rfl⟩

/-- A reference with white space around its head. -/
theorem dataRef?_padded {before after : List Char} (hbefore : ∀ c ∈ before, isBlank c)
    (hafter : ∀ c ∈ after, isBlank c) (h : AreNames head keys)
    (hne : before ++ head ++ after ≠ ['i', 'j']) :
    dataRef? ('$' :: path (before ++ head ++ after) keys) = some (refTo false head keys) := by
  have hdot : ∀ {cs : List Char}, (∀ c ∈ cs, isBlank c) → '.' ∉ cs := by
    intro cs hcs hmem
    exact absurd (hcs '.' hmem) (by decide)
  have hhead : '.' ∉ before ++ head ++ after := by
    simp only [List.mem_append, not_or]
    exact ⟨⟨hdot hbefore, Text.dot_notMem_of_isIdentifier h.1⟩, hdot hafter⟩
  have htrim : trim (before ++ head ++ after) = head :=
    Text.trim_padded_of_forall hbefore hafter (Text.ne_nil_of_isIdentifier h.1)
      (Text.isBlank_eq_false_of_isIdentifier h.1)
  have hsplit : Text.splitOn (· == '.') (path (before ++ head ++ after) keys) =
      (before ++ head ++ after) :: keys := segments_path hhead h.2
  simp only [dataRef?, Text.dropPrefix?, if_true, Option.bind_eq_bind, Option.bind_some, hsplit,
    if_neg hne, htrim]
  exact refOf_eq_some_iff.2 ⟨h, rfl⟩

/-- A text is a reference in no other way. -/
theorem exists_of_dataRef? {text : List Char} (h : dataRef? text = some ref) :
    (∃ head keys, text = '$' :: path ['i', 'j'] (head :: keys) ∧ AreNames head keys ∧
      refTo true head keys = ref) ∨
    ∃ before head after keys, text = '$' :: path (before ++ head ++ after) keys ∧
      (∀ c ∈ before, isBlank c) ∧ (∀ c ∈ after, isBlank c) ∧ AreNames head keys ∧
      before ++ head ++ after ≠ ['i', 'j'] ∧ refTo false head keys = ref := by
  simp only [dataRef?, Option.bind_eq_bind, Option.bind_eq_some_iff,
    Text.dropPrefix?_eq_some_iff] at h
  obtain ⟨rest, rfl, h⟩ := h
  have hrest : joinWith ['.'] (Text.splitOn (· == '.') rest) = rest := Text.joinWith_segments rest
  split at h
  · cases h
  · rename_i head keys hsplit
    rw [hsplit] at hrest
    split at h
    · rename_i hhead
      split at h
      · cases h
      · obtain ⟨hnames, href⟩ := refOf_eq_some_iff.1 h
        exact .inl ⟨_, _, by rw [← hrest, hhead]; rfl, hnames, href⟩
    · rename_i hhead
      obtain ⟨hnames, href⟩ := refOf_eq_some_iff.1 h
      obtain ⟨before, after, hpadded, hbefore, hafter⟩ := Text.exists_trim head
      rw [← List.append_assoc] at hpadded
      rw [hpadded] at hhead
      refine .inr ⟨before, trim head, after, keys, ?_, hbefore, hafter, hnames, hhead, href⟩
      rw [← hpadded, ← hrest]
      rfl

/-! ### Numbers -/

open Text (InRange IsSigned readInt64?_eq_some_iff)

theorem hexadecimal?_eq_some_iff {text : List Char} {n : Int} : hexadecimal? text = some n ↔
    ∃ cs, text = '0' :: 'x' :: cs ∧ IsSigned 16 cs n ∧ InRange n := by
  simp only [hexadecimal?, Option.bind_eq_bind, Option.bind_eq_some_iff,
    Text.dropPrefix?_eq_some_iff, readInt64?_eq_some_iff (.inr rfl), List.cons_append,
    List.nil_append]

/-- The mark of a fraction: a point or the start of an exponent. -/
def HasMark (text : List Char) : Prop := ∃ c ∈ text, c ∈ ['.', 'e', 'E']

theorem not_isDigit_of_mem {c : Char} (hc : c ∈ ['x', '.', 'e', 'E']) :
    ∀ d, ¬Text.IsDigit 10 c d := by
  have hdigits : ∀ c ∈ ['x', '.', 'e', 'E'], ∀ d < 10,
      ¬(c = Nat.digitChar d ∨ c = (Nat.digitChar d).toUpper) :=
    List.all_iff_forall_prop.1 (by decide)
  rintro d ⟨hd, h⟩
  exact hdigits c hc d hd h

/-- Neither an `x` nor a mark is in a decimal numeral. -/
theorem notMem_of_isSigned {cs : List Char} {n : Int} (h : IsSigned 10 cs n) {c : Char}
    (hc : c ∈ ['x', '.', 'e', 'E']) : c ∉ cs := by
  have hsign : ∀ c ∈ ['x', '.', 'e', 'E'], c ∉ ['+', '-'] :=
    List.all_iff_forall_prop.1 (by decide)
  exact Text.notMem_of_isSigned h (hsign c hc) (not_isDigit_of_mem hc)

/-- Nothing but digits stands around the point of a fraction. -/
theorem x_notMem_of_mantissa {cs whole fraction : List Char} {n : Nat}
    (hcut : (Text.cut? (· == '.') cs).getD (cs, []) = (whole, fraction))
    (h : Text.readNat? 10 (whole ++ fraction) = some n) : 'x' ∉ cs := by
  have hdigits : 'x' ∉ whole ++ fraction :=
    notMem_of_isSigned (.natural ((Text.readNat?_eq_some_iff (.inl rfl)).1 h)) (by decide)
  cases hpoint : Text.cut? (· == '.') cs with
  | none =>
    rw [hpoint] at hcut
    cases hcut
    rwa [List.append_nil] at hdigits
  | some parts =>
    rw [hpoint] at hcut
    obtain rfl : parts = (whole, fraction) := hcut
    obtain ⟨c, hc, -, rfl⟩ := Text.cut?_eq_some_iff.1 hpoint
    rw [beq_iff_eq.1 hc]
    simpa using hdigits

theorem x_notMem_of_readUnsigned? {cs : List Char} {bits : Nat}
    (h : Text.Binary64.readUnsigned? cs = some bits) : 'x' ∉ cs := by
  simp only [Text.Binary64.readUnsigned?, Option.bind_eq_bind] at h
  split at h
  · rw [Option.bind_some, Option.bind_eq_some_iff] at h
    obtain ⟨n, hn, -⟩ := h
    exact x_notMem_of_mantissa rfl hn
  · rename_i before after hcut
    simp only [Option.bind_eq_some_iff, Option.map_eq_some_iff] at h
    obtain ⟨_, ⟨e, he, rfl⟩, n, hn, -⟩ := h
    have hbefore : 'x' ∉ before := x_notMem_of_mantissa rfl hn
    have hafter : 'x' ∉ after :=
      notMem_of_isSigned ((Text.readInt?_eq_some_iff (.inl rfl)).1 he) (by decide)
    obtain ⟨c, hc, -, rfl⟩ := Text.cut?_eq_some_iff.1 hcut
    have hne : c ≠ 'x' := by
      rintro rfl
      exact absurd hc (by decide)
    simp [hbefore, hafter, Ne.symm hne]

/-- No fraction is a hexadecimal numeral. -/
theorem x_notMem_of_read? {cs : List Char} {bits : Nat}
    (h : Text.Binary64.read? cs = some bits) : 'x' ∉ cs := by
  fun_cases Text.Binary64.read? cs with
  | case1 cs =>
    obtain ⟨n, hn, -⟩ := Option.map_eq_some_iff.1 h
    exact List.not_mem_cons_of_ne_of_not_mem (by decide) (x_notMem_of_readUnsigned? hn)
  | case2 cs =>
    exact List.not_mem_cons_of_ne_of_not_mem (by decide) (x_notMem_of_readUnsigned? h)
  | case3 cs hminus hplus =>
    rw [Text.Binary64.read?.eq_3 _ hminus hplus] at h
    exact x_notMem_of_readUnsigned? h

/-! ### What is a number -/

variable {text cs : List Char} {n : Int}

theorem hexadecimal?_eq_none (h : 'x' ∉ text) : hexadecimal? text = none := by
  rw [Option.eq_none_iff_forall_ne_some]
  intro n hn
  obtain ⟨cs, rfl, -⟩ := hexadecimal?_eq_some_iff.1 hn
  simp at h

theorem number?_hexadecimal (h : IsSigned 16 cs n) (hn : InRange n) :
    number? ('0' :: 'x' :: cs) = some (.int n) := by
  rw [number?, hexadecimal?_eq_some_iff.2 ⟨cs, rfl, h, hn⟩]

theorem number?_whole (hstart : startsNumber text) (h : IsSigned 10 text n) (hn : InRange n) :
    number? text = some (.int n) := by
  have hhexadecimal := hexadecimal?_eq_none (notMem_of_isSigned h (by decide))
  rw [number?, hhexadecimal, if_pos hstart, (readInt64?_eq_some_iff (.inl rfl)).2 ⟨h, hn⟩]

theorem number?_fraction (hstart : startsNumber text) (hmark : HasMark text) {bits : Nat}
    (h : Text.Binary64.read? text = some bits) :
    number? text = some (.float (UInt64.ofNat bits)) := by
  obtain ⟨c, hc, hcmark⟩ := hmark
  have hwhole : Text.readInt64? 10 text = none := by
    rw [Option.eq_none_iff_forall_ne_some]
    intro n hn
    have hsigned := ((readInt64?_eq_some_iff (.inl rfl)).1 hn).1
    exact notMem_of_isSigned hsigned (List.mem_cons_of_mem _ hcmark) hc
  have hany : text.any fun c => c == '.' || c == 'e' || c == 'E' := by
    rw [List.any_eq_true]
    exact ⟨c, hc, by simpa [or_assoc] using hcmark⟩
  rw [number?, hexadecimal?_eq_none (x_notMem_of_read? h), if_pos hstart, hwhole, if_pos hany, h]
  rfl

theorem startsNumber_of_isNumeral {m : Nat} (h : IsNumeral 10 text m) : startsNumber text := by
  obtain ⟨c, cs, rfl⟩ := List.exists_cons_of_ne_nil (Text.ne_nil_of_isNumeral h)
  obtain ⟨d, hd, hc⟩ := Text.isDigit_of_mem h c List.mem_cons_self
  have hdigits : ∀ d < 10, (Nat.digitChar d).isDigit ∧ (Nat.digitChar d).toUpper.isDigit := by
    decide
  rcases hc with rfl | rfl
  · simp [startsNumber, (hdigits d hd).1]
  · simp [startsNumber, (hdigits d hd).2]

/-! ### All forms -/

/-- The forms of literals and references, and what is denoted by them. -/
inductive IsForm : List Char → ExprKind → Prop
  | null : IsForm "null".toList .null
  | bool (value : Bool) : IsForm (toString value).toList (.bool value)
  | string {cs : List Char} {s : String} (h : Spells cs s.toList) :
      IsForm ('\'' :: cs ++ ['\'']) (.str s)
  | injected {head : List Char} {keys : List (List Char)} (h : AreNames head keys) :
      IsForm ('$' :: path ['i', 'j'] (head :: keys)) (.ref (refTo true head keys))
  | parameter {head : List Char} {keys : List (List Char)} (h : AreNames head keys)
      (hne : head ≠ ['i', 'j']) : IsForm ('$' :: path head keys) (.ref (refTo false head keys))
  | hexadecimal {cs : List Char} {n : Nat} (h : IsNumeral 16 cs n) (hn : InRange n) :
      IsForm ('0' :: 'x' :: cs) (.int n)
  | natural {cs : List Char} {n : Nat} (h : IsNumeral 10 cs n) (hn : InRange n) :
      IsForm cs (.int n)
  | negative {cs : List Char} {n : Nat} (h : IsNumeral 10 cs n) (hn : InRange (-n)) :
      IsForm ('-' :: cs) (.int (-n))
  | fraction {text : List Char} {bits : Nat} (hstart : startsNumber text) (hmark : HasMark text)
      (h : Text.Binary64.read? text = some bits) : IsForm text (.float (UInt64.ofNat bits))

/-- What is taken for a number or a reference too: a hexadecimal numeral with a sign, and
    a reference with white space around its head. -/
inductive IsLaxForm : List Char → ExprKind → Prop
  | plus {cs : List Char} {n : Nat} (h : IsNumeral 16 cs n) (hn : InRange n) :
      IsLaxForm ('0' :: 'x' :: '+' :: cs) (.int n)
  | minus {cs : List Char} {n : Nat} (h : IsNumeral 16 cs n) (hn : InRange (-n)) :
      IsLaxForm ('0' :: 'x' :: '-' :: cs) (.int (-n))
  | padded {before head after : List Char} {keys : List (List Char)}
      (hbefore : ∀ c ∈ before, isBlank c) (hafter : ∀ c ∈ after, isBlank c)
      (h : AreNames head keys) (hblank : before ++ after ≠ []) :
      IsLaxForm ('$' :: path (before ++ head ++ after) keys) (.ref (refTo false head keys))

variable {kind : ExprKind}

theorem taken_of_number? (h : number? text = some kind) :
    IsForm text kind ∨ IsLaxForm text kind := by
  rw [number?] at h
  split at h
  · rename_i n hhexadecimal
    cases h
    obtain ⟨cs, rfl, hsigned, hn⟩ := hexadecimal?_eq_some_iff.1 hhexadecimal
    cases hsigned with
    | natural hcs => exact .inl (.hexadecimal hcs hn)
    | plus hcs => exact .inr (.plus hcs hn)
    | minus hcs => exact .inr (.minus hcs hn)
  · split at h
    · rename_i hstart
      split at h
      · rename_i n hwhole
        cases h
        obtain ⟨hsigned, hn⟩ := (readInt64?_eq_some_iff (.inl rfl)).1 hwhole
        cases hsigned with
        | natural hcs => exact .inl (.natural hcs hn)
        | plus hcs => exact absurd hstart Bool.false_ne_true
        | minus hcs => exact .inl (.negative hcs hn)
      · split at h
        · rename_i hany
          obtain ⟨bits, hbits, rfl⟩ := Option.map_eq_some_iff.1 h
          obtain ⟨c, hc, hcmark⟩ := List.any_eq_true.1 hany
          exact .inl (.fraction hstart ⟨c, hc, by simpa [or_assoc] using hcmark⟩ hbits)
        · cases h
    · cases h

theorem taken_of_dataRef? (h : dataRef? text = some ref) :
    IsForm text (.ref ref) ∨ IsLaxForm text (.ref ref) := by
  rcases exists_of_dataRef? h with ⟨head, keys, rfl, hnames, rfl⟩ |
    ⟨before, head, after, keys, rfl, hbefore, hafter, hnames, hne, rfl⟩
  · exact .inl (.injected hnames)
  · by_cases hblank : before ++ after = []
    · obtain ⟨rfl, rfl⟩ := List.append_eq_nil_iff.1 hblank
      rw [List.nil_append, List.append_nil] at hne ⊢
      exact .inl (.parameter hnames hne)
    · exact .inr (.padded hbefore hafter hnames hblank)

/-- What a text is taken for, it is by one of the forms. -/
theorem taken_of_classify (h : classify text = kind) (hne : kind ≠ .other) :
    IsForm text kind ∨ IsLaxForm text kind := by
  subst h
  rw [classify] at hne ⊢
  split_ifs with hnull htrue hfalse
  · rw [hnull]
    exact .inl .null
  · rw [htrue]
    exact .inl (.bool true)
  · rw [hfalse]
    exact .inl (.bool false)
  · rw [if_neg hnull, if_neg htrue, if_neg hfalse] at hne
    split
    · rename_i s hs
      obtain ⟨cs, rfl, h⟩ := stringLiteral?_eq_some_iff.1 hs
      exact .inl (.string h)
    · rename_i hs
      rw [hs] at hne
      split
      · rename_i ref href
        exact taken_of_dataRef? href
      · rename_i href
        rw [href] at hne
        cases hnumber : number? text with
        | none => exact absurd (by rw [hnumber]; rfl) hne
        | some kind => exact taken_of_number? hnumber

/-- No word is a text with another first character. -/
theorem classify_cons {c : Char} (hc : c ∉ ['n', 't', 'f']) (cs : List Char) :
    classify (c :: cs) = match stringLiteral? (c :: cs) with
      | some s => .str s
      | none =>
        match dataRef? (c :: cs) with
        | some ref => .ref ref
        | none => (number? (c :: cs)).getD .other := by
  simp only [List.mem_cons, List.not_mem_nil, or_false, not_or] at hc
  have hnull : c :: cs ≠ "null".toList := fun h => hc.1 (List.cons.inj h).1
  have htrue : c :: cs ≠ "true".toList := fun h => hc.2.1 (List.cons.inj h).1
  have hfalse : c :: cs ≠ "false".toList := fun h => hc.2.2 (List.cons.inj h).1
  exact (if_neg hnull).trans ((if_neg htrue).trans (if_neg hfalse))

theorem classify_string {s : String} (h : Spells cs s.toList) :
    classify ('\'' :: cs ++ ['\'']) = .str s := by
  rw [List.cons_append, classify_cons (by decide), ← List.cons_append,
    stringLiteral?_eq_some_iff.2 ⟨cs, rfl, h⟩]

theorem classify_reference (h : dataRef? ('$' :: cs) = some ref) :
    classify ('$' :: cs) = .ref ref := by
  have hstring : stringLiteral? ('$' :: cs) = none := rfl
  rw [classify_cons (by decide), hstring, h]

theorem classify_number (hstart : startsNumber text) (h : number? text = some kind) :
    classify text = kind := by
  cases text with
  | nil => cases hstart
  | cons c cs =>
    have hne : ∀ d, (d.isDigit || d == '-') = false → d ≠ c := by
      rintro d hd rfl
      rw [startsNumber] at hstart
      rw [hstart] at hd
      cases hd
    have hstring : stringLiteral? (c :: cs) = none := by
      simp [stringLiteral?, Text.dropPrefix?, hne '\'' (by decide)]
    have href : dataRef? (c :: cs) = none := by
      simp [dataRef?, Text.dropPrefix?, hne '$' (by decide)]
    have hwords : c ∉ ['n', 't', 'f'] := by
      simp [Ne.symm (hne 'n' (by decide)), Ne.symm (hne 't' (by decide)),
        Ne.symm (hne 'f' (by decide))]
    rw [classify_cons hwords, hstring, href, h]
    rfl

theorem classify_of_isForm (h : IsForm text kind) : classify text = kind := by
  cases h with
  | null => rfl
  | bool value => cases value <;> rfl
  | string h => exact classify_string h
  | injected h => exact classify_reference (dataRef?_injected h)
  | @parameter head keys h hne =>
    have href := dataRef?_padded (List.forall_mem_nil _) (List.forall_mem_nil _) h
      (by rwa [List.nil_append, List.append_nil])
    rw [List.nil_append, List.append_nil] at href
    exact classify_reference href
  | hexadecimal h hn => exact classify_number rfl (number?_hexadecimal (.natural h) hn)
  | natural h hn =>
    have hstart := startsNumber_of_isNumeral h
    exact classify_number hstart (number?_whole hstart (.natural h) hn)
  | negative h hn => exact classify_number rfl (number?_whole rfl (.minus h) hn)
  | fraction hstart hmark h => exact classify_number hstart (number?_fraction hstart hmark h)

theorem classify_of_isLaxForm (h : IsLaxForm text kind) : classify text = kind := by
  cases h with
  | plus h hn => exact classify_number rfl (number?_hexadecimal (.plus h) hn)
  | minus h hn => exact classify_number rfl (number?_hexadecimal (.minus h) hn)
  | @padded before head after keys hbefore hafter h hblank =>
    refine classify_reference (dataRef?_padded hbefore hafter h ?_)
    -- White space is in the text, and none is in `ij`.
    intro hij
    obtain ⟨c, hc⟩ := List.exists_mem_of_ne_nil _ hblank
    have hcblank : isBlank c := by
      rcases List.mem_append.1 hc with hc | hc
      · exact hbefore c hc
      · exact hafter c hc
    have hmem : c ∈ ['i', 'j'] := by
      rw [← hij]
      simp only [List.mem_append] at hc ⊢
      tauto
    have hnone : ∀ c ∈ ['i', 'j'], isBlank c = false := List.all_iff_forall_prop.1 (by decide)
    rw [hnone c hmem] at hcblank
    cases hcblank

theorem not_isForm_other : ¬IsForm text .other := by
  intro h
  cases h

theorem not_isLaxForm_other : ¬IsLaxForm text .other := by
  intro h
  cases h

/-- What an expression is: what its text denotes by one of the forms, or nothing that is
    understood if the text has none of them. -/
theorem kind_eq_iff (text : List Char) (kind : ExprKind) :
    (ofText text).kind = kind ↔
      IsForm (trim text) kind ∨ IsLaxForm (trim text) kind ∨
        kind = .other ∧ ∀ k, ¬IsForm (trim text) k ∧ ¬IsLaxForm (trim text) k := by
  change classify (trim text) = kind ↔ _
  constructor
  · intro h
    by_cases hother : kind = .other
    · have hk : ∀ {k}, classify (trim text) = k → k = .other :=
        fun hk => hk.symm.trans (h.trans hother)
      refine .inr (.inr ⟨hother, fun k => ⟨fun hform => ?_, fun hlax => ?_⟩⟩)
      · rw [hk (classify_of_isForm hform)] at hform
        exact not_isForm_other hform
      · rw [hk (classify_of_isLaxForm hlax)] at hlax
        exact not_isLaxForm_other hlax
    · rw [← or_assoc]
      exact .inl (taken_of_classify h hother)
  · rintro (h | h | ⟨rfl, h⟩)
    · exact classify_of_isForm h
    · exact classify_of_isLaxForm h
    · by_contra hne
      rcases taken_of_classify rfl hne with hform | hlax
      · exact (h _).1 hform
      · exact (h _).2 hlax

/-- In the form of a whole number a sign stands at the start only. -/
theorem sign_notMem_tail (h : IsForm text (.int n)) : '-' ∉ text.tail := by
  have hsign : ∀ d < 16, '-' ≠ Nat.digitChar d ∧ '-' ≠ (Nat.digitChar d).toUpper := by decide
  have hdigit : ∀ {base d}, base ≤ 16 → ¬Text.IsDigit base '-' d := by
    rintro base d hbase ⟨hd, hc⟩
    have hne := hsign d (Nat.lt_of_lt_of_le hd hbase)
    exact hc.elim hne.1 hne.2
  have hnumeral : ∀ {base cs m}, base ≤ 16 → IsNumeral base cs m → '-' ∉ cs := by
    intro base cs m hbase hcs hmem
    obtain ⟨d, hd⟩ := Text.isDigit_of_mem hcs _ hmem
    exact hdigit hbase hd
  cases h with
  | hexadecimal hcs =>
    exact List.not_mem_cons_of_ne_of_not_mem (by decide) (hnumeral (by decide) hcs)
  | natural hcs => exact fun hmem => hnumeral (by decide) hcs (List.mem_of_mem_tail hmem)
  | negative hcs => exact hnumeral (by decide) hcs

theorem isBlank_eq_false_of_path (h : AreNames head keys) :
    ∀ c ∈ path head keys, isBlank c = false := by
  intro c hc
  rw [path, Text.joinWith_cons, List.mem_append, List.mem_flatMap] at hc
  rcases hc with hc | ⟨key, hkey, hc⟩
  · exact Text.isBlank_eq_false_of_isIdentifier h.1 c hc
  · rcases List.mem_cons.1 hc with rfl | hc
    · decide
    · exact Text.isBlank_eq_false_of_isIdentifier (h.2 key hkey) c hc

/-- In the form of a reference there is no white space. -/
theorem isBlank_eq_false_of_isForm (h : IsForm text (.ref ref)) :
    ∀ c ∈ text, isBlank c = false := by
  cases h with
  | injected h =>
    have hnames : AreNames ['i', 'j'] (_ :: _) := ⟨by decide, List.forall_mem_cons.2 h⟩
    exact List.forall_mem_cons.2 ⟨by decide, isBlank_eq_false_of_path hnames⟩
  | parameter h hne => exact List.forall_mem_cons.2 ⟨by decide, isBlank_eq_false_of_path h⟩

/-- More than the forms is taken for a number and for a reference: `0x-5`, and `$ij .x`, which
    is even taken for a reference to a parameter. -/
theorem exists_lax :
    (¬∀ text n, (ofText text).kind = .int n ↔ IsForm (trim text) (.int n)) ∧
      (¬∀ text ref, (ofText text).kind = .ref ref ↔ IsForm (trim text) (.ref ref)) ∧
        ¬∀ text ref, (ofText text).kind = .ref ref → ref.head = "ij" → ref.injected := by
  refine ⟨fun h => ?_, fun h => ?_, fun h => ?_⟩
  · have hform := (h "0x-5".toList (-5)).1 (by decide)
    exact sign_notMem_tail hform (by decide)
  · have hform := (h "$ij .x".toList ⟨false, "ij", ["x"]⟩).1 (by decide)
    exact absurd (isBlank_eq_false_of_isForm hform ' ' (by decide)) (by decide)
  · have hinjected := h "$ij .x".toList ⟨false, "ij", ["x"]⟩ (by decide) rfl
    cases hinjected

end Stencil.Expr
