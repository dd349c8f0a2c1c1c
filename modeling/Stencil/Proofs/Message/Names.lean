/-
  Stencil/Proofs/Message/Names.lean
  =================================
  **What names of placeholders are made of.**

  Whatever a placeholder, a plural or a select is named after, its name is made
  of ASCII letters, digits and underscores, so that it holds no character that
  means something in the canonical text of a message.
-/
import Stencil.Message.Assembly
import Stencil.Proofs.Message.PlaceholderNames
import Stencil.Proofs.Text.Characters

namespace Stencil

namespace Text

/-! ### Letters and digits -/

theorem isAlphanum_toUpper {c : Char} (h : c.isAlphanum) : c.toUpper.isAlphanum :=
  of_isAlphanum (P := fun c => c.isAlphanum → c.toUpper.isAlphanum) (by decide) h h

theorem isAlphanum_toLower {c : Char} (h : c.isAlphanum) : c.toLower.isAlphanum :=
  of_isAlphanum (P := fun c => c.isAlphanum → c.toLower.isAlphanum) (by decide) h h

end Text

namespace Message

open Text (isNamePart)

/-- A name in translations: letters, digits and underscores. -/
def IsName (name : String) : Prop := ∀ c ∈ name.toList, isNamePart c

instance (name : String) : Decidable (IsName name) :=
  List.decidableBAll (fun c => isNamePart c = true) name.toList

theorem isName_append {name name' : String} (h : IsName name) (h' : IsName name') :
    IsName (name ++ name') := by
  intro c hc
  rw [String.toList_append, List.mem_append] at hc
  exact hc.elim (h c) (h' c)

theorem isNamePart_of_isAlphanum {c : Char} (h : c.isAlphanum) : isNamePart c := by
  rw [isNamePart, h]
  rfl

/-- Upper snake case is written in capitals, digits and underscores. -/
theorem eq_of_mem_upperSnakeFrom {inWord : Bool} {cs : List Char} {c : Char}
    (hc : c ∈ Text.upperSnakeFrom inWord cs) :
    c = '_' ∨ ∃ d : Char, d.isAlphanum ∧ c = d.toUpper := by
  induction cs generalizing inWord with
  | nil => cases hc
  | cons d ds ih =>
    rw [Text.upperSnakeFrom, List.mem_append, List.mem_cons] at hc
    rcases hc with hc | rfl | hc
    · split at hc
      · exact .inl (List.mem_singleton.1 hc)
      · cases hc
    · split
      · rename_i hd
        exact .inr ⟨d, hd, rfl⟩
      · exact .inl rfl
    · exact ih hc

theorem isName_upperSnake (name : String) : IsName (Text.upperSnake name) := by
  intro c hc
  rw [Text.upperSnake, String.toList_ofList] at hc
  obtain rfl | ⟨d, hd, rfl⟩ := eq_of_mem_upperSnakeFrom hc
  · rfl
  · exact isNamePart_of_isAlphanum (Text.isAlphanum_toUpper hd)

theorem isName_exprName {fallback : String} (h : IsName fallback) (expr : Expr) :
    IsName (exprName fallback expr) := by
  rw [exprName]
  split
  · exact isName_upperSnake _
  · exact h

/-! ### Tags -/

theorem isName_tagWord {element : String} (h : ∀ c ∈ element.toList, c.isAlphanum) :
    IsName (tagWord element) := by
  rw [tagWord.eq_def]
  split
  case h_16 =>
    intro c hc
    rw [String.toList_ofList] at hc
    obtain ⟨d, hd, rfl⟩ := List.mem_map.1 hc
    exact isNamePart_of_isAlphanum (Text.isAlphanum_toUpper (h d hd))
  all_goals decide

theorem isName_tagName {element : String} (h : ∀ c ∈ element.toList, c.isAlphanum)
    (isEnd selfEnding : Bool) : IsName (tagName element isEnd selfEnding) := by
  have hword := isName_tagWord h
  rw [tagName]
  split
  · exact isName_append (by decide) hword
  · split
    · exact hword
    · exact isName_append (by decide) hword

theorem isAlphanum_of_mem_element (source : List Char) :
    ∀ c ∈ (OpenTag.element source).toList, c.isAlphanum := by
  intro c hc
  rw [OpenTag.element, String.toList_ofList] at hc
  obtain ⟨d, hd, rfl⟩ := List.mem_map.1 hc
  exact Text.isAlphanum_toLower (List.all_eq_true.1 (List.all_takeWhile ..) d hd)

/-! ### Numbered names -/

theorem isName_toString (n : Nat) : IsName (toString n) := by
  intro c hc
  rw [Nat.toString_eq_repr, Nat.toList_repr] at hc
  have hdigit := Nat.isDigit_of_mem_toDigits (by decide) (by decide) hc
  apply isNamePart_of_isAlphanum
  rw [Char.isAlphanum, hdigit, Bool.or_true]

theorem isName_finalName {all : List (String × PlaceholderKey)} {base : String} (h : IsName base)
    (key : PlaceholderKey) : IsName (finalName all base key) := by
  rw [finalName]
  split
  · exact isName_append (isName_append h (by decide)) (isName_toString _)
  · exact h

/-! ### Names of placeholders -/

/-- The characters in names of placeholders: capitals, digits and the underscore. -/
def isCapitalPart (c : Char) : Bool := c.isUpper || c.isDigit || c == '_'

/-- A name of a placeholder: capitals, digits and underscores, at least one. -/
def IsCapitalName (name : String) : Prop := name ≠ "" ∧ ∀ c ∈ name.toList, isCapitalPart c

instance (name : String) : Decidable (IsCapitalName name) :=
  have : Decidable (∀ c ∈ name.toList, isCapitalPart c = true) :=
    List.decidableBAll (fun c => isCapitalPart c = true) name.toList
  instDecidableAnd

theorem isCapitalName_append {name suffix : String} (h : IsCapitalName name)
    (hsuffix : ∀ c ∈ suffix.toList, isCapitalPart c) : IsCapitalName (name ++ suffix) := by
  refine ⟨fun hnil => h.1 (String.append_eq_empty_iff.1 hnil).1, fun c hc => ?_⟩
  rw [String.toList_append, List.mem_append] at hc
  exact hc.elim (h.2 c) (hsuffix c)

theorem isCapitalPart_toUpper {c : Char} (h : c.isAlphanum) : isCapitalPart c.toUpper :=
  Text.of_isAlphanum (P := fun c => c.isAlphanum → isCapitalPart c.toUpper) (by decide) h h

theorem isCapitalName_upperSnake {name : String} (h : name ≠ "") :
    IsCapitalName (Text.upperSnake name) := by
  refine ⟨fun hnil => ?_, fun c hc => ?_⟩
  · rw [Text.upperSnake, String.ofList_eq_empty_iff] at hnil
    cases hname : name.toList with
    | nil => exact h (String.toList_eq_nil_iff.1 hname)
    | cons c cs =>
      rw [hname, Text.upperSnakeFrom] at hnil
      simp at hnil
  · rw [Text.upperSnake, String.toList_ofList] at hc
    obtain rfl | ⟨d, hd, rfl⟩ := eq_of_mem_upperSnakeFrom hc
    · rfl
    · exact isCapitalPart_toUpper hd

theorem ofList_ne_empty_of_isIdentifier {cs : List Char} (h : Text.isIdentifier cs) :
    String.ofList cs ≠ "" := by
  intro hnil
  rw [String.ofList_eq_empty_iff.1 hnil] at h
  cases h

/-- The head and keys of a reference are identifiers. -/
theorem lastKey_ne_empty_of_refOf {injected : Bool} {head : List Char} {keys : List (List Char)}
    {ref : DataRef} (h : Expr.refOf injected head keys = some ref) : ref.lastKey ≠ "" := by
  rw [Expr.refOf] at h
  split at h
  · rename_i hidentifiers
    obtain ⟨hhead, hkeys⟩ := Bool.and_eq_true_iff.1 hidentifiers
    cases h
    rw [DataRef.lastKey, List.getLastD_eq_getLast?]
    cases hlast : (keys.map String.ofList).getLast? with
    | none => exact ofList_ne_empty_of_isIdentifier hhead
    | some last =>
      obtain ⟨key, hkey, rfl⟩ := List.mem_map.1 (List.mem_of_getLast? hlast)
      exact ofList_ne_empty_of_isIdentifier (List.all_eq_true.1 hkeys key hkey)
  · cases h

theorem lastKey_ne_empty_of_dataRef? {text : List Char} {ref : DataRef}
    (h : Expr.dataRef? text = some ref) : ref.lastKey ≠ "" := by
  rw [Expr.dataRef?] at h
  obtain ⟨path, -, h⟩ := Option.bind_eq_some_iff.1 h
  split at h
  · cases h
  · split at h
    · split at h
      · cases h
      · exact lastKey_ne_empty_of_refOf h
    · exact lastKey_ne_empty_of_refOf h

theorem number?_ne_ref (text : List Char) (ref : DataRef) :
    (Expr.number? text).getD .other ≠ .ref ref := by
  rw [Expr.number?]
  split
  · simp
  · split
    · split
      · simp
      · split
        · cases Text.Binary64.read? text <;> simp
        · simp
    · simp

theorem dataRef?_of_classify {text : List Char} {ref : DataRef}
    (h : Expr.classify text = .ref ref) : Expr.dataRef? text = some ref := by
  rw [Expr.classify] at h
  repeat' split at h
  all_goals first | cases h | exact absurd h (number?_ne_ref _ _)
  assumption

/-- The key that names the value of a reference is not empty. -/
theorem lastKey_ne_empty {text : List Char} {ref : DataRef}
    (h : (Expr.ofText text).ref? = some ref) :
    ref.lastKey ≠ "" := by
  rw [Expr.ref?] at h
  split at h
  · rename_i hkind
    cases h
    exact lastKey_ne_empty_of_dataRef? (dataRef?_of_classify hkind)
  · cases h

theorem isCapitalName_exprName (text : List Char) :
    IsCapitalName (exprName anonymousName (Expr.ofText text)) := by
  rw [exprName]
  split
  · rename_i ref href
    exact isCapitalName_upperSnake (lastKey_ne_empty href)
  · decide

theorem isCapitalName_tagWord {element : String} (h : ∀ c ∈ element.toList, c.isAlphanum) :
    IsCapitalName (tagWord element) := by
  rw [tagWord.eq_def]
  split
  case h_16 =>
    refine ⟨fun hnil => ?_, fun c hc => ?_⟩
    · rw [String.ofList_eq_empty_iff, List.map_eq_nil_iff, String.toList_eq_nil_iff] at hnil
      contradiction
    · rw [String.toList_ofList] at hc
      obtain ⟨d, hd, rfl⟩ := List.mem_map.1 hc
      exact isCapitalPart_toUpper (h d hd)
  all_goals decide

theorem isCapitalName_tagName {element : String} (h : ∀ c ∈ element.toList, c.isAlphanum)
    (isEnd selfEnding : Bool) : IsCapitalName (tagName element isEnd selfEnding) := by
  have hword := isCapitalName_tagWord h
  rw [tagName]
  split
  · exact isCapitalName_append (by decide) hword.2
  · split
    · exact hword
    · exact isCapitalName_append (by decide) hword.2

theorem isCapitalName_finalName {all : List (String × PlaceholderKey)} {base : String}
    (h : IsCapitalName base) (key : PlaceholderKey) : IsCapitalName (finalName all base key) := by
  rw [finalName]
  split
  · have hunderscore : ∀ c ∈ "_".toList, isCapitalPart c := List.forall_mem_singleton.2 rfl
    refine isCapitalName_append (isCapitalName_append h hunderscore) fun c hc => ?_
    rw [Nat.toString_eq_repr, Nat.toList_repr] at hc
    have hdigit := Nat.isDigit_of_mem_toDigits (by decide) (by decide) hc
    rw [isCapitalPart, hdigit, Bool.or_true]
    rfl
  · exact h

end Message

end Stencil
