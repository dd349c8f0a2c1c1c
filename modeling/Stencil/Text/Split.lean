/-
  Stencil/Text/Split.lean
  =======================
  **Cutting a text at separators.**

  `splitOn` cuts at every separator and never gives the empty list, and `cut?`
  cuts at the first one.
-/

namespace Stencil.Text

/-- The pieces of a text between the characters that satisfy `p`; a text
    without such a character is its own only piece. -/
def splitOn (p : Char → Bool) : List Char → List (List Char)
  | [] => [[]]
  | c :: cs =>
    if p c then [] :: splitOn p cs
    else match splitOn p cs with
      | [] => [[c]]
      | piece :: pieces => (c :: piece) :: pieces

/-- What stands before and after the first character that satisfies `p`. -/
def cut? (p : Char → Bool) : List Char → Option (List Char × List Char)
  | [] => none
  | c :: cs =>
    if p c then some ([], cs)
    else (cut? p cs).map fun (before, after) => (c :: before, after)

/-- What stands after a separator is shorter than the text. -/
theorem length_lt_of_cut? {p : Char → Bool} {cs before after : List Char}
    (h : cut? p cs = some (before, after)) : after.length < cs.length := by
  induction cs generalizing before with
  | nil => simp [cut?] at h
  | cons c cs ih =>
    simp only [cut?] at h
    split at h
    · simp only [Option.some.injEq, Prod.mk.injEq] at h
      simp [h.2]
    · simp only [Option.map_eq_some_iff, Prod.mk.injEq, Prod.exists] at h
      obtain ⟨before', after', h, -, rfl⟩ := h
      have := ih h
      simp only [List.length_cons]
      omega

/-- A text is cut at the first separator. -/
theorem cut?_eq_some_iff {p : Char → Bool} {cs before after : List Char} :
    cut? p cs = some (before, after) ↔
      ∃ c, p c ∧ (∀ d ∈ before, p d = false) ∧ cs = before ++ c :: after := by
  constructor
  · intro h
    induction cs generalizing before with
    | nil => simp [cut?] at h
    | cons c cs ih =>
      by_cases hc : p c
      · simp only [cut?, if_pos hc, Option.some.injEq, Prod.mk.injEq] at h
        obtain ⟨rfl, rfl⟩ := h
        exact ⟨c, hc, by simp, rfl⟩
      · simp only [cut?, if_neg hc, Option.map_eq_some_iff, Prod.mk.injEq, Prod.exists] at h
        obtain ⟨before, after, hcut, rfl, rfl⟩ := h
        obtain ⟨d, hd, hbefore, rfl⟩ := ih hcut
        exact ⟨d, hd, List.forall_mem_cons.2 ⟨by simpa using hc, hbefore⟩, rfl⟩
  · rintro ⟨c, hc, hbefore, rfl⟩
    induction before with
    | nil => simp [cut?, hc]
    | cons d ds ih =>
      obtain ⟨hd, hds⟩ := List.forall_mem_cons.1 hbefore
      simp [cut?, hd, ih hds]

/-- Dropping characters makes no text longer. -/
theorem length_dropWhile_le (p : Char → Bool) (cs : List Char) :
    (cs.dropWhile p).length ≤ cs.length :=
  (List.dropWhile_sublist p).length_le

/-- What follows `word` in a text that starts with it. -/
def dropPrefix? : List Char → List Char → Option (List Char)
  | [], cs => some cs
  | _ :: _, [] => none
  | w :: ws, c :: cs => if w = c then dropPrefix? ws cs else none

theorem dropPrefix?_eq_some_iff {word cs rest : List Char} :
    dropPrefix? word cs = some rest ↔ cs = word ++ rest := by
  induction word generalizing cs with
  | nil => simp [dropPrefix?, eq_comm]
  | cons w ws ih =>
    cases cs with
    | nil => simp [dropPrefix?]
    | cons c cs =>
      by_cases h : w = c
      · simp [dropPrefix?, h, ih]
      · simp [dropPrefix?, h, Ne.symm h]

/-- What precedes `word` in a text that ends with it. -/
def dropSuffix? (word cs : List Char) : Option (List Char) :=
  (dropPrefix? word.reverse cs.reverse).map List.reverse

theorem dropSuffix?_eq_some_iff {word cs rest : List Char} :
    dropSuffix? word cs = some rest ↔ cs = rest ++ word := by
  simp only [dropSuffix?, Option.map_eq_some_iff, dropPrefix?_eq_some_iff]
  constructor
  · rintro ⟨r, h, rfl⟩
    have := congrArg List.reverse h
    simpa using this
  · rintro rfl
    exact ⟨rest.reverse, by simp, by simp⟩

def startsWith (word : String) (cs : List Char) : Bool := word.toList.isPrefixOf cs

def endsWith (word : String) (cs : List Char) : Bool := word.toList.isSuffixOf cs

/-- A text has `word` somewhere in it. -/
def contains (word : String) : List Char → Bool
  | [] => word.isEmpty
  | c :: cs => startsWith word (c :: cs) || contains word cs

/-- The pieces in order, with `sep` between neighbours. -/
def joinWith (sep : List Char) : List (List Char) → List Char
  | [] => []
  | [piece] => piece
  | piece :: pieces => piece ++ sep ++ joinWith sep pieces

theorem joinWith_cons (sep piece : List Char) (pieces : List (List Char)) :
    joinWith sep (piece :: pieces) = piece ++ pieces.flatMap (sep ++ ·) := by
  induction pieces generalizing piece with
  | nil => simp [joinWith]
  | cons next rest ih => simp [joinWith, ih]

/-- Every occurrence of the non-empty `word` replaced, from left to right and
    without overlap; `skip` counts the characters of an occurrence that are
    still to be passed over. -/
def replaceFrom (word new : List Char) : Nat → List Char → List Char
  | _, [] => []
  | skip + 1, _ :: cs => replaceFrom word new skip cs
  | 0, c :: cs =>
    if word.isPrefixOf (c :: cs) then new ++ replaceFrom word new (word.length - 1) cs
    else c :: replaceFrom word new 0 cs

/-- Every occurrence of the non-empty `word` replaced by `new`. -/
def replace (word new : String) (cs : List Char) : List Char :=
  replaceFrom word.toList new.toList 0 cs

end Stencil.Text
