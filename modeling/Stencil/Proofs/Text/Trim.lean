/-
  Stencil/Proofs/Text/Trim.lean
  =============================
  **Cutting runs of characters off a text.**

  What is cut off the end of two texts is cut off the second one, unless this is
  such a run as a whole, and the same the other way round for the start.
-/
import Mathlib.Data.List.DropRight
import Stencil.Proofs.Text.Characters

namespace Stencil.Text

variable {p : Char → Bool} {cs word rest : List Char} {c : Char}

theorem subset_dropEndWhile (p : Char → Bool) (cs : List Char) : dropEndWhile p cs ⊆ cs :=
  (List.rdropWhile_prefix p cs).subset

theorem subset_trimStart (cs : List Char) : trimStart cs ⊆ cs :=
  (List.dropWhile_sublist isBlank).subset

theorem subset_trim (cs : List Char) : trim cs ⊆ cs :=
  List.Subset.trans (subset_dropEndWhile isBlank _) (subset_trimStart cs)

/-- The longest run of characters of one sort ends where another text without one starts. -/
theorem takeWhile_append (hcs : ∀ c ∈ cs, p c) (hrest : ∀ c ∈ rest.head?, p c = false) :
    (cs ++ rest).takeWhile p = cs := by
  rw [List.takeWhile_append_of_pos hcs]
  cases rest with
  | nil => simp
  | cons c rest => rw [List.takeWhile_cons_of_neg (by simp [hrest c rfl]), List.append_nil]

theorem dropWhile_append (hcs : ∀ c ∈ cs, p c) (hrest : ∀ c ∈ rest.head?, p c = false) :
    (cs ++ rest).dropWhile p = rest := by
  rw [List.dropWhile_append_of_pos hcs]
  cases rest with
  | nil => rfl
  | cons c rest => rw [List.dropWhile_cons_of_neg (by simp [hrest c rfl])]

theorem dropEndWhile_eq_self (h : ∀ c ∈ cs.getLast?, p c = false) : dropEndWhile p cs = cs := by
  refine List.rdropWhile_eq_self_iff.2 fun hne => ?_
  simp [h _ (List.getLast?_eq_some_getLast hne)]

theorem dropWhile_append_of_mem (h : ∃ c ∈ word, p c = false) (after : List Char) :
    (word ++ after).dropWhile p = word.dropWhile p ++ after := by
  obtain ⟨c, hc, hpc⟩ := h
  have hne : word.dropWhile p ≠ [] := by
    intro hnil
    exact absurd (List.dropWhile_eq_nil_iff.1 hnil c hc) (by simp [hpc])
  rw [List.dropWhile_append, if_neg (by simpa using hne)]

theorem dropEndWhile_append_of_mem (h : ∃ c ∈ word, p c = false) (before : List Char) :
    dropEndWhile p (before ++ word) = before ++ dropEndWhile p word := by
  obtain ⟨c, hc, hpc⟩ := h
  rw [dropEndWhile, List.reverse_append, dropWhile_append_of_mem ⟨c, List.mem_reverse.2 hc, hpc⟩,
    List.reverse_append, List.reverse_reverse]
  rfl

theorem dropEndWhile_append_of_pos (h : ∀ c ∈ word, p c) (cs : List Char) :
    dropEndWhile p (cs ++ word) = dropEndWhile p cs := by
  rw [dropEndWhile, List.reverse_append,
    List.dropWhile_append_of_pos (by simpa using h), dropEndWhile]

theorem trim_append_blanks (h : ∀ c ∈ word, isBlank c) (cs : List Char) :
    trim (cs ++ word) = trim cs := by
  by_cases hcs : trimStart cs = []
  · have hall : ∀ c ∈ cs ++ word, isBlank c :=
      List.forall_mem_append.2 ⟨List.dropWhile_eq_nil_iff.1 hcs, h⟩
    rw [trim, trim, hcs]
    exact congrArg _ (List.dropWhile_eq_nil_iff.2 hall)
  · have hstart : trimStart (cs ++ word) = trimStart cs ++ word := by
      rw [trimStart, List.dropWhile_append, if_neg (by simpa [trimStart] using hcs)]
      rfl
    rw [trim, hstart]
    exact dropEndWhile_append_of_pos h _

theorem trim_eq_nil_iff : trim cs = [] ↔ allBlank cs := by
  rw [allBlank, List.all_eq_true]
  constructor
  · intro h
    obtain ⟨lead, trail, hcs, hlead, htrail⟩ := exists_trim cs
    rw [hcs, h]
    exact List.forall_mem_append.2 ⟨hlead, htrail⟩
  · intro h
    rw [trim, trimStart, List.dropWhile_eq_nil_iff.2 h]
    rfl

theorem trimStart_append_of_mem (h : ∃ c ∈ word, isBlank c = false) (after : List Char) :
    trimStart (word ++ after) = trimStart word ++ after := dropWhile_append_of_mem h after

theorem trimEnd_append_of_mem (h : ∃ c ∈ word, isBlank c = false) (before : List Char) :
    trimEnd (before ++ word) = before ++ trimEnd word := dropEndWhile_append_of_mem h before

theorem trimStart_append (hcs : ∀ d ∈ cs, isBlank d) (hc : word.head? = some c)
    (hblank : isBlank c = false) : trimStart (cs ++ word) = word := by
  obtain ⟨rest, rfl⟩ := List.head?_eq_some_iff.1 hc
  rw [trimStart, List.dropWhile_append_of_pos hcs, List.dropWhile_cons_of_neg (by simp [hblank])]

/-- A text that starts with no white space still starts so when its end is cut off. -/
theorem head?_trimEnd (hc : cs.head? = some c) (hblank : isBlank c = false) :
    (trimEnd cs).head? = some c := by
  obtain ⟨rest, rfl⟩ := List.head?_eq_some_iff.1 hc
  have hsingle : dropEndWhile isBlank [c] = [c] := dropEndWhile_eq_self (by simpa using hblank)
  rw [trimEnd, ← List.singleton_append]
  by_cases hrest : ∃ d ∈ rest, isBlank d = false
  · rw [dropEndWhile_append_of_mem hrest]
    rfl
  · have hblanks : ∀ d ∈ rest.reverse, isBlank d := by
      simpa using hrest
    rw [dropEndWhile, List.reverse_append, List.dropWhile_append_of_pos hblanks]
    exact congrArg List.head? hsingle

theorem getLast?_trimStart (hc : cs.getLast? = some c) (hblank : isBlank c = false) :
    (trimStart cs).getLast? = some c := by
  obtain ⟨front, rfl⟩ := List.getLast?_eq_some_iff.1 hc
  rw [trimStart, List.dropWhile_append]
  split
  · rw [List.dropWhile_cons_of_neg (by simp [hblank])]
    rfl
  · exact List.getLast?_concat

end Stencil.Text
