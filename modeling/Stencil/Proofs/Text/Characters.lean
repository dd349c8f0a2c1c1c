/-
  Stencil/Proofs/Text/Characters.lean
  ===================================
  **Classes of characters.**

  Letters, digits and underscores are among the first characters there are, so
  what holds of all of them can be checked one by one (`of_isAlphanum`).  None of
  them is white space.
-/
import Stencil.Text.Blank
import Stencil.Text.Identifier

namespace Stencil.Text

theorem toNat_lt_of_isAlphanum {c : Char} (h : c.isAlphanum) : c.toNat < 123 := by
  have hval : c.val ≤ 'Z'.val ∨ c.val ≤ 'z'.val ∨ c.val ≤ '9'.val := by
    obtain halpha | hdigit := Bool.or_eq_true_iff.1 h
    · obtain hupper | hlower := Bool.or_eq_true_iff.1 halpha
      · exact .inl (of_decide_eq_true hupper).2
      · exact .inr (.inl (of_decide_eq_true (Bool.and_eq_true_iff.1 hlower).2))
    · exact .inr (.inr (of_decide_eq_true (Bool.and_eq_true_iff.1 hdigit).2))
  simp only [UInt32.le_iff_toNat_le] at hval
  change c.val.toNat < 123
  have hz : 'z'.val.toNat = 122 := rfl
  have hZ : 'Z'.val.toNat = 90 := rfl
  have h9 : '9'.val.toNat = 57 := rfl
  omega

/-- What holds of the characters up to `z` holds of letters and digits. -/
theorem of_isAlphanum {P : Char → Prop} (h : ∀ n : Fin 123, P (Char.ofNat n)) {c : Char}
    (hc : c.isAlphanum) : P c := by
  have hn := h ⟨c.toNat, toNat_lt_of_isAlphanum hc⟩
  rwa [Char.ofNat_toNat] at hn

theorem isNamePart_of_isNameStart {c : Char} (h : isNameStart c) : isNamePart c := by
  simp only [isNameStart, Bool.or_eq_true, beq_iff_eq] at h
  simp only [isNamePart, Char.isAlphanum, Bool.or_eq_true, beq_iff_eq]
  exact h.imp_left .inl

theorem ne_of_isBlank {c d : Char} (hc : isBlank c) (hd : isBlank d = false) : c ≠ d := by
  rintro rfl
  rw [hc] at hd
  cases hd

theorem isBlank_eq_false_of_isNamePart {c : Char} (h : isNamePart c) : isBlank c = false := by
  simp only [isNamePart, Bool.or_eq_true, beq_iff_eq] at h
  rcases h with h | rfl
  · exact of_isAlphanum (P := fun c => c.isAlphanum → isBlank c = false) (by decide) h h
  · decide

/-- A text is what is left of it with white space around that. -/
theorem exists_trim (cs : List Char) :
    ∃ lead trail, cs = lead ++ (trim cs ++ trail) ∧ (∀ c ∈ lead, isBlank c) ∧
      ∀ c ∈ trail, isBlank c := by
  refine ⟨cs.takeWhile isBlank, ((trimStart cs).reverse.takeWhile isBlank).reverse, ?_, ?_, ?_⟩
  · have hend : trim cs ++ ((trimStart cs).reverse.takeWhile isBlank).reverse = trimStart cs := by
      rw [trim, trimEnd, dropEndWhile, ← List.reverse_append, List.takeWhile_append_dropWhile,
        List.reverse_reverse]
    rw [hend, trimStart, List.takeWhile_append_dropWhile]
  · intro c hc
    exact List.all_eq_true.1 List.all_takeWhile c hc
  · intro c hc
    exact List.all_eq_true.1 List.all_takeWhile c (List.mem_reverse.1 hc)

theorem isBlank_of_mem_space : ∀ c ∈ [' '], isBlank c := List.forall_mem_singleton.2 rfl

/-- The last character of a text is not white space, as it is this one. -/
theorem isBlank_eq_false_of_getLast? {cs : List Char} {d : Char} (h : cs.getLast? = some d)
    (hd : isBlank d = false) : ∀ c ∈ cs.getLast?, isBlank c = false := by
  rw [h]
  rintro _ ⟨⟩
  exact hd

/-- A text that starts with no white space is not trimmed at its start. -/
theorem trimStart_cons {c : Char} (h : isBlank c = false) (cs : List Char) :
    trimStart (c :: cs) = c :: cs :=
  List.dropWhile_cons_of_neg (by simp [h])

/-- A text that ends with no white space is what is left of it with white space after it. -/
theorem trimEnd_append {text after : List Char} (hafter : ∀ c ∈ after, isBlank c)
    (hlast : ∀ c ∈ text.getLast?, isBlank c = false) : trimEnd (text ++ after) = text := by
  have hdrop : text.reverse.dropWhile isBlank = text.reverse := by
    cases hreverse : text.reverse with
    | nil => rfl
    | cons c cs =>
      refine List.dropWhile_cons_of_neg ?_
      rw [← List.head?_reverse, hreverse] at hlast
      simp [hlast c rfl]
  rw [trimEnd, dropEndWhile, List.reverse_append,
    List.dropWhile_append_of_pos fun d hd => hafter d (List.mem_reverse.1 hd), hdrop,
    List.reverse_reverse]

/-- A text whose ends are not white space is what is left of it when it has white space
    around it. -/
theorem trim_padded {before text after : List Char} (hbefore : ∀ c ∈ before, isBlank c)
    (hafter : ∀ c ∈ after, isBlank c) (hne : text ≠ [])
    (hfirst : ∀ c ∈ text.head?, isBlank c = false)
    (hlast : ∀ c ∈ text.getLast?, isBlank c = false) : trim (before ++ text ++ after) = text := by
  have hstart : trimStart (before ++ text ++ after) = text ++ after := by
    obtain ⟨c, cs, rfl⟩ := List.exists_cons_of_ne_nil hne
    rw [List.append_assoc, trimStart, List.dropWhile_append_of_pos hbefore]
    exact trimStart_cons (hfirst c rfl) _
  rw [trim, hstart, trimEnd_append hafter hlast]

/-- Nothing is trimmed from a text whose ends are not white space. -/
theorem trim_eq_self {text : List Char} (hfirst : ∀ c ∈ text.head?, isBlank c = false)
    (hlast : ∀ c ∈ text.getLast?, isBlank c = false) : trim text = text := by
  by_cases hne : text = []
  · rw [hne]
    rfl
  · simpa using trim_padded (List.forall_mem_nil _) (List.forall_mem_nil _) hne hfirst hlast

/-- The same for a text without any white space. -/
theorem trim_padded_of_forall {before text after : List Char} (hbefore : ∀ c ∈ before, isBlank c)
    (hafter : ∀ c ∈ after, isBlank c) (hne : text ≠ []) (htext : ∀ c ∈ text, isBlank c = false) :
    trim (before ++ text ++ after) = text :=
  trim_padded hbefore hafter hne (fun c hc => htext c (List.mem_of_mem_head? hc))
    fun c hc => htext c (List.mem_of_mem_getLast? hc)

theorem ne_nil_of_isIdentifier {name : List Char} (h : isIdentifier name) : name ≠ [] := by
  rintro rfl
  cases h

theorem isNamePart_of_isIdentifier {name : List Char} (h : isIdentifier name) :
    ∀ c ∈ name, isNamePart c := by
  obtain ⟨c, cs, rfl⟩ := List.exists_cons_of_ne_nil (ne_nil_of_isIdentifier h)
  obtain ⟨hstart, hrest⟩ := Bool.and_eq_true_iff.1 h
  exact List.forall_mem_cons.2 ⟨isNamePart_of_isNameStart hstart, List.all_eq_true.1 hrest⟩

theorem isBlank_eq_false_of_isIdentifier {name : List Char} (h : isIdentifier name) :
    ∀ c ∈ name, isBlank c = false :=
  fun c hc => isBlank_eq_false_of_isNamePart (isNamePart_of_isIdentifier h c hc)

end Stencil.Text
