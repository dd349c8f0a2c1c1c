/-
  Stencil/Proofs/Message/Signs.lean
  =================================
  **Reading canonical text back, sign by sign.**

  The canonical text of a message is a sequence of signs: characters of text,
  escaped where needed, and tags in braces.  A tag ends at the first brace,
  unless it is the case of a string; that one ends at the first brace after a
  quote.  No text of a sign begins the text of another, so a sequence of signs
  can be read back from its text.
-/
import Mathlib.Data.List.Infix
import Stencil.Message.Fingerprint

namespace Stencil.Message

/-! ### Lists with a mark in them -/

/-- The first element with a property divides a list in one way. -/
theorem append_cons_inj {α : Type} {P : α → Prop} {a b r s : List α} {m n : α}
    (ha : ∀ x ∈ a, ¬ P x) (hb : ∀ x ∈ b, ¬ P x) (hm : P m) (hn : P n)
    (h : a ++ m :: r = b ++ n :: s) : a = b ∧ m = n ∧ r = s := by
  induction a generalizing b with
  | nil =>
    cases b with
    | nil =>
      rw [List.nil_append, List.nil_append, List.cons.injEq] at h
      exact ⟨rfl, h.1, h.2⟩
    | cons y b =>
      rw [List.nil_append, List.cons_append, List.cons.injEq] at h
      exact absurd (h.1 ▸ hm) (hb y List.mem_cons_self)
  | cons x a ih =>
    cases b with
    | nil =>
      rw [List.nil_append, List.cons_append, List.cons.injEq] at h
      exact absurd (h.1 ▸ hn) (ha x List.mem_cons_self)
    | cons y b =>
      rw [List.cons_append, List.cons_append, List.cons.injEq] at h
      obtain ⟨rfl, hm, hr⟩ := ih (fun z hz => ha z (List.mem_cons_of_mem _ hz))
        (fun z hz => hb z (List.mem_cons_of_mem _ hz)) h.2
      exact ⟨by rw [h.1], hm, hr⟩

/-- A quote and a brace: the end of the case of a string. -/
def quoteEnd : List Char := ['\'', '\x7d']

/-- The first end of a quote divides a text in one way. -/
theorem append_quoteEnd_inj {v w x y : List Char} (hv : ¬ quoteEnd <:+: v) (hw : ¬ quoteEnd <:+: w)
    (h : v ++ (quoteEnd ++ x) = w ++ (quoteEnd ++ y)) : v = w ∧ x = y := by
  -- a longer value would hold the end of the shorter one
  have hlonger : ∀ {c : Char} {w x y : List Char}, ¬ quoteEnd <:+: c :: w →
      quoteEnd ++ x ≠ c :: w ++ (quoteEnd ++ y) := by
    intro c w x y hw h
    cases w with
    | nil =>
      simp only [quoteEnd, List.cons_append, List.nil_append, List.cons.injEq] at h
      exact absurd h.2.1 (by decide)
    | cons d w =>
      simp only [quoteEnd, List.cons_append, List.nil_append, List.cons.injEq] at h
      refine hw ⟨[], w, ?_⟩
      rw [quoteEnd, h.1, h.2.1]
      rfl
  induction v generalizing w with
  | nil =>
    cases w with
    | nil => exact ⟨rfl, List.append_cancel_left h⟩
    | cons d w => exact absurd h (hlonger hw)
  | cons c v ih =>
    cases w with
    | nil => exact absurd h.symm (hlonger hv)
    | cons d w =>
      rw [List.cons_append, List.cons_append, List.cons.injEq] at h
      obtain ⟨rfl, hxy⟩ := ih (fun hin => hv (hin.trans (List.suffix_cons c v).isInfix))
        (fun hin => hw (hin.trans (List.suffix_cons d w).isInfix)) h.2
      exact ⟨by rw [h.1], hxy⟩

/-! ### Signs -/

/-- A character of text, or a tag by what stands between its braces. -/
inductive Sign where
  | char (c : Char)
  | tag (inside : List Char)
deriving DecidableEq, Repr

namespace Sign

/-- The canonical text of a sign. -/
def text : Sign → List Char
  | char c => escapeChar c
  | tag inside => '\x7b' :: inside ++ ['\x7d']

/-- How the case of a string starts. -/
def quoteStart : List Char := "CASE '".toList

/-- A tag that ends at the first brace. -/
def EndsAtBrace (inside : List Char) : Prop := '\x7d' ∉ inside ∧ ¬ quoteStart <+: inside

/-- The case of a string that ends at the first brace after a quote. -/
def EndsAtQuote (inside : List Char) : Prop :=
  ∃ value, inside = quoteStart ++ value ++ ['\''] ∧ ¬ quoteEnd <:+: value

/-- A sign whose end shows. -/
def Readable : Sign → Prop
  | char _ => True
  | tag inside => EndsAtBrace inside ∨ EndsAtQuote inside

theorem text_ne_nil (a : Sign) : a.text ≠ [] := by
  cases a with
  | char c =>
    rw [text, escapeChar]
    split <;> simp
  | tag inside => simp [text]

/-- The characters that are escaped. -/
def special (c : Char) : Bool := c == '\x7b' || c == '\x7d' || c == '\\'

theorem text_char_of_special {c : Char} (h : special c) : (char c).text = ['\\', c] := if_pos h

theorem text_char_of_not_special {c : Char} (h : ¬ special c) : (char c).text = [c] := if_neg h

theorem char_inj {c d : Char} {x y : List Char} (h : (char c).text ++ x = (char d).text ++ y) :
    c = d ∧ x = y := by
  by_cases hc : special c <;> by_cases hd : special d
  · rw [text_char_of_special hc, text_char_of_special hd] at h
    simpa using h
  · rw [text_char_of_special hc, text_char_of_not_special hd] at h
    simp only [List.cons_append, List.nil_append, List.cons.injEq] at h
    exact absurd (h.1 ▸ hd) (by decide)
  · rw [text_char_of_not_special hc, text_char_of_special hd] at h
    simp only [List.cons_append, List.nil_append, List.cons.injEq] at h
    exact absurd (h.1 ▸ hc) (by decide)
  · rw [text_char_of_not_special hc, text_char_of_not_special hd] at h
    simpa using h

theorem char_ne_tag {c : Char} {inside x y : List Char} :
    (char c).text ++ x ≠ (tag inside).text ++ y := by
  intro h
  by_cases hc : special c
  · rw [text_char_of_special hc, text] at h
    simp only [List.cons_append, List.nil_append, List.cons.injEq] at h
    exact absurd h.1 (by decide)
  · rw [text_char_of_not_special hc, text] at h
    simp only [List.cons_append, List.nil_append, List.cons.injEq] at h
    exact absurd (h.1 ▸ hc) (by decide)

/-- A tag that ends at the first brace is no case of a string. -/
theorem append_brace_ne_quoteStart {inside x y : List Char} (h : EndsAtBrace inside) :
    inside ++ '\x7d' :: x ≠ quoteStart ++ y := by
  intro heq
  rcases List.append_eq_append_iff.1 heq with ⟨rest, hstart, hrest⟩ | ⟨rest, hinside, -⟩
  · cases rest with
    | nil => exact h.2 (by rw [hstart, List.append_nil])
    | cons c rest =>
      rw [List.cons_append, List.cons.injEq] at hrest
      have hbrace : '\x7d' ∈ quoteStart := by
        rw [hstart, hrest.1]
        exact List.mem_append_right _ List.mem_cons_self
      exact absurd hbrace (by decide)
  · exact h.2 ⟨rest, hinside.symm⟩

theorem text_tag_append (inside x : List Char) :
    (tag inside).text ++ x = '\x7b' :: (inside ++ '\x7d' :: x) := by
  simp [text]

theorem tag_inj {inside inside' x y : List Char} (h : (tag inside).Readable)
    (h' : (tag inside').Readable) (heq : (tag inside).text ++ x = (tag inside').text ++ y) :
    inside = inside' ∧ x = y := by
  rw [text_tag_append, text_tag_append, List.cons.injEq] at heq
  have heq := heq.2
  have hquote : ∀ value z : List Char, quoteStart ++ value ++ ['\''] ++ '\x7d' :: z =
      quoteStart ++ (value ++ (quoteEnd ++ z)) := by
    intro value z
    simp [quoteEnd]
  rcases h with h | ⟨value, rfl, hvalue⟩ <;> rcases h' with h' | ⟨value', rfl, hvalue'⟩
  · obtain ⟨hinside, -, hxy⟩ := append_cons_inj (P := (· = '\x7d'))
      (fun c hc hbrace => h.1 (hbrace ▸ hc)) (fun c hc hbrace => h'.1 (hbrace ▸ hc)) rfl rfl heq
    exact ⟨hinside, hxy⟩
  · rw [hquote] at heq
    exact absurd heq (append_brace_ne_quoteStart h)
  · rw [hquote] at heq
    exact absurd heq.symm (append_brace_ne_quoteStart h')
  · rw [hquote, hquote] at heq
    obtain ⟨rfl, hxy⟩ := append_quoteEnd_inj hvalue hvalue' (List.append_cancel_left heq)
    exact ⟨rfl, hxy⟩

/-- The text of a readable sign does not go on as that of another. -/
theorem text_append_inj {a b : Sign} (ha : a.Readable) (hb : b.Readable) {x y : List Char}
    (h : a.text ++ x = b.text ++ y) : a = b ∧ x = y := by
  cases a with
  | char c =>
    cases b with
    | char d =>
      obtain ⟨rfl, hxy⟩ := char_inj h
      exact ⟨rfl, hxy⟩
    | tag inside => exact absurd h char_ne_tag
  | tag inside =>
    cases b with
    | char d => exact absurd h.symm char_ne_tag
    | tag inside' =>
      obtain ⟨rfl, hxy⟩ := tag_inj ha hb h
      exact ⟨rfl, hxy⟩

/-! ### Sequences of signs -/

/-- The canonical text of several signs. -/
def texts (signs : List Sign) : List Char := signs.flatMap text

theorem texts_append (signs signs' : List Sign) :
    texts (signs ++ signs') = texts signs ++ texts signs' := List.flatMap_append

theorem texts_chars (cs : List Char) : texts (cs.map char) = cs.flatMap escapeChar := by
  rw [texts, List.flatMap_map]
  rfl

/-- Readable signs of a kind are read back from their text as long as what
    follows does not begin with such a sign. -/
theorem texts_append_inj {S : Sign → Prop} (hS : ∀ a, S a → a.Readable) {signs signs' : List Sign}
    (hsigns : ∀ a ∈ signs, S a) (hsigns' : ∀ a ∈ signs', S a) {x y : List Char}
    (hx : ∀ a, S a → ¬ a.text <+: x) (hy : ∀ a, S a → ¬ a.text <+: y)
    (h : texts signs ++ x = texts signs' ++ y) : signs = signs' ∧ x = y := by
  induction signs generalizing signs' with
  | nil =>
    cases signs' with
    | nil => exact ⟨rfl, h⟩
    | cons b signs' =>
      refine absurd ⟨texts signs' ++ y, ?_⟩ (hx b (hsigns' b List.mem_cons_self))
      rw [← List.append_assoc]
      exact h.symm
  | cons a signs ih =>
    cases signs' with
    | nil =>
      refine absurd ⟨texts signs ++ x, ?_⟩ (hy a (hsigns a List.mem_cons_self))
      rw [← List.append_assoc]
      exact h
    | cons b signs' =>
      rw [texts, texts, List.flatMap_cons, List.flatMap_cons, List.append_assoc,
        List.append_assoc] at h
      obtain ⟨rfl, hrest⟩ := text_append_inj (hS a (hsigns a List.mem_cons_self))
        (hS b (hsigns' b List.mem_cons_self)) h
      obtain ⟨rfl, hxy⟩ := ih (fun c hc => hsigns c (List.mem_cons_of_mem _ hc))
        (fun c hc => hsigns' c (List.mem_cons_of_mem _ hc)) hrest
      exact ⟨rfl, hxy⟩

end Sign

end Stencil.Message
