/-
  Stencil/Proofs/Text/Split.lean
  ==============================
  **Pieces of texts, and words in texts.**

  Splitting a text at a character and joining the pieces again are inverse to each
  other.  A word without a separator lies on one side of it, so it can be looked
  for, and replaced, piece by piece.
-/
import Mathlib.Data.List.Infix
import Stencil.Text.Split

namespace Stencil.Text

/-! ### Pieces -/

theorem splitOn_eq_splitOnP (p : Char → Bool) (cs : List Char) : splitOn p cs = cs.splitOnP p := by
  induction cs with
  | nil => rfl
  | cons c cs ih =>
    rw [List.splitOnP_cons_eq_if_modifyHead, splitOn, ih]
    split
    · rfl
    · obtain ⟨piece, pieces, hpieces⟩ := List.exists_cons_of_ne_nil (List.splitOnP_ne_nil p cs)
      rw [hpieces]
      rfl

theorem joinWith_cons_cons (sep piece next : List Char) (pieces : List (List Char)) :
    joinWith sep (piece :: next :: pieces) = piece ++ (sep ++ joinWith sep (next :: pieces)) :=
  List.append_assoc ..

theorem joinWith_eq_intercalate (sep : List Char) (pieces : List (List Char)) :
    joinWith sep pieces = sep.intercalate pieces := by
  cases pieces with
  | nil => rfl
  | cons piece pieces =>
    induction pieces generalizing piece with
    | nil => rw [List.intercalate_singleton, joinWith]
    | cons next rest ih =>
      rw [List.intercalate_cons_cons, joinWith_cons_cons, ih, List.append_assoc]

theorem joinWith_concat {pieces : List (List Char)} (hne : pieces ≠ []) (sep last : List Char) :
    joinWith sep (pieces ++ [last]) = joinWith sep pieces ++ (sep ++ last) := by
  obtain ⟨piece, pieces, rfl⟩ := List.exists_cons_of_ne_nil hne
  rw [List.cons_append, joinWith_cons, joinWith_cons, List.flatMap_append, List.flatMap_singleton,
    List.append_assoc]

theorem splitOn_ne_nil (p : Char → Bool) (cs : List Char) : splitOn p cs ≠ [] := by
  rw [splitOn_eq_splitOnP]
  exact List.splitOnP_ne_nil p cs

theorem joinWith_splitOn (c : Char) (cs : List Char) :
    joinWith [c] (splitOn (· == c) cs) = cs := by
  rw [joinWith_eq_intercalate, splitOn_eq_splitOnP, ← List.splitOn_eq_splitOnP]
  exact List.intercalate_splitOn c

theorem splitOn_joinWith {c : Char} {pieces : List (List Char)} (h : ∀ piece ∈ pieces, c ∉ piece)
    (hne : pieces ≠ []) : splitOn (· == c) (joinWith [c] pieces) = pieces := by
  rw [joinWith_eq_intercalate, splitOn_eq_splitOnP, ← List.splitOn_eq_splitOnP]
  exact List.splitOn_intercalate c h hne

/-- A separator in the text parts its pieces. -/
theorem splitOn_append_cons {p : Char → Bool} {c : Char} (hc : p c) (cs ds : List Char) :
    splitOn p (cs ++ c :: ds) = splitOn p cs ++ splitOn p ds := by
  simp only [splitOn_eq_splitOnP]
  exact List.splitOnP_append_cons cs ds hc

theorem splitOn_eq_singleton {p : Char → Bool} {cs : List Char} (h : ∀ c ∈ cs, p c = false) :
    splitOn p cs = [cs] := by
  rw [splitOn_eq_splitOnP]
  exact List.splitOnP_eq_singleton h

theorem splitOn_cons_of_pos {p : Char → Bool} {c : Char} (hc : p c) (cs : List Char) :
    splitOn p (c :: cs) = [] :: splitOn p cs := if_pos hc

theorem splitOn_cons_of_neg {p : Char → Bool} {c : Char} {cs piece : List Char}
    {pieces : List (List Char)} (hc : ¬ p c) (hcs : splitOn p cs = piece :: pieces) :
    splitOn p (c :: cs) = (c :: piece) :: pieces := by
  rw [splitOn, if_neg hc, hcs]

/-- The characters of the pieces are those of the text other than separators. -/
theorem mem_of_mem_splitOn {p : Char → Bool} {piece cs : List Char} (h : piece ∈ splitOn p cs)
    {d : Char} (hd : d ∈ piece) : d ∈ cs ∧ p d = false := by
  induction cs generalizing piece with
  | nil =>
    cases List.mem_singleton.1 h
    cases hd
  | cons c cs ih =>
    by_cases hc : p c
    · rw [splitOn_cons_of_pos hc] at h
      rcases List.mem_cons.1 h with rfl | h
      · cases hd
      · exact (ih h hd).imp_left (List.mem_cons_of_mem c)
    · obtain ⟨first, pieces, hpieces⟩ := List.exists_cons_of_ne_nil (splitOn_ne_nil p cs)
      rw [splitOn_cons_of_neg hc hpieces] at h
      rw [hpieces] at ih
      rcases List.mem_cons.1 h with rfl | h
      · rcases List.mem_cons.1 hd with rfl | hd
        · exact ⟨List.mem_cons_self, by simpa using hc⟩
        · exact (ih List.mem_cons_self hd).imp_left (List.mem_cons_of_mem c)
      · exact (ih (List.mem_cons_of_mem _ h) hd).imp_left (List.mem_cons_of_mem c)

/-- Where two texts meet, the last piece of the first one goes on with the first
    piece of the second one. -/
theorem splitOn_append {p : Char → Bool} {cs ds last first : List Char}
    {before after : List (List Char)} (hcs : splitOn p cs = before ++ [last])
    (hds : splitOn p ds = first :: after) :
    splitOn p (cs ++ ds) = before ++ (last ++ first) :: after := by
  induction cs generalizing before last with
  | nil =>
    rw [splitOn, ← List.nil_append [[]]] at hcs
    obtain ⟨rfl, hlast⟩ := List.append_inj' hcs rfl
    cases hlast
    exact hds
  | cons c cs ih =>
    by_cases hc : p c
    · rw [splitOn_cons_of_pos hc] at hcs
      cases before with
      | nil => exact absurd (List.cons.inj hcs).2 (splitOn_ne_nil p cs)
      | cons piece before =>
        obtain ⟨rfl, hrest⟩ := List.cons.inj hcs
        rw [List.cons_append, splitOn_cons_of_pos hc, ih hrest, List.cons_append]
    · obtain ⟨piece, pieces, hpieces⟩ := List.exists_cons_of_ne_nil (splitOn_ne_nil p cs)
      rw [splitOn_cons_of_neg hc hpieces] at hcs
      -- the first character belongs to the first piece, which may be the last one of `cs`
      cases before with
      | nil =>
        cases hcs
        exact splitOn_cons_of_neg hc (@ih piece [] hpieces)
      | cons _ before =>
        cases hcs
        exact splitOn_cons_of_neg hc (@ih last (piece :: before) hpieces)

/-- The last piece ends as the text does, where it does not end with a separator. -/
theorem getLast?_of_splitOn {c d : Char} {cs last : List Char} {before : List (List Char)}
    (h : splitOn (· == c) cs = before ++ [last]) (hd : cs.getLast? = some d) (hne : d ≠ c) :
    last.getLast? = some d := by
  obtain ⟨front, rfl⟩ := List.getLast?_eq_some_iff.1 hd
  obtain ⟨before', last', hfront⟩ : ∃ before' last',
      splitOn (· == c) front = before' ++ [last'] :=
    (List.eq_nil_or_concat' (splitOn (· == c) front)).resolve_left (splitOn_ne_nil _ _)
  have hsingle : splitOn (· == c) [d] = [[d]] :=
    splitOn_eq_singleton (List.forall_mem_singleton.2 (beq_false_of_ne hne))
  rw [splitOn_append hfront hsingle] at h
  obtain ⟨-, hlast⟩ := List.append_inj' h rfl
  cases hlast
  exact List.getLast?_concat

/-- The first piece starts as the text does, where it does not start with a separator. -/
theorem head?_of_splitOn {c d : Char} {cs first : List Char} {after : List (List Char)}
    (h : splitOn (· == c) cs = first :: after) (hd : cs.head? = some d) (hne : d ≠ c) :
    first.head? = some d := by
  obtain ⟨rest, rfl⟩ := List.head?_eq_some_iff.1 hd
  obtain ⟨piece, pieces, hpieces⟩ := List.exists_cons_of_ne_nil (splitOn_ne_nil (· == c) rest)
  rw [splitOn_cons_of_neg (by simpa using hne) hpieces] at h
  cases h
  rfl

/-! ### Words, and replacing them -/

variable {word new cs ds before : List Char} {w c : Char}

/-- A word is not looked for where its first character is missing. -/
theorem isInfix_of_append (h : w ∉ before) (hword : w :: word <:+: before ++ cs) :
    w :: word <:+: cs := by
  rcases List.infix_append_iff.1 hword with hbefore | hcs | ⟨front, back, heq, hfront, hback⟩
  · exact absurd (hbefore.subset List.mem_cons_self) h
  · exact hcs
  · cases front with
    | nil =>
      rw [heq]
      exact hback.isInfix
    | cons d front =>
      cases heq
      exact absurd (hfront.subset List.mem_cons_self) h

theorem isPrefix_append_cons (hc : c ∉ word) (h : word <+: cs ++ c :: ds) : word <+: cs := by
  obtain ⟨rest, heq⟩ := h
  rcases List.append_eq_append_iff.1 heq with ⟨more, rfl, -⟩ | ⟨more, rfl, hmore⟩
  · exact List.prefix_append word more
  · cases more with
    | nil => exact ⟨[], by simp⟩
    | cons d more =>
      obtain ⟨rfl, -⟩ := List.cons.inj hmore
      exact absurd (by simp) hc

/-- A word without the separator lies on one side of it. -/
theorem isInfix_append_cons (hc : c ∉ word) (h : word <:+: cs ++ c :: ds) :
    word <:+: cs ∨ word <:+: ds := by
  induction cs with
  | nil =>
    refine (List.infix_cons_iff.1 h).imp (fun hstarts => ?_) id
    exact (@isPrefix_append_cons _ [] _ _ hc hstarts).isInfix
  | cons d cs ih =>
    rcases List.infix_cons_iff.1 h with hstarts | hinfix
    · exact .inl (@isPrefix_append_cons _ (d :: cs) _ _ hc hstarts).isInfix
    · exact (ih hinfix).imp_left (List.infix_cons ·)

/-- A word without the separator is in one of the pieces. -/
theorem exists_isInfix_of_joinWith {pieces : List (List Char)} (hne : word ≠ []) (hc : c ∉ word)
    (h : word <:+: joinWith [c] pieces) : ∃ piece ∈ pieces, word <:+: piece := by
  induction pieces with
  | nil => exact absurd (List.infix_nil.1 h) hne
  | cons piece pieces ih =>
    cases pieces with
    | nil => exact ⟨piece, List.mem_cons_self, h⟩
    | cons next rest =>
      rw [joinWith_cons_cons] at h
      rcases isInfix_append_cons hc h with hpiece | hrest
      · exact ⟨piece, List.mem_cons_self, hpiece⟩
      · obtain ⟨found, hfound, hword⟩ := ih hrest
        exact ⟨found, List.mem_cons_of_mem _ hfound, hword⟩

/-- What is still to be passed over is passed over. -/
theorem replaceFrom_length (word new before cs : List Char) :
    replaceFrom word new before.length (before ++ cs) = replaceFrom word new 0 cs := by
  induction before with
  | nil => rfl
  | cons d before ih => exact ih

theorem replaceFrom_word_append (hne : word ≠ []) (new cs : List Char) :
    replaceFrom word new 0 (word ++ cs) = new ++ replaceFrom word new 0 cs := by
  obtain ⟨w, ws, rfl⟩ := List.exists_cons_of_ne_nil hne
  rw [List.cons_append, replaceFrom, ← List.cons_append, if_pos]
  · exact congrArg (new ++ ·) (replaceFrom_length (w :: ws) new ws cs)
  · exact List.isPrefixOf_iff_prefix.2 (List.prefix_append _ _)

theorem replaceFrom_append_of_notMem (h : w ∉ before) (new cs : List Char) :
    replaceFrom (w :: word) new 0 (before ++ cs) = before ++ replaceFrom (w :: word) new 0 cs := by
  induction before with
  | nil => rfl
  | cons d before ih =>
    obtain ⟨hd, hbefore⟩ := not_or.1 (mt List.mem_cons.2 h)
    rw [List.cons_append, replaceFrom, if_neg, ih hbefore, List.cons_append]
    simpa [List.isPrefixOf] using fun h => absurd h hd

theorem replaceFrom_eq_self (h : ¬ word <:+: cs) : replaceFrom word new 0 cs = cs := by
  induction cs with
  | nil => rfl
  | cons d cs ih =>
    obtain ⟨hd, hcs⟩ := not_or.1 (mt List.infix_cons_iff.2 h)
    rw [replaceFrom, if_neg (mt List.isPrefixOf_iff_prefix.1 hd), ih hcs]

/-- Where a separator starts with a character that is in no piece, replacing the separator
    replaces it between the pieces only. -/
theorem replaceFrom_joinWith {pieces : List (List Char)} (h : ∀ piece ∈ pieces, w ∉ piece)
    (new : List Char) :
    replaceFrom (w :: word) new 0 (joinWith (w :: word) pieces) = joinWith new pieces := by
  induction pieces with
  | nil => rfl
  | cons piece pieces ih =>
    obtain ⟨hpiece, hpieces⟩ := List.forall_mem_cons.1 h
    cases pieces with
    | nil => exact (congrArg _ (List.append_nil piece).symm).trans <|
        (replaceFrom_append_of_notMem hpiece new []).trans (List.append_nil piece)
    | cons next rest =>
      rw [joinWith_cons_cons, joinWith_cons_cons, replaceFrom_append_of_notMem hpiece,
        replaceFrom_word_append (List.cons_ne_nil _ _), ih hpieces]

end Stencil.Text
