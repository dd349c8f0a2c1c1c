/-
  Stencil/Proofs/Body/Comments.lean
  =================================
  **Comments leave no trace in a body.**

  A comment behind white space in text leaves the scanner as it was, but for the line
  and for where a further comment may start (`Scanner.run_blockComment`,
  `Scanner.run_lineComment`).  What stands behind it can tell neither, unless it starts
  with a slash: so the body splits into the same tokens with the comment and without it,
  and is complained about for the same cause (`tokens_comment`).
-/
import Stencil.Proofs.Body.Places

namespace Stencil.Body

open Text (isBlank ne_of_isBlank)

/-- What a body splits into, the lines aside. -/
def tokens (body : List Char) : Except ScanCause (List Token) :=
  ((scan body).map fun done => done.tokens.map Placed.token).mapError Fault.cause

/-- A comment in stars that is no doc comment and ends at its first end mark. -/
inductive IsBlockComment : List Char → Prop
  | intro {chars : List Char} : ¬ "*/".toList <:+: chars → chars.head? ≠ some '*' →
      IsBlockComment ("/*".toList ++ chars ++ "*/".toList)

/-- A comment up to the end of its line. -/
inductive IsLineComment : List Char → Prop
  | intro {chars : List Char} : '\n' ∉ chars → IsLineComment ("//".toList ++ chars)

/-- Behind the text the scanner stands in text: no tag, block or comment is open. -/
def EndsInText (before : List Char) : Prop :=
  ∃ s, before.foldlM Scanner.step {} = .ok s ∧ s.mode = .text

theorem tokens_eq_of_tallies {body body' : List Char} {before before' : List Placed}
    (hbefore : before.map Placed.token = before'.map Placed.token)
    (h : Tallies SameCause (Scanned.Alike before before') (scan body) (scan body')) :
    tokens body = tokens body' := by
  unfold tokens
  generalize scan body = x, scan body' = y at h
  cases h with
  | error hcause => exact congrArg Except.error hcause
  | ok halike =>
    obtain ⟨new, new', hnew, hnew', htokens⟩ := halike
    refine congrArg Except.ok ?_
    simp only [hnew, hnew', List.map_append, List.map_reverse, hbefore, htokens]

namespace Scanner

variable {s s' : Scanner}

/-- The scanner goes on to what a character makes of it, on some line. -/
theorem exists_step {c : Char} (h : s.stepChar c = .ok s') :
    ∃ line, s.step c = .ok { s' with line } := by
  unfold step
  rw [h]
  by_cases hc : c = '\n'
  · exact ⟨s'.line + 1, congrArg Except.ok (if_pos hc)⟩
  · exact ⟨s'.line, congrArg Except.ok (if_neg hc)⟩

/-! ### White space before the comment -/

/-- White space that leaves the scanner in text stands in text, or ends a comment. -/
theorem stepChar_blank {c : Char} (hc : isBlank c) (h : s.stepChar c = .ok s')
    (hmode : s'.mode = .text) : s'.boundary := by
  have hopen : c ≠ '\x7b' := ne_of_isBlank hc rfl
  have hclose : c ≠ '\x7d' := ne_of_isBlank hc rfl
  have hslash : c ≠ '/' := ne_of_isBlank hc rfl
  have hstar : c ≠ '*' := ne_of_isBlank hc rfl
  unfold stepChar at h
  cases hs : s.mode with
  | text =>
    rw [hs, stepText_blank hc] at h
    cases h
    exact hc
  | slash =>
    simp only [hs, if_neg hstar, if_neg hslash, stepText_blank hc] at h
    cases h
    exact hc
  | lineComment =>
    simp only [hs, stepText_blank hc] at h
    split at h
    · cases h
      exact hc
    · cases h
      exact absurd (hs.symm.trans hmode) nofun
  | command line chars quoted =>
    -- a command goes on behind white space, inside quotes and outside
    simp only [hs, stepCommand.eq_def] at h
    cases quoted with
    | none =>
      simp only [if_neg hclose, if_neg hopen] at h
      split at h <;> cases h <;> cases hmode
    | some q =>
      dsimp only at h
      split at h
      · cases h
        cases hmode
      · split at h <;> cases h <;> cases hmode
  | literal line chars =>
    simp only [hs] at h
    split at h
    · exact absurd rfl hclose
    · cases h
      cases hmode
  | _ =>
    simp only [hs, if_neg hstar, if_neg hslash, decide_eq_false hslash,
      beq_eq_false_iff_ne.2 hslash, Bool.and_false, Bool.false_and] at h
    cases h
    cases hmode

theorem boundary_of_run {before : List Char} {blank : Char} (hblank : isBlank blank)
    (h : (before ++ [blank]).foldlM step {} = .ok s) (hmode : s.mode = .text) : s.boundary := by
  rw [List.foldlM_append, bind_eq_ok] at h
  obtain ⟨mid, -, hlast⟩ := h
  obtain ⟨t, hstep, hnil⟩ := bind_eq_ok.1 hlast
  cases hnil
  obtain ⟨u, hu, rfl⟩ := map_eq_ok.1 hstep
  by_cases hnewline : blank = '\n'
  · rw [if_pos hnewline] at hmode ⊢
    have hboundary : u.boundary := stepChar_blank hblank hu hmode
    exact hboundary
  · rw [if_neg hnewline] at hmode ⊢
    exact stepChar_blank hblank hu hmode

/-! ### The inside of the comment -/

/-- A comment stays open as long as its end mark does not come. -/
theorem run_comment {opening : Nat} {afterStar : Bool} {chars : List Char}
    (hmode : s.mode = .comment opening afterStar) (hend : ¬ "*/".toList <:+: chars)
    (hslash : afterStar → chars.head? ≠ some '/') :
    ∃ line afterStar, chars.foldlM step s =
      .ok { s with mode := .comment opening afterStar, line } := by
  induction chars generalizing s afterStar with
  | nil =>
    obtain ⟨mode, line, boundary, text, textLine, tokens⟩ := s
    cases hmode
    exact ⟨line, afterStar, rfl⟩
  | cons c cs ih =>
    have hstep : s.stepChar c = .ok { s with mode := .comment opening (c == '*') } := by
      rw [stepChar, hmode]
      refine if_neg fun hclose => ?_
      obtain ⟨hafter, hc⟩ := Bool.and_eq_true_iff.1 hclose
      exact hslash hafter (congrArg some (eq_of_beq hc))
    obtain ⟨line, hline⟩ := exists_step hstep
    have hrest : ¬ "*/".toList <:+: cs := fun h => hend (h.trans (List.suffix_cons c cs).isInfix)
    have hnext : c == '*' → cs.head? ≠ some '/' := by
      intro hstar hhead
      obtain ⟨rest, rfl⟩ := List.head?_eq_some_iff.1 hhead
      rw [eq_of_beq hstar] at hend
      exact hend ⟨[], rest, rfl⟩
    rw [run_cons hline]
    exact ih rfl hrest hnext

/-- A comment starts behind white space with a slash. -/
theorem step_slash (hmode : s.mode = .text) (hboundary : s.boundary) :
    s.step '/' = .ok { s with mode := .slash } := by
  rw [step_eq_stepChar (by decide), stepChar, hmode]
  simp [stepText, hboundary]

/-- A comment in stars leaves the scanner in text, where no further one starts. -/
theorem run_blockComment {comment : List Char} (hcomment : IsBlockComment comment)
    (hmode : s.mode = .text) (hboundary : s.boundary) :
    ∃ line, comment.foldlM step s = .ok { s with mode := .text, boundary := false, line } := by
  cases hcomment with
  | @intro chars hend hdoc =>
    have hopened : "/*".toList.foldlM step s = .ok { s with mode := .slashStar } :=
      run_cons (step_slash hmode hboundary) ['*']
    rw [List.append_assoc, run_append hopened]
    cases chars with
    | nil => exact ⟨s.line, rfl⟩
    | cons c cs =>
      have hstep : ({ s with mode := .slashStar } : Scanner).stepChar c =
          .ok { s with mode := .comment s.line false } :=
        if_neg fun hc => hdoc (congrArg some hc)
      obtain ⟨line, hline⟩ := exists_step hstep
      have hrest : ¬ "*/".toList <:+: cs := fun h => hend (h.trans (List.suffix_cons c cs).isInfix)
      obtain ⟨endLine, afterStar, hinside⟩ :=
        run_comment (s := { s with mode := .comment s.line false, line }) rfl hrest nofun
      rw [List.cons_append, run_cons hline, run_append hinside]
      cases afterStar with
      | false => exact ⟨endLine, rfl⟩
      | true => exact ⟨endLine, rfl⟩

/-- A comment up to the end of its line leaves everything else to what comes then. -/
theorem run_lineComment {comment : List Char} (hcomment : IsLineComment comment)
    (hmode : s.mode = .text) (hboundary : s.boundary) :
    comment.foldlM step s = .ok { s with mode := .lineComment } := by
  cases hcomment with
  | @intro chars hline =>
    have hopened : "//".toList.foldlM step s = .ok { s with mode := .lineComment } :=
      run_cons (step_slash hmode hboundary) ['/']
    rw [run_append hopened]
    induction chars with
    | nil => rfl
    | cons c cs ih =>
      rw [List.mem_cons, not_or] at hline
      have hstep : ({ s with mode := .lineComment } : Scanner).step c =
          .ok { s with mode := .lineComment } := by
        rw [step_eq_stepChar (Ne.symm hline.1)]
        exact if_neg (Ne.symm hline.1)
      rw [run_cons hstep]
      exact ih hline.2

/-! ### What stands behind the comment -/

/-- At the end of a body text and a line comment come to the same. -/
theorem finish_lineComment (hmode : s.mode = .text) :
    ({ s with mode := .lineComment } : Scanner).finish = s.finish := by
  unfold finish flush
  simp only [hmode]
  split <;> rfl

/-- Where the body ends or the line does, text goes on as if there were no comment. -/
theorem run_finish_lineComment (hmode : s.mode = .text) {after : List Char}
    (hafter : ∀ c ∈ after.head?, c = '\n') :
    after.foldlM step { s with mode := .lineComment } >>= finish =
      after.foldlM step s >>= finish := by
  cases after with
  | nil => exact finish_lineComment hmode
  | cons c cs =>
    have hc : c = '\n' := hafter c rfl
    have hstep : ({ s with mode := .lineComment } : Scanner).step c = s.step c := by
      rw [step, step, stepChar, stepChar, hmode]
      exact congrArg (Except.map _) (if_pos hc)
    rw [List.foldlM_cons, List.foldlM_cons, hstep]

/-- Only a slash can tell whether a comment may start. -/
theorem run_finish_boundary (hmode : s.mode = .text) {after : List Char}
    (hafter : after.head? ≠ some '/') (line : Nat) :
    Tallies SameCause (Scanned.Alike s.tokens s.tokens)
      (after.foldlM step { s with mode := .text, boundary := false, line } >>= finish)
      (after.foldlM step s >>= finish) := by
  -- the two are alike once they are no longer in text
  have halike : Alike Eq s.tokens s.tokens
      { s with mode := .lineComment, boundary := false, line } { s with mode := .lineComment } :=
    ⟨.lineComment, nofun, rfl, [], [], rfl, rfl, rfl⟩
  cases after with
  | nil =>
    change Tallies SameCause _ (finish { s with mode := .text, boundary := false, line }) s.finish
    rw [← finish_lineComment hmode,
      ← finish_lineComment (s := { s with mode := .text, boundary := false, line }) rfl]
    exact halike.finish joining_eq
  | cons c cs =>
    have hc : c = '/' → false = s.boundary := fun h => absurd (congrArg some h) hafter
    have hstep := tallies_map (halike.stepText joining_eq trivial hc)
      fun _ _ hmid => hmid.newline c
    rw [List.foldlM_cons, List.foldlM_cons, bind_assoc, bind_assoc]
    have htext : s.stepChar c = s.stepText c := by rw [stepChar, hmode]
    rw [step, step, htext]
    refine tallies_bind hstep fun mid mid' hmid => ?_
    exact hmid.run_finish joining_eq fun _ _ => trivial

end Scanner

/-- Behind white space in text a comment makes no difference to what a body splits
    into, or to why it does not. -/
theorem tokens_comment {before after : List Char} {blank : Char} (hblank : isBlank blank)
    (hends : EndsInText (before ++ [blank])) :
    (∀ comment, IsBlockComment comment → after.head? ≠ some '/' →
      tokens (before ++ blank :: (comment ++ after)) = tokens (before ++ blank :: after)) ∧
    ∀ comment, IsLineComment comment → (∀ c ∈ after.head?, c = '\n') →
      tokens (before ++ blank :: (comment ++ after)) = tokens (before ++ blank :: after) := by
  obtain ⟨s, hs, hmode⟩ := hends
  have hboundary : s.boundary := Scanner.boundary_of_run hblank hs hmode
  have hscan : ∀ rest, scan (before ++ blank :: rest) =
      rest.foldlM Scanner.step s >>= Scanner.finish := fun rest => by
    rw [scan, List.append_cons, Scanner.run_append hs]
  constructor
  · intro comment hcomment hafter
    obtain ⟨line, hrun⟩ := Scanner.run_blockComment hcomment hmode hboundary
    apply tokens_eq_of_tallies rfl
    rw [hscan, hscan, Scanner.run_append hrun]
    exact Scanner.run_finish_boundary hmode hafter line
  · intro comment hcomment hafter
    unfold tokens
    rw [hscan, hscan, Scanner.run_append (Scanner.run_lineComment hcomment hmode hboundary),
      Scanner.run_finish_lineComment hmode hafter]

theorem tokens_comment_address :
    tokens ("http://a".toList ++ ' ' :: ("/*".toList ++ "\x7b *".toList ++ "*/".toList ++
      "b".toList)) = .ok [.text "http://a b".toList] ∧
    tokens ("http://a".toList ++ ' ' :: ("//".toList ++ " \x7d*/".toList ++
      "\n\x7bnil\x7db".toList)) =
      .ok [.text "http://a".toList, .literal [], .text "b".toList] := by
  have hends : EndsInText ("http://a".toList ++ [' ']) := ⟨_, rfl, rfl⟩
  have hblock : IsBlockComment ("/*".toList ++ "\x7b *".toList ++ "*/".toList) :=
    .intro (by decide +kernel) (by decide +kernel)
  have hline : IsLineComment ("//".toList ++ " \x7d*/".toList) := .intro (by decide +kernel)
  constructor
  · exact ((tokens_comment rfl hends).1 _ hblock (by simp)).trans (by decide +kernel)
  · exact ((tokens_comment rfl hends).2 _ hline (by simp)).trans (by decide +kernel)

end Stencil.Body
