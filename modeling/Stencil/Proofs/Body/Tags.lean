/-
  Stencil/Proofs/Body/Tags.lean
  =============================
  **Where a tag stands in the text of a body.**

  The scanner makes the token of a tag at the closing brace of the tag.  The text
  before the opening brace has the tokens before, and right after the closing
  brace the scanner has nothing left over.
-/
import Mathlib.Data.List.Induction
import Stencil.Proofs.Body.Places

namespace Stencil.Body

/-- The tokens that are tags, special texts and literal blocks aside. -/
def Token.isTag : Token → Bool
  | .command _ _ _ | .endTag _ => true
  | _ => false

namespace Scanner

variable {s s' : Scanner} {c : Char}

/-! ### Steps -/

/-- A step is the step of a character, the line aside. -/
theorem exists_stepChar (h : s.step c = .ok s') :
    ∃ mid line, s.stepChar c = .ok mid ∧ s' = { mid with line } := by
  obtain ⟨mid, hmid, rfl⟩ := map_eq_ok.1 h
  refine ⟨mid, if c = '\n' then mid.line + 1 else mid.line, hmid, ?_⟩
  split <;> rfl

theorem tokens_flush_eq (h : s'.text = s.text) (hline : s'.textLine = s.textLine)
    (htokens : s'.tokens = s.tokens) : s'.flush.tokens = s.flush.tokens := by
  rw [flush, flush, h]
  split
  · exact htokens
  · rw [hline, htokens]

/-- Flushing makes at most a token of text. -/
theorem tokens_flush (s : Scanner) : s.flush.tokens = s.tokens ∨
    ∃ chars line, s.flush.tokens = ⟨.text chars, line⟩ :: s.tokens := by
  rw [flush]
  split
  · exact .inl rfl
  · exact .inr ⟨_, _, rfl⟩

/-- A tag is being read. -/
def InTag (s : Scanner) : Prop := ∃ line chars quoted, s.mode = .command line chars quoted

/-- What a step does to the tokens: nothing, or it makes one of them, and if that
    is a tag the step was in the tag. -/
def Emits (s s' : Scanner) : Prop :=
  s'.tokens = s.tokens ∨ ∃ token line, s'.tokens = ⟨token, line⟩ :: s.flush.tokens ∧ s'.AfterTag ∧
    (token.isTag → s.InTag)

/-- A tag goes on, or it begins and the text before has the tokens so far. -/
def GoesOn (c : Char) (s s' : Scanner) : Prop :=
  s'.InTag → s.InTag ∧ s'.flush.tokens = s.flush.tokens ∨
    c = '\x7b' ∧ ∃ line, s.finish = .ok ⟨s'.flush.tokens.reverse, line⟩

theorem emits_emit {token : Token} {line : Nat} (h : token.isTag → s.InTag) :
    s.Emits (s.emit token line) :=
  .inr ⟨token, line, rfl, ⟨rfl, rfl, by rw [emit, flush]; split <;> rfl⟩, h⟩

theorem goesOn_of_mode {mode : Mode} (hmode : s'.mode = mode)
    (h : ∀ line chars quoted, mode ≠ .command line chars quoted) : GoesOn c s s' := by
  rintro ⟨line, chars, quoted, hcommand⟩
  exact absurd (hmode.symm.trans hcommand) (h line chars quoted)

/-- Text that is taken at `s₀`, the scanner `s` perhaps with a slash for text. -/
theorem takes_stepText {s₀ : Scanner} (htokens : s₀.tokens = s.tokens)
    (hfinish : ∃ line, s.finish = .ok ⟨s₀.flush.tokens.reverse, line⟩) :
    Ensures (fun s' => s.Emits s' ∧ GoesOn c s s') (s₀.stepText c) := by
  rw [stepText]
  split
  · rename_i hc
    have hflush : ({ s₀ with mode := .command s₀.line [] none } : Scanner).flush.tokens =
        s₀.flush.tokens := tokens_flush_eq rfl rfl rfl
    exact ensures_ok ⟨.inl htokens, fun _ => .inr ⟨hc, hflush ▸ hfinish⟩⟩
  · split
    · exact ensures_error _
    · split
      · exact ensures_ok ⟨.inl htokens, goesOn_of_mode rfl fun _ _ _ => Mode.noConfusion⟩
      · exact ensures_ok ⟨.inl htokens, goesOn_of_mode rfl fun _ _ _ => Mode.noConfusion⟩

theorem takes_stepCommand {line : Nat} {chars : List Char} {quoted : Option Quoted}
    (h : s.mode = .command line chars quoted) :
    Ensures (fun s' => s.Emits s' ∧ GoesOn c s s') (s.stepCommand line chars quoted c) := by
  have hin : s.InTag := ⟨line, chars, quoted, h⟩
  have hgoOn : ∀ quoted, Ensures (fun s' => s.Emits s' ∧ GoesOn c s s')
      (.ok { s with mode := .command line (c :: chars) quoted } : Except (Fault ScanCause) Scanner) :=
    fun quoted => ensures_ok ⟨.inl rfl, fun _ => .inl ⟨hin, tokens_flush_eq rfl rfl rfl⟩⟩
  rw [stepCommand.eq_def]
  cases quoted with
  | none =>
    dsimp only
    split
    · rw [closeTag]
      split
      · exact ensures_ok ⟨.inl rfl, goesOn_of_mode rfl fun _ _ _ => Mode.noConfusion⟩
      · split
        · refine ensures_ok ⟨emits_emit fun _ => hin, ?_⟩
          exact goesOn_of_mode rfl fun _ _ _ => Mode.noConfusion
        · exact ensures_error _
    · split
      · exact ensures_error _
      · split <;> exact hgoOn _
  | some q =>
    dsimp only
    split
    · exact hgoOn _
    · split <;> exact hgoOn _

theorem takes_stepChar : Ensures (fun s' => s.Emits s' ∧ GoesOn c s s') (s.stepChar c) := by
  have hmode : ∀ {s' : Scanner} {mode : Mode}, s'.tokens = s.tokens → s'.mode = mode →
      (∀ line chars quoted, mode ≠ .command line chars quoted) →
      Ensures (fun s' => s.Emits s' ∧ GoesOn c s s') (.ok s' : Except (Fault ScanCause) Scanner) :=
    fun htokens hmode h => ensures_ok ⟨.inl htokens, goesOn_of_mode hmode h⟩
  rw [stepChar]
  cases hs : s.mode with
  | text => exact takes_stepText rfl ⟨s.line, by rw [finish, hs]⟩
  | slash =>
    dsimp only
    split
    · exact hmode rfl rfl fun _ _ _ => Mode.noConfusion
    · split
      · exact hmode rfl rfl fun _ _ _ => Mode.noConfusion
      · exact takes_stepText rfl ⟨s.line, by rw [finish, hs]; rfl⟩
  | slashStar | slashStarStar | comment =>
    dsimp only
    split
    · exact hmode rfl rfl fun _ _ _ => Mode.noConfusion
    · exact hmode rfl rfl fun _ _ _ => Mode.noConfusion
  | lineComment =>
    dsimp only
    split
    · have hflush : ({ s with mode := .text } : Scanner).flush.tokens = s.flush.tokens :=
        tokens_flush_eq rfl rfl rfl
      refine takes_stepText rfl ⟨s.line, ?_⟩
      rw [finish, hs, hflush]
    · exact hmode rfl hs fun _ _ _ => Mode.noConfusion
  | doc line chars =>
    dsimp only
    split
    · refine ensures_ok ⟨emits_emit fun h => absurd h Bool.false_ne_true, ?_⟩
      exact goesOn_of_mode rfl fun _ _ _ => Mode.noConfusion
    · exact hmode rfl rfl fun _ _ _ => Mode.noConfusion
  | command line chars quoted => exact takes_stepCommand hs
  | literal line chars =>
    dsimp only
    split
    · refine ensures_ok ⟨emits_emit fun h => absurd h Bool.false_ne_true, ?_⟩
      exact goesOn_of_mode rfl fun _ _ _ => Mode.noConfusion
    · exact hmode rfl rfl fun _ _ _ => Mode.noConfusion

theorem takes_step : Ensures (fun s' => s.Emits s' ∧ GoesOn c s s') (s.step c) := by
  intro s' h
  obtain ⟨mid, line, hmid, rfl⟩ := exists_stepChar h
  obtain ⟨hemits, hgoes⟩ := takes_stepChar mid hmid
  refine ⟨?_, ?_⟩
  · rcases hemits with htokens | ⟨token, line', htokens, hafter, htag⟩
    · exact .inl htokens
    · exact .inr ⟨token, line', htokens, ⟨hafter.mode, hafter.boundary, hafter.text⟩, htag⟩
  · have hflush : ({ mid with line } : Scanner).flush.tokens = mid.flush.tokens :=
      tokens_flush_eq rfl rfl rfl
    intro hin
    rw [hflush]
    exact hgoes hin

/-! ### Runs -/

/-- The text that is taken before a tag began, if one is being read. -/
theorem exists_start_of_inTag {text : List Char} (hs : ¬ s.InTag)
    (h : text.foldlM step s = .ok s') (hin : s'.InTag) :
    ∃ before tag start line, text = before ++ '\x7b' :: tag ∧ before.foldlM step s = .ok start ∧
      start.finish = .ok ⟨s'.flush.tokens.reverse, line⟩ := by
  induction text using List.reverseRecOn generalizing s' with
  | nil =>
    cases h
    exact absurd hin hs
  | append_singleton text c ih =>
    rw [List.foldlM_append, bind_eq_ok] at h
    obtain ⟨mid, hmid, h⟩ := h
    have hstep : mid.step c = .ok s' := by
      simpa using h
    rcases (takes_step s' hstep).2 hin with ⟨hin', htokens⟩ | ⟨rfl, line, hfinish⟩
    · obtain ⟨before, tag, start, line, rfl, hstart, hfinish⟩ := ih hmid hin'
      exact ⟨before, tag ++ [c], start, line, by simp, hstart, by rw [htokens]; exact hfinish⟩
    · exact ⟨text, [], mid, line, rfl, hmid, hfinish⟩

/-- A tag whose token is `t` stands in a text that is taken from a scanner on, and
    the text before the tag makes the tokens `earlier`. -/
def TagIn (s : Scanner) (text : List Char) (earlier : List Placed) (t : Placed) : Prop :=
  ∃ before tag after start line fin, text = before ++ '\x7b' :: tag ++ after ∧
    before.foldlM step s = .ok start ∧ start.finish = .ok ⟨earlier, line⟩ ∧
    (before ++ '\x7b' :: tag).foldlM step s = .ok fin ∧ fin.AfterTag ∧
    fin.tokens = t :: earlier.reverse

theorem TagIn.append {text : List Char} {earlier : List Placed} {t : Placed}
    (h : s.TagIn text earlier t) (more : List Char) : s.TagIn (text ++ more) earlier t := by
  obtain ⟨before, tag, after, start, line, fin, rfl, hrest⟩ := h
  exact ⟨before, tag, after ++ more, start, line, fin, by simp, hrest⟩

theorem tagIn_of_run {text : List Char} (hs : ¬ s.InTag) (h : text.foldlM step s = .ok s')
    {t : Placed} {earlier later : List Placed} (htag : t.token.isTag)
    (htokens : s'.tokens = later ++ t :: earlier) (hnew : s.tokens.length ≤ earlier.length) :
    s.TagIn text earlier.reverse t := by
  -- tokens are made at their ends, so the text is taken apart from the right
  induction text using List.reverseRecOn generalizing s' later with
  | nil =>
    cases h
    have hlength := congrArg List.length htokens
    rw [List.length_append, List.length_cons] at hlength
    omega
  | append_singleton text c ih =>
    rw [List.foldlM_append, bind_eq_ok] at h
    obtain ⟨mid, hmid, h⟩ := h
    have hstep : mid.step c = .ok s' := by
      simpa using h
    rcases (takes_step s' hstep).1 with hsame | ⟨token, line, hemitted, hafter, hin⟩
    · exact (ih hmid (hsame ▸ htokens)).append [c]
    · rw [hemitted] at htokens
      cases later with
      | nil =>
        -- the step has made the token of the tag
        rw [List.nil_append, List.cons.injEq] at htokens
        obtain ⟨rfl, rfl⟩ := htokens
        obtain ⟨before, tag, start, line', rfl, hstart, hfinish⟩ :=
          exists_start_of_inTag hs hmid (hin htag)
        refine ⟨before, tag ++ [c], [], start, line', s', by simp, hstart, hfinish, ?_, hafter, ?_⟩
        · have htext : before ++ '\x7b' :: (tag ++ [c]) = (before ++ '\x7b' :: tag) ++ [c] := by simp
          rw [htext, List.foldlM_append, hmid]
          exact h
        · rw [hemitted, List.reverse_reverse]
      | cons first later =>
        rw [List.cons_append, List.cons.injEq] at htokens
        rcases mid.tokens_flush with hflush | ⟨chars, line', hflush⟩
        · exact (ih hmid (hflush.symm.trans htokens.2)).append [c]
        · rw [hflush] at htokens
          cases later with
          | nil =>
            obtain ⟨rfl, -⟩ := List.cons.injEq _ _ _ _ ▸ htokens.2
            cases htag
          | cons second later =>
            rw [List.cons_append, List.cons.injEq] at htokens
            exact (ih hmid htokens.2.2).append [c]

/-- Finishing makes at most a token of text. -/
theorem tokens_finish {done : Scanned} (h : s.finish = .ok done) :
    done.tokens.reverse = s.tokens ∨
      ∃ chars line, done.tokens.reverse = ⟨.text chars, line⟩ :: s.tokens := by
  have hdone : ∀ (s₀ : Scanner) {line : Nat}, s₀.tokens = s.tokens →
      (.ok ⟨s₀.flush.tokens.reverse, line⟩ : Except (Fault ScanCause) Scanned) = .ok done →
      done.tokens.reverse = s.tokens ∨
        ∃ chars line, done.tokens.reverse = ⟨.text chars, line⟩ :: s.tokens := by
    rintro s₀ line htokens ⟨⟩
    rw [List.reverse_reverse, ← htokens]
    exact s₀.tokens_flush
  rw [finish] at h
  split at h
  · exact hdone s rfl h
  · exact hdone (s.addText '/') rfl h
  · exact hdone s rfl h
  all_goals cases h

theorem tagIn_of_finish {text : List Char} (hs : ¬ s.InTag) (h : text.foldlM step s = .ok s')
    {t : Placed} {earlier later : List Placed} {line : Nat}
    (hfinish : s'.finish = .ok ⟨earlier ++ t :: later, line⟩) (htag : t.token.isTag)
    (hnew : s.tokens.length ≤ earlier.length) : s.TagIn text earlier t := by
  have hreverse : (earlier ++ t :: later).reverse = later.reverse ++ t :: earlier.reverse := by simp
  have hrun : ∀ {later : List Placed}, s'.tokens = later ++ t :: earlier.reverse →
      s.TagIn text earlier t := by
    intro later htokens
    have := tagIn_of_run hs h htag htokens (by rwa [List.length_reverse])
    rwa [List.reverse_reverse] at this
  rcases tokens_finish hfinish with htokens | ⟨chars, line', htokens⟩
  · exact hrun (htokens.symm.trans hreverse)
  · dsimp only at htokens
    rw [hreverse] at htokens
    cases hlater : later.reverse with
    | nil =>
      rw [hlater, List.nil_append, List.cons.injEq] at htokens
      rw [htokens.1] at htag
      cases htag
    | cons first rest =>
      rw [hlater, List.cons_append, List.cons.injEq] at htokens
      exact hrun htokens.2.symm

end Scanner

end Stencil.Body
