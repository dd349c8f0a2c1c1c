/-
  Stencil/Proofs/Body/BrokenLines.lean
  ====================================
  **Breaking a line of text makes no other tokens.**

  Behind white space the scanner has the text before it and the white space in its
  text, and goes on in the same way whatever that white space is.  So a space between
  two words of text can be a newline with blanks around it: the texts that are not in
  a token yet differ, but their lines join alike.
-/
import Stencil.Proofs.Body.JoinedLines
import Stencil.Proofs.Body.Places

namespace Stencil.Body

open Text (isBlank ne_of_isBlank)

/-- Texts, backwards, whose lines join alike, however both go on without carriage
    returns. -/
def JoinAlike (text text' : List Char) : Prop :=
  ∀ more, '\r' ∉ more → joinLines (text.reverse ++ more) = joinLines (text'.reverse ++ more)

theorem joining_joinAlike : Joining (· ≠ '\r') JoinAlike where
  nil := fun _ _ => rfl
  slash := by decide
  cons := by
    intro c text text' hc h more hmore
    rw [List.reverse_cons, List.reverse_cons, List.append_assoc, List.append_assoc]
    exact h _ (by simp [hmore, Ne.symm hc])
  join := fun {text text'} h => by simpa using h [] List.not_mem_nil

/-- The same text without carriage returns. -/
def SamePlain (text text' : List Char) : Prop := text = text' ∧ '\r' ∉ text

theorem joining_samePlain : Joining (· ≠ '\r') SamePlain where
  nil := ⟨rfl, List.not_mem_nil⟩
  slash := by decide
  cons := by
    rintro c text _ hc ⟨rfl, h⟩
    exact ⟨rfl, by simp [h, Ne.symm hc]⟩
  join := fun h => by rw [h.1]

namespace Scanner

variable {s s' : Scanner} {text : List Char}

/-- The scanner stands in text, and `text`, backwards, is what it has not put into a
    token; a slash may be left that could start a comment. -/
def Pends (s : Scanner) (text : List Char) : Prop :=
  s.mode = .text ∧ s.text = text ∨ s.mode = .slash ∧ '/' :: s.text = text

/-- The scanner stands behind white space in text. -/
structure BehindBlank (s : Scanner) (text : List Char) (tokens : List Placed) : Prop where
  mode : s.mode = .text
  boundary : s.boundary
  text : s.text = text
  tokens : s.tokens = tokens

theorem Pends.step_blank (h : s.Pends text) {c : Char} (hc : isBlank c) :
    ∃ s', s.step c = .ok s' ∧ s'.BehindBlank (c :: text) s.tokens := by
  have hslash : c ≠ '/' := ne_of_isBlank hc rfl
  have hstar : c ≠ '*' := ne_of_isBlank hc rfl
  obtain ⟨t, ht, htext, htokens⟩ : ∃ t : Scanner, s.stepChar c = t.stepText c ∧ t.text = text ∧
      t.tokens = s.tokens := by
    rcases h with ⟨hmode, htext⟩ | ⟨hmode, htext⟩
    · exact ⟨s, by rw [stepChar, hmode], htext, rfl⟩
    · refine ⟨s.addText '/', ?_, htext, rfl⟩
      rw [stepChar, hmode]
      exact (if_neg hstar).trans (if_neg hslash)
  refine ⟨_, by rw [step, ht, stepText_blank hc]; rfl, ?_⟩
  split <;> exact ⟨rfl, hc, congrArg (c :: ·) htext, htokens⟩

theorem BehindBlank.step_brace {tokens : List Placed} (h : s.BehindBlank text tokens) :
    s.step '\x7d' = .error ⟨.strayBrace, s.line⟩ := by
  rw [step, stepChar, h.mode]
  rfl

theorem BehindBlank.pends {tokens : List Placed} (h : s.BehindBlank text tokens) : s.Pends text :=
  .inl ⟨h.mode, h.text⟩

/-- Scanners with the same text have the same text to put into a token. -/
theorem Pends.of_alike {before before' : List Placed} (h : s.Pends text)
    (halike : s.Alike SamePlain before before' s') : s'.Pends text ∧ '\r' ∉ text := by
  obtain ⟨htext, hplain⟩ := halike.text
  have hmode := halike.mode
  rcases h with ⟨hs, rfl⟩ | ⟨hs, rfl⟩
  · rw [hs] at hmode
    generalize hs' : s'.mode = mode' at hmode
    cases hmode
    exact ⟨.inl ⟨hs', htext.symm⟩, hplain⟩
  · rw [hs] at hmode
    generalize hs' : s'.mode = mode' at hmode
    cases hmode
    exact ⟨.inr ⟨hs', htext ▸ rfl⟩, by simpa using hplain⟩

theorem Pends.run_blanks (h : s.Pends text) {c : Char} {cs : List Char}
    (hcs : ∀ d ∈ c :: cs, isBlank d) : ∃ s', (c :: cs).foldlM step s = .ok s' ∧
      s'.BehindBlank ((c :: cs).reverse ++ text) s.tokens := by
  induction cs generalizing c s text with
  | nil =>
    obtain ⟨s', hs', hbehind⟩ := h.step_blank (hcs c List.mem_cons_self)
    exact ⟨s', run_cons hs' [], hbehind⟩
  | cons d cs ih =>
    obtain ⟨hc, hcs⟩ := List.forall_mem_cons.1 hcs
    obtain ⟨mid, hmid, hbehind⟩ := h.step_blank hc
    obtain ⟨s', hs', hrest⟩ := ih hbehind.pends hcs
    refine ⟨s', (run_cons hmid _).trans hs', ?_⟩
    rw [List.reverse_cons, List.append_assoc, List.singleton_append, ← hbehind.tokens]
    exact hrest

/-- A character that opens no tag and no comment is taken for text. -/
theorem finish_run_cons (hmode : s.mode = .text) {c : Char} {rest : List Char}
    (hopen : c ≠ '\x7b') (hclose : c ≠ '\x7d') (hnewline : c ≠ '\n')
    (hcomment : c = '/' → ∀ d ∈ rest.head?, d ≠ '/' ∧ d ≠ '*') :
    (c :: rest).foldlM step s >>= finish = rest.foldlM step (s.addText c) >>= finish := by
  have hstep : s.step c = s.stepText c := by
    rw [step_eq_stepChar hnewline, stepChar, hmode]
  rw [stepText, if_neg hopen, if_neg hclose] at hstep
  by_cases hslash : c = '/' && s.boundary
  · -- the slash waits for the next character, and this makes no comment of it
    rw [if_pos hslash] at hstep
    have hc : c = '/' := of_decide_eq_true (Bool.and_eq_true_iff.1 hslash).1
    subst hc
    rw [run_cons hstep]
    cases rest with
    | nil => rfl
    | cons d rest =>
      obtain ⟨hslash, hstar⟩ := hcomment rfl d rfl
      have hnext : ({ s with mode := .slash } : Scanner).step d = (s.addText '/').step d := by
        rw [step, step, stepChar, stepChar]
        dsimp only
        rw [if_neg hstar, if_neg hslash]
        rfl
      rw [List.foldlM_cons, List.foldlM_cons, hnext]
  · rw [if_neg hslash] at hstep
    rw [run_cons hstep]

end Scanner

/-! ### The broken line -/

/-- The line is broken in text: before the break the scanner has the last word in its
    text, and what comes after it starts no tag and no comment. -/
structure LineBreak.InText (b : LineBreak) (s : Scanner) : Prop where
  ends : ∃ s' text, b.before.foldlM Scanner.step s = .ok s' ∧ s'.Pends text ∧
    text.head? = b.before.getLast?
  starts : b.after.head? ≠ some '\x7b'
  comment : ¬ ['/', '/'] <+: b.after ∧ ¬ ['/', '*'] <+: b.after

namespace LineBreak

variable {b : LineBreak} {s s' : Scanner} {before before' : List Placed}

/-- Where the words stand in the text so far, its lines join alike with the space and
    with the newline. -/
theorem joinAlike {text : List Char} (hlast : text.head? = b.before.getLast?)
    (hplain : '\r' ∉ text) {d : Char} (hd : b.after.head? = some d) :
    JoinAlike (d :: ' ' :: text) (d :: (b.pad.reverse ++ text)) := by
  intro more hmore
  obtain ⟨e, he, hblank, hne⟩ := b.starts
  cases hd.symm.trans he
  obtain ⟨rest, hrest⟩ := List.head?_eq_some_iff.1 hd
  have hreturn : '\r' ≠ d := by
    rintro rfl
    cases hblank
  let goesOn : LineBreak :=
    { before := text.reverse
      after := d :: more
      trail := b.trail
      indent := b.indent
      ends := by rw [List.getLast?_reverse, hlast]; exact b.ends
      starts := ⟨d, rfl, hblank, hne⟩
      plain := by simp [hplain, hmore, hreturn]
      blanks := b.blanks }
  have hjoin := goesOn.joinLines_broken
  simp only [broken, pad, whole, goesOn] at hjoin
  simpa [pad] using hjoin.symm

theorem plain_of_mem : (∀ c ∈ b.before, c ≠ '\r') ∧ ∀ c ∈ b.after, c ≠ '\r' := by
  have hplain := b.plain
  rw [List.mem_append, not_or] at hplain
  exact ⟨fun c hc heq => hplain.1 (heq ▸ hc), fun c hc heq => hplain.2 (heq ▸ hc)⟩

theorem InText.of_alike (h : b.InText s) (halike : s.Alike SamePlain before before' s') :
    b.InText s' := by
  obtain ⟨t, text, ht, hpends, hlast⟩ := h.ends
  have hrun := (halike.run joining_samePlain b.plain_of_mem.1).matches
  rw [ht] at hrun
  obtain ⟨t', ht', halike'⟩ := hrun.exists_ok
  exact ⟨⟨t', text, ht', (hpends.of_alike halike').1, hlast⟩, h.starts, h.comment⟩

/-- The text with the space and the text with the newline make the same tokens. -/
theorem matches_finish (h : b.InText s) (halike : s.Alike SamePlain before before' s') :
    Matches (Scanned.Alike before before') (b.whole.foldlM Scanner.step s >>= Scanner.finish)
      (b.broken.foldlM Scanner.step s' >>= Scanner.finish) := by
  obtain ⟨t, text, ht, hpends, hlast⟩ := h.ends
  obtain ⟨d, hd, hdblank, -⟩ := b.starts
  obtain ⟨rest, hrest⟩ := List.head?_eq_some_iff.1 hd
  obtain ⟨hbefore, hafter⟩ := b.plain_of_mem
  have hrun := (halike.run joining_samePlain hbefore).matches
  rw [ht] at hrun
  obtain ⟨t', ht', halike'⟩ := hrun.exists_ok
  obtain ⟨hpends', hplain⟩ := hpends.of_alike halike'
  -- both scanners come past the white space, and stand behind it with other texts
  obtain ⟨u, hu, hbehind⟩ := hpends.run_blanks (List.forall_mem_singleton.2 (show isBlank ' ' from rfl))
  obtain ⟨first, pad, hpad⟩ : ∃ first pad, b.pad = first :: pad :=
    List.exists_cons_of_ne_nil (List.append_ne_nil_of_right_ne_nil _ (List.cons_ne_nil _ _))
  obtain ⟨u', hu', hbehind'⟩ := hpends'.run_blanks fun c hc => b.isBlank_of_mem_pad (hpad ▸ hc)
  rw [← hpad] at hu' hbehind'
  have hwhole : b.whole.foldlM Scanner.step s = (d :: rest).foldlM Scanner.step u := by
    rw [whole, Scanner.run_append ht, ← List.singleton_append, Scanner.run_append hu, hrest]
  have hbroken : b.broken.foldlM Scanner.step s' = (d :: rest).foldlM Scanner.step u' := by
    rw [broken, Scanner.run_append ht', Scanner.run_append hu', hrest]
  rw [hwhole, hbroken]
  by_cases hclose : d = '\x7d'
  · subst hclose
    rw [List.foldlM_cons, List.foldlM_cons, hbehind.step_brace, hbehind'.step_brace]
    exact .error _ _
  · have hopen : d ≠ '\x7b' := by
      rintro rfl
      exact h.starts hd
    have hnewline : d ≠ '\n' := by
      rintro rfl
      cases hdblank
    have hcomment : d = '/' → ∀ c ∈ rest.head?, c ≠ '/' ∧ c ≠ '*' := by
      rintro rfl c hc
      obtain ⟨more, rfl⟩ := List.head?_eq_some_iff.1 hc
      refine ⟨?_, ?_⟩
      · rintro rfl
        exact h.comment.1 ⟨more, hrest.symm⟩
      · rintro rfl
        exact h.comment.2 ⟨more, hrest.symm⟩
    rw [Scanner.finish_run_cons hbehind.mode hopen hclose hnewline hcomment,
      Scanner.finish_run_cons hbehind'.mode hopen hclose hnewline hcomment]
    have hgo : (u.addText d).Alike JoinAlike before before' (u'.addText d) := by
      obtain ⟨new, new', hnew, hnew', htokens⟩ := halike'.tokens
      refine ⟨.text, fun _ => rfl, ?_, new, new', hbehind.tokens.trans hnew, hbehind'.tokens.trans hnew',
        htokens⟩
      rw [Scanner.addText, Scanner.addText, hbehind.text, hbehind'.text]
      exact b.joinAlike hlast hplain hd
    refine (hgo.run_finish joining_joinAlike fun c hc => ?_).matches
    exact hafter c (hrest ▸ List.mem_cons_of_mem d hc)

/-- A body makes the same tokens with the space and with the newline. -/
theorem matches_scan (h : b.InText {}) :
    Matches (fun done done' => done.tokens.map Placed.token = done'.tokens.map Placed.token)
      (scan b.whole) (scan b.broken) := by
  have hstart : Scanner.Alike SamePlain [] [] {} {} :=
    ⟨.text, fun _ => rfl, joining_samePlain.nil, [], [], rfl, rfl, rfl⟩
  refine Matches.imp (matches_finish h hstart) fun done done' hdone => ?_
  obtain ⟨new, new', hnew, hnew', htokens⟩ := hdone
  rw [hnew, hnew']
  exact htokens

/-- Behind a tag the text makes the same tokens with the space and with the newline. -/
theorem sameTokens (h : b.InText { boundary := false }) : SameTokens b.whole b.broken := by
  intro s s' hs hs'
  have hstart : ({ boundary := false } : Scanner).AfterTag := ⟨rfl, rfl, rfl⟩
  exact matches_finish (h.of_alike (hstart.alike hs joining_samePlain))
    (hs.alike hs' joining_samePlain)

end LineBreak

end Stencil.Body
