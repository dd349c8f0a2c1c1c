/-
  Stencil/Proofs/Body/Places.lean
  ===============================
  **Text reads the same wherever it stands after a tag.**

  Right after a tag the scanner has no text left over and takes no slash for the
  start of a comment.  From there on it makes the same tokens of the same text,
  on other lines.  The text that it has not put into a token may also differ, as
  long as its lines join alike however it goes on.
-/
import Stencil.Body.Scanner
import Stencil.Proofs.Outcome
import Stencil.Proofs.Text.Characters

namespace Stencil.Body

open Text (isBlank ne_of_isBlank)

/-- Modes that differ in lines only. -/
inductive Mode.Alike : Mode → Mode → Prop
  | text : Alike .text .text
  | slash : Alike .slash .slash
  | slashStar : Alike .slashStar .slashStar
  | slashStarStar : Alike .slashStarStar .slashStarStar
  | comment (line line' : Nat) (afterStar : Bool) :
      Alike (.comment line afterStar) (.comment line' afterStar)
  | lineComment : Alike .lineComment .lineComment
  | doc (line line' : Nat) (chars : List Char) : Alike (.doc line chars) (.doc line' chars)
  | command (line line' : Nat) (chars : List Char) (quoted : Option Quoted) :
      Alike (.command line chars quoted) (.command line' chars quoted)
  | literal (line line' : Nat) (chars : List Char) :
      Alike (.literal line chars) (.literal line' chars)

/-- A likeness of texts, backwards, under which their lines join alike and which stays
    when both go on with one character, a slash or one that has the property. -/
structure Joining (P : Char → Prop) (R : List Char → List Char → Prop) : Prop where
  nil : R [] []
  slash : P '/'
  cons : ∀ {c text text'}, P c → R text text' → R (c :: text) (c :: text')
  join : ∀ {text text'}, R text text' → joinLines text.reverse = joinLines text'.reverse

theorem joining_eq : Joining (fun _ => True) Eq where
  nil := rfl
  slash := trivial
  cons := fun _ h => congrArg _ h
  join := fun h => congrArg _ (congrArg _ h)

/-- Scanners that differ in lines and in the tokens of the text before only, and whose
    texts are like each other.  Only in text it matters whether a comment may start. -/
structure Scanner.Alike (R : List Char → List Char → Prop) (before before' : List Placed)
    (s s' : Scanner) : Prop where
  mode : s.mode.Alike s'.mode
  boundary : s.mode = .text → s.boundary = s'.boundary
  text : R s.text s'.text
  tokens : ∃ new new', s.tokens = new ++ before ∧ s'.tokens = new' ++ before' ∧
    new.map Placed.token = new'.map Placed.token

/-- Tokens that differ in lines and in those of the text before only. -/
def Scanned.Alike (before before' : List Placed) (done done' : Scanned) : Prop :=
  ∃ new new', done.tokens = before.reverse ++ new ∧ done'.tokens = before'.reverse ++ new' ∧
    new.map Placed.token = new'.map Placed.token

/-- Complaints that differ in their lines only. -/
def SameCause (fault fault' : Fault ScanCause) : Prop := fault.cause = fault'.cause

/-- The scanner right after a tag. -/
structure Scanner.AfterTag (s : Scanner) : Prop where
  mode : s.mode = .text
  boundary : s.boundary = false
  text : s.text = []

namespace Scanner.Alike

variable {P : Char → Prop} {R : List Char → List Char → Prop} {before before' : List Placed}
  {s s' : Scanner}

theorem withMode (h : s.Alike R before before' s') {mode mode' : Mode} (hmode : mode.Alike mode')
    (hne : mode ≠ .text) : Alike R before before' { s with mode } { s' with mode := mode' } :=
  ⟨hmode, fun heq => absurd heq hne, h.text, h.tokens⟩

theorem flush (h : s.Alike R before before' s') (hR : Joining P R) :
    s.flush.Alike R before before' s'.flush := by
  obtain ⟨new, new', hnew, hnew', htokens⟩ := h.tokens
  rw [Scanner.flush, Scanner.flush, hR.join h.text]
  split
  · exact ⟨h.mode, h.boundary, hR.nil, h.tokens⟩
  · refine ⟨h.mode, h.boundary, hR.nil, _ :: new, _ :: new', congrArg _ hnew, congrArg _ hnew', ?_⟩
    rw [List.map_cons, List.map_cons, htokens]

theorem emit (h : s.Alike R before before' s') (hR : Joining P R) (token : Token)
    (line line' : Nat) : (s.emit token line).Alike R before before' (s'.emit token line') := by
  obtain ⟨new, new', hnew, hnew', htokens⟩ := (h.flush hR).tokens
  refine ⟨.text, fun _ => rfl, (h.flush hR).text, ⟨token, line⟩ :: new, ⟨token, line'⟩ :: new',
    congrArg _ hnew, congrArg _ hnew', ?_⟩
  rw [List.map_cons, List.map_cons, htokens]

theorem addText (h : s.Alike R before before' s') (hR : Joining P R) {c : Char} (hc : P c) :
    (s.addText c).Alike R before before' (s'.addText c) :=
  ⟨.text, fun _ => rfl, hR.cons hc h.text, h.tokens⟩

theorem stepText (h : s.Alike R before before' s') (hR : Joining P R) {c : Char} (hc : P c)
    (hboundary : c = '/' → s.boundary = s'.boundary) :
    Tallies SameCause (Alike R before before') (s.stepText c) (s'.stepText c) := by
  have hslash : (c = '/' && s.boundary) = (c = '/' && s'.boundary) := by
    by_cases heq : c = '/'
    · rw [hboundary heq]
    · simp [heq]
  rw [Scanner.stepText, Scanner.stepText, hslash]
  split
  · exact .ok (h.withMode (.command _ _ _ _) nofun)
  · split
    · exact .error rfl
    · split
      · exact .ok (h.withMode .slash nofun)
      · exact .ok (h.addText hR hc)

theorem closeTag (h : s.Alike R before before' s') (hR : Joining P R) (line line' : Nat)
    (inside : List Char) :
    Tallies SameCause (Alike R before before') (s.closeTag line inside)
      (s'.closeTag line' inside) := by
  rw [Scanner.closeTag, Scanner.closeTag]
  split
  · exact .ok (h.withMode (.literal _ _ _) nofun)
  · cases tagToken inside with
    | error cause => exact .error rfl
    | ok token => exact .ok (h.emit hR token line line')

theorem stepCommand (h : s.Alike R before before' s') (hR : Joining P R) (line line' : Nat)
    (chars : List Char) (quoted : Option Quoted) (c : Char) :
    Tallies SameCause (Alike R before before') (s.stepCommand line chars quoted c)
      (s'.stepCommand line' chars quoted c) := by
  have hgoOn : ∀ quoted, Tallies SameCause (Alike R before before')
      (.ok { s with mode := .command line (c :: chars) quoted } : Except (Fault ScanCause) Scanner)
      (.ok { s' with mode := .command line' (c :: chars) quoted } :
        Except (Fault ScanCause) Scanner) :=
    fun quoted => .ok (h.withMode (.command _ _ _ _) nofun)
  rw [Scanner.stepCommand.eq_def, Scanner.stepCommand.eq_def]
  cases quoted with
  | none =>
    dsimp only
    split
    · exact h.closeTag hR line line' _
    · split
      · exact .error rfl
      · split <;> exact hgoOn _
  | some q =>
    dsimp only
    split
    · exact hgoOn _
    · split <;> exact hgoOn _

theorem stepChar (h : s.Alike R before before' s') (hR : Joining P R) {c : Char} (hc : P c) :
    Tallies SameCause (Alike R before before') (s.stepChar c) (s'.stepChar c) := by
  have hmode := h.mode
  have hboundary := h.boundary
  rw [Scanner.stepChar, Scanner.stepChar]
  generalize s.mode = mode, s'.mode = mode' at hmode hboundary
  cases hmode with
  | text => exact h.stepText hR hc fun _ => hboundary rfl
  | slash =>
    dsimp only
    split
    · exact .ok (h.withMode .slashStar nofun)
    · split
      · exact .ok (h.withMode .lineComment nofun)
      · exact (h.addText hR hR.slash).stepText hR hc fun _ => rfl
  | slashStar =>
    dsimp only
    split
    · exact .ok (h.withMode .slashStarStar nofun)
    · exact .ok (h.withMode (.comment _ _ _) nofun)
  | slashStarStar =>
    dsimp only
    split
    · exact .ok ⟨.text, fun _ => rfl, h.text, h.tokens⟩
    · exact .ok (h.withMode (.doc _ _ _) nofun)
  | comment line line' afterStar =>
    dsimp only
    split
    · exact .ok ⟨.text, fun _ => rfl, h.text, h.tokens⟩
    · exact .ok (h.withMode (.comment _ _ _) nofun)
  | lineComment =>
    dsimp only
    split
    · -- no comment starts with the newline that ends one
      rename_i hnewline
      subst hnewline
      exact .ok ⟨.text, fun _ => rfl, hR.cons hc h.text, h.tokens⟩
    · exact .ok h
  | doc line line' chars =>
    dsimp only
    split
    · exact .ok (h.emit hR _ line line')
    · exact .ok (h.withMode (.doc _ _ _) nofun)
  | command line line' chars quoted => exact h.stepCommand hR line line' chars quoted c
  | literal line line' chars =>
    dsimp only
    split
    · exact .ok (h.emit hR _ line line')
    · exact .ok (h.withMode (.literal _ _ _) nofun)

theorem newline (h : s.Alike R before before' s') (c : Char) :
    Alike R before before' (if c = '\n' then { s with line := s.line + 1 } else s)
      (if c = '\n' then { s' with line := s'.line + 1 } else s') := by
  split
  · exact ⟨h.mode, h.boundary, h.text, h.tokens⟩
  · exact h

theorem step (h : s.Alike R before before' s') (hR : Joining P R) {c : Char} (hc : P c) :
    Tallies SameCause (Alike R before before') (s.step c) (s'.step c) :=
  tallies_map (h.stepChar hR hc) fun _ _ hmid => hmid.newline c

theorem run (h : s.Alike R before before' s') (hR : Joining P R) {text : List Char}
    (htext : ∀ c ∈ text, P c) :
    Tallies SameCause (Alike R before before') (text.foldlM Scanner.step s)
      (text.foldlM Scanner.step s') :=
  tallies_foldlM (fun c hc _ _ hs => hs.step hR (htext c hc)) h

theorem finish (h : s.Alike R before before' s') (hR : Joining P R) :
    Tallies SameCause (Scanned.Alike before before') s.finish s'.finish := by
  have hdone : ∀ {s s' : Scanner}, s.Alike R before before' s' →
      Tallies SameCause (Scanned.Alike before before')
      (.ok ⟨s.flush.tokens.reverse, s.line⟩ : Except (Fault ScanCause) Scanned)
      (.ok ⟨s'.flush.tokens.reverse, s'.line⟩ : Except (Fault ScanCause) Scanned) := by
    intro s s' h
    obtain ⟨new, new', hnew, hnew', htokens⟩ := (h.flush hR).tokens
    refine .ok ⟨new.reverse, new'.reverse, ?_, ?_, ?_⟩
    · rw [hnew, List.reverse_append]
    · rw [hnew', List.reverse_append]
    · rw [List.map_reverse, List.map_reverse, htokens]
  have hmode := h.mode
  rw [Scanner.finish, Scanner.finish]
  generalize s.mode = mode, s'.mode = mode' at hmode
  cases hmode with
  | text => exact hdone h
  | slash => exact hdone (h.addText hR hR.slash)
  | lineComment => exact hdone h
  | _ => exact .error rfl

/-- The rest of a text makes the same tokens, or is complained about for the same cause. -/
theorem run_finish (h : s.Alike R before before' s') (hR : Joining P R) {text : List Char}
    (htext : ∀ c ∈ text, P c) :
    Tallies SameCause (Scanned.Alike before before') (text.foldlM Scanner.step s >>= Scanner.finish)
      (text.foldlM Scanner.step s' >>= Scanner.finish) :=
  tallies_bind (h.run hR htext) fun _ _ h => h.finish hR

end Scanner.Alike

/-- Right after a tag two scanners differ in their lines and the tokens before. -/
theorem Scanner.AfterTag.alike {P : Char → Prop} {R : List Char → List Char → Prop}
    {s s' : Scanner} (h : s.AfterTag) (h' : s'.AfterTag) (hR : Joining P R) :
    s.Alike R s.tokens s'.tokens s' := by
  refine ⟨?_, ?_, ?_, [], [], rfl, rfl, rfl⟩
  · rw [h.mode, h'.mode]
    exact .text
  · exact fun _ => h.boundary.trans h'.boundary.symm
  · rw [h.text, h'.text]
    exact hR.nil

/-- A step of a character that ends no line. -/
theorem Scanner.step_eq_stepChar {s : Scanner} {c : Char} (hc : c ≠ '\n') :
    s.step c = s.stepChar c := by
  simp only [step, if_neg hc]
  cases s.stepChar c <;> rfl

/-- White space in text is text. -/
theorem Scanner.stepText_blank {c : Char} (hc : isBlank c) (s : Scanner) :
    s.stepText c = .ok (s.addText c) := by
  have hopen : c ≠ '\x7b' := ne_of_isBlank hc rfl
  have hclose : c ≠ '\x7d' := ne_of_isBlank hc rfl
  have hslash : c ≠ '/' := ne_of_isBlank hc rfl
  rw [stepText, if_neg hopen, if_neg hclose, if_neg (by simp [hslash])]

theorem Scanner.run_cons {s s' : Scanner} {c : Char} (h : s.step c = .ok s') (cs : List Char) :
    (c :: cs).foldlM step s = cs.foldlM step s' := by
  rw [List.foldlM_cons, h]
  rfl

theorem Scanner.run_append {s s' : Scanner} {cs : List Char} (h : cs.foldlM step s = .ok s')
    (ds : List Char) : (cs ++ ds).foldlM step s = ds.foldlM step s' := by
  rw [List.foldlM_append, h]
  rfl

/-- The texts make the same tokens, whichever tags they stand behind. -/
def SameTokens (text text' : List Char) : Prop :=
  ∀ s s' : Scanner, s.AfterTag → s'.AfterTag → Matches (Scanned.Alike s.tokens s'.tokens)
    (text.foldlM Scanner.step s >>= Scanner.finish)
    (text'.foldlM Scanner.step s' >>= Scanner.finish)

theorem sameTokens_self (text : List Char) : SameTokens text text := fun _ _ hs hs' =>
  ((hs.alike hs' joining_eq).run_finish joining_eq fun _ _ => trivial).matches

end Stencil.Body
