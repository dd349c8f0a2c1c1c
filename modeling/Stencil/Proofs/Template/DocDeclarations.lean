/-
  Stencil/Proofs/Template/DocDeclarations.lean
  ============================================
  **Doc declarations that are written are read back.**

  The reader looks for the keyword wherever it may stand, and a description goes on
  to the next declaration.  So a text that declares entries on lines of their own is
  read as these entries and no others, as long as the keyword is nowhere else in it
  (`entries_declaring`).  What the entries declare, and how they bound the syntax version,
  depends on nothing else (`read_declaring`).
-/
import Mathlib.Tactic.MkIffOfInductiveProp
import Stencil.Proofs.Text.Characters
import Stencil.Proofs.Text.Split
import Stencil.Proofs.Text.Trim
import Stencil.Template.DocComment

namespace Stencil.DocComment

open Text (allBlank isBlank isIdentifier trim trimEnd)

/-! ### Entries -/

/-- A declaration as its author means it: a word and its description, which may be
    empty. -/
structure Entry where
  optional : Bool
  word : List Char
  desc : List Char
deriving DecidableEq, Repr

/-- The word that makes a text a declaration. -/
def declWord : List Char := "@param".toList

namespace Entry

/-- What an entry may be: its word is one, its description is trimmed, and neither
    declares something itself. -/
@[mk_iff]
structure WellFormed (e : Entry) : Prop where
  word_ne_nil : e.word ≠ []
  word_solid : ∀ c ∈ e.word, isBlank c = false
  desc_trimmed : trim e.desc = e.desc
  word_free : ¬ declWord <:+: e.word
  desc_free : ¬ declWord <:+: e.desc

instance : DecidablePred WellFormed := fun e =>
  decidable_of_iff (e.word ≠ [] ∧ e.word.all (!isBlank ·) ∧ trim e.desc = e.desc ∧
    ¬ declWord <:+: e.word ∧ ¬ declWord <:+: e.desc) (by simp [wellFormed_iff])

def keyword (e : Entry) : List Char := if e.optional then declWord ++ ['?'] else declWord

/-- What stands after the word. -/
def tail (e : Entry) : List Char := if e.desc = [] then [] else ' ' :: e.desc

/-- An entry on a line of its own. -/
def text (e : Entry) : List Char := '\n' :: (e.keyword ++ ' ' :: (e.word ++ e.tail))

/-- The parameter that an entry declares if its word is an identifier. -/
def param (e : Entry) : Param :=
  { name := String.ofList e.word
    ty := .unknown
    typeText := none
    required := !e.optional
    desc := if e.desc = [] then none else some (String.ofList e.desc)
    source := .doc }

/-- An entry without its description, as it is shown. -/
def shown (e : Entry) : String := String.ofList e.keyword ++ " " ++ String.ofList e.word

end Entry

/-- A description of the template and entries after it. -/
def declaring (desc : List Char) (entries : List Entry) : List Char :=
  desc ++ entries.flatMap Entry.text

/-- The entry that a declaration was read from. -/
def Decl.entry (d : Decl) : Entry := ⟨d.optional, d.word, trim d.after⟩

/-- The entries of a text. -/
def entries (text : List Char) : List Entry := (splitDecls text).2.map Decl.entry

variable {cs free rest text word : List Char} {c : Char} {optional : Bool} {e : Entry}
  {es : List Entry}

/-! ### What is read of entries -/

theorem Decl.param_entry (d : Decl) : d.entry.param = d.toParam := by
  simp only [Entry.param, Decl.entry, Decl.toParam, Text.trim_eq_nil_iff]

theorem Decl.shown_entry (d : Decl) : d.entry.shown = d.shown := by
  obtain ⟨_ | _, word, after⟩ := d <;> rfl

theorem params_eq (text : List Char) :
    params text = ((entries text).filter fun e => isIdentifier e.word).map Entry.param := by
  rw [params, entries, List.filter_map, List.map_map]
  exact List.map_congr_left fun d _ => (Decl.param_entry d).symm

theorem shown_incorrect (text : List Char) : (incorrect text).map Decl.shown =
    ((entries text).filter fun e => !isIdentifier e.word).map Entry.shown := by
  rw [incorrect, entries, List.filter_map, List.map_map]
  exact List.map_congr_left fun d _ => (Decl.shown_entry d).symm

theorem exists_incorrect_iff {P : List Char → Prop} :
    (∃ d ∈ incorrect text, P d.word) ↔
      ∃ e ∈ entries text, isIdentifier e.word = false ∧ P e.word := by
  simp [incorrect, entries, Decl.entry, and_assoc]

theorem Decl.version_eq_v1_iff (d : Decl) :
    (d.version == .v1) = true ↔ d.word.head? ≠ some '\x7b' := by
  rw [Decl.version]
  split
  · rename_i heq
    rw [heq]
    exact iff_of_false (by decide) fun hne => hne rfl
  · rename_i hne
    refine iff_of_true (by decide) fun hhead => ?_
    obtain ⟨rest, hword⟩ := List.head?_eq_some_iff.1 hhead
    exact hne rest hword

/-- One entry whose word starts with no brace lowers the bound that the others put. -/
theorem version_bound? (text : List Char) :
    (bound? text).map VersionBound.version =
      if ∃ e ∈ entries text, isIdentifier e.word = false ∧ e.word.head? ≠ some '\x7b' then some .v1
      else if ∃ e ∈ entries text, isIdentifier e.word = false then some .v2
      else none := by
  have hv1 : (∃ e ∈ entries text, isIdentifier e.word = false ∧ e.word.head? ≠ some '\x7b') ↔
      (incorrect text).any (·.version == .v1) := by
    simp only [← @exists_incorrect_iff text (fun word => word.head? ≠ some '\x7b'),
      List.any_eq_true, Decl.version_eq_v1_iff]
  have hv2 : (∃ e ∈ entries text, isIdentifier e.word = false) ↔ incorrect text ≠ [] := by
    have hany := @exists_incorrect_iff text (fun _ => True)
    simp only [and_true] at hany
    rw [← hany]
    exact ⟨fun ⟨_, hd⟩ => List.ne_nil_of_mem hd, List.exists_mem_of_ne_nil _⟩
  simp only [hv1, hv2, bound?]
  cases incorrect text with
  | nil => rfl
  | cons d decls =>
    rw [if_pos (List.cons_ne_nil d decls)]
    exact apply_ite some _ _ _

/-! ### Where declarations start -/

theorem declAt?_eq_none (h : ¬ declWord <+: cs) : declAt? cs = none := by
  rw [declAt?]
  split
  · rfl
  · rename_i rest hrest
    exact absurd ⟨rest, (Text.dropPrefix?_eq_some_iff.1 hrest).symm⟩ h

theorem splitDecls_of_none (h : declAt? (c :: cs) = none) :
    splitDecls (c :: cs) = (splitDecls cs).map (c :: ·) id := by
  rw [splitDecls]
  split
  · rename_i heq
    rw [h] at heq
    cases heq
  · rfl

theorem splitDecls_of_some (h : declAt? cs = some (optional, word, rest)) :
    splitDecls cs = ([], ⟨optional, word, (splitDecls rest).1⟩ :: (splitDecls rest).2) := by
  cases cs with
  | nil => cases h
  | cons c cs =>
    rw [splitDecls]
    split
    · rename_i heq
      rw [h] at heq
      cases heq
      rfl
    · rename_i heq
      rw [h] at heq
      cases heq

/-- A text without the keyword declares nothing. -/
theorem splitDecls_free (h : ¬ declWord <:+: free) : splitDecls free = (free, []) := by
  induction free with
  | nil => rw [splitDecls]
  | cons c cs ih =>
    obtain ⟨hstarts, hcs⟩ := not_or.1 (mt List.infix_cons_iff.2 h)
    rw [splitDecls_of_none (declAt?_eq_none hstarts), ih hcs]
    rfl

/-- Neither does it where a line follows, which may. -/
theorem splitDecls_append_newline (h : ¬ declWord <:+: free) (rest : List Char) :
    splitDecls (free ++ '\n' :: rest) =
      (splitDecls rest).map (free ++ '\n' :: ·) id := by
  induction free with
  | nil =>
    have hnewline : ¬ declWord <+: '\n' :: rest := fun hstarts =>
      absurd (List.cons_prefix_cons.1 hstarts).1 (by decide)
    rw [List.nil_append, splitDecls_of_none (declAt?_eq_none hnewline)]
    rfl
  | cons c cs ih =>
    obtain ⟨hstarts, hcs⟩ := not_or.1 (mt List.infix_cons_iff.2 h)
    have hnone : ¬ declWord <+: c :: cs ++ '\n' :: rest := fun hword =>
      hstarts (Text.isPrefix_append_cons (by decide) hword)
    rw [List.cons_append] at hnone ⊢
    rw [splitDecls_of_none (declAt?_eq_none hnone), ih hcs]
    rfl

/-! ### Entries that are written -/

/-- The keyword, a space and a word declare the word. -/
theorem declAt?_keyword (hne : e.word ≠ []) (hword : ∀ c ∈ e.word, isBlank c = false)
    (hrest : ∀ c ∈ rest.head?, isBlank c) :
    declAt? (e.keyword ++ ' ' :: (e.word ++ rest)) = some (e.optional, e.word, rest) := by
  have hkeyword : ∃ after, Text.dropPrefix? declWord (e.keyword ++ ' ' :: (e.word ++ rest)) =
      some after ∧ optionalMark after = (e.optional, ' ' :: (e.word ++ rest)) := by
    obtain ⟨_ | _, word, desc⟩ := e
    · exact ⟨_, Text.dropPrefix?_eq_some_iff.2 rfl, rfl⟩
    · exact ⟨_, Text.dropPrefix?_eq_some_iff.2 rfl, rfl⟩
  obtain ⟨after, hdrop, hmark⟩ := hkeyword
  have hspace : (' ' :: (e.word ++ rest)).dropWhile isBlank = e.word ++ rest := by
    obtain ⟨c, cs, hcons⟩ := List.exists_cons_of_ne_nil hne
    rw [hcons] at hword ⊢
    exact Text.trimStart_append Text.isBlank_of_mem_space rfl (hword c List.mem_cons_self)
  have hsolid : ∀ c ∈ e.word, (!isBlank c) = true := fun c hc => by simp [hword c hc]
  have hend : ∀ c ∈ rest.head?, (!isBlank c) = false := fun c hc => by simp [hrest c hc]
  rw [declAt?, show "@param".toList = declWord from rfl, hdrop]
  simp only [hmark, hspace, Text.takeWhile_append hsolid hend, Text.dropWhile_append hsolid hend]
  simp [hne]

theorem Entry.isBlank_of_head?_tail (e : Entry) (es : List Entry) :
    ∀ c ∈ (e.tail ++ es.flatMap Entry.text).head?, isBlank c := by
  rw [Entry.tail]
  split
  · cases es with
    | nil => simp
    | cons e es =>
      rintro _ ⟨⟩
      rfl
  · rintro _ ⟨⟩
    rfl

theorem Entry.WellFormed.tail_free (h : e.WellFormed) : ¬ declWord <:+: e.tail := by
  rw [Entry.tail]
  split
  · decide
  · intro hword
    exact h.desc_free (@Text.isInfix_of_append _ _ [' '] _ (by decide) hword)

theorem Entry.WellFormed.trim_tail (h : e.WellFormed) (hrest : ∀ c ∈ rest, isBlank c) :
    trim (e.tail ++ rest) = e.desc := by
  rw [Text.trim_append_blanks hrest, Entry.tail]
  split
  · rename_i hdesc
    rw [hdesc]
    rfl
  · exact h.desc_trimmed

theorem splitDecls_text (h : e.WellFormed) (es : List Entry) :
    splitDecls (e.keyword ++ ' ' :: (e.word ++ declaring e.tail es)) =
      ([], ⟨e.optional, e.word, (splitDecls (declaring e.tail es)).1⟩ ::
        (splitDecls (declaring e.tail es)).2) :=
  splitDecls_of_some (declAt?_keyword h.word_ne_nil h.word_solid (e.isBlank_of_head?_tail es))

theorem declaring_cons (desc : List Char) (e : Entry) (es : List Entry) :
    declaring desc (e :: es) =
      desc ++ '\n' :: (e.keyword ++ ' ' :: (e.word ++ declaring e.tail es)) := by
  simp [declaring, Entry.text]

/-- A text is read as the entries that it declares and, up to white space, the
    description before them. -/
theorem entries_declaring {desc : List Char} (hdesc : ¬ declWord <:+: desc)
    (h : ∀ e ∈ es, e.WellFormed) :
    entries (declaring desc es) = es ∧
      ∃ space, (splitDecls (declaring desc es)).1 = desc ++ space ∧ ∀ c ∈ space, isBlank c := by
  induction es generalizing desc with
  | nil =>
    rw [declaring, List.flatMap_nil, List.append_nil, entries, splitDecls_free hdesc]
    exact ⟨rfl, [], (List.append_nil desc).symm, List.forall_mem_nil _⟩
  | cons e es ih =>
    obtain ⟨he, hes⟩ := List.forall_mem_cons.1 h
    obtain ⟨hentries, space, hbefore, hspace⟩ := ih he.tail_free hes
    rw [entries, declaring_cons, splitDecls_append_newline hdesc, splitDecls_text he]
    refine ⟨?_, ['\n'], rfl, List.forall_mem_singleton.2 rfl⟩
    rw [Prod.map_snd, id, List.map_cons, ← entries, hentries, Decl.entry, hbefore,
      he.trim_tail hspace]

/-- What a text declares: its summary, the parameters of the entries whose word is an
    identifier, the other entries as they are shown, and the bound that these put on
    the syntax version. -/
theorem read_declaring {desc : List Char} (hdesc : ¬ declWord <:+: desc)
    (h : ∀ e ∈ es, e.WellFormed) :
    summary (declaring desc es) = trimEnd desc ∧
    params (declaring desc es) =
      (es.filter fun e => isIdentifier e.word).map Entry.param ∧
    (incorrect (declaring desc es)).map Decl.shown =
      (es.filter fun e => !isIdentifier e.word).map Entry.shown ∧
    (bound? (declaring desc es)).map VersionBound.version =
      if ∃ e ∈ es, isIdentifier e.word = false ∧ e.word.head? ≠ some '\x7b' then some .v1
      else if ∃ e ∈ es, isIdentifier e.word = false then some .v2
      else none := by
  obtain ⟨hentries, space, hbefore, hspace⟩ := entries_declaring hdesc h
  refine ⟨?_, ?_, ?_, ?_⟩
  · rw [summary, hbefore]
    exact Text.dropEndWhile_append_of_pos hspace desc
  · rw [params_eq, hentries]
  · rw [shown_incorrect, hentries]
  · rw [version_bound?, hentries]

/-- A text with declarations of all kinds. -/
def titleDoc : List Char :=
  ("Greets @para ms.\n\t\n@param name The\n  name.\n@param? \x7bint\x7d count" ++
    "\n@param? title\n@param 9lives @par am?").toList

/-- A word in braces bounds the version at 2.0, and one that starts with a digit at 1.0
    whatever comes before it.  A description may have the keyword with a gap in it. -/
theorem read_declaring_title :
    summary titleDoc = "Greets @para ms.".toList ∧
    params titleDoc = [⟨"name", .unknown, none, true, some "The\n  name.", .doc⟩,
      ⟨"title", .unknown, none, false, none, .doc⟩] ∧
    (incorrect titleDoc).map Decl.shown = ["@param? \x7bint\x7d", "@param 9lives"] ∧
    (bound? titleDoc).map VersionBound.version = some .v1 := by
  have hdesc : ¬ declWord <:+: "Greets @para ms.\n\t".toList := by decide
  have h : ∀ e ∈ ([⟨false, "name".toList, "The\n  name.".toList⟩,
      ⟨true, "\x7bint\x7d".toList, "count".toList⟩, ⟨true, "title".toList, []⟩,
      ⟨false, "9lives".toList, "@par am?".toList⟩] : List Entry), e.WellFormed := by
    decide
  exact read_declaring hdesc h

end Stencil.DocComment
