/-
  Stencil/Proofs/Json/ReadBack.lean
  =================================
  **The reader knows all JSON texts** (`readerConforms_read?`).

  However a character is spelled in a string, the reader takes it for itself, and
  wherever white space may stand the reader passes it over.  So it reads every
  text as the value that the text denotes, which is the only one
  (`Denotes.unique`).
-/
import Mathlib.Data.List.DropRight
import Stencil.Json.Reader
import Stencil.Proofs.Json.Grammar

namespace Stencil.Json

open Reader

/-! ### Strings -/

/-- What the reader makes of the text after some pieces. -/
def consPieces (pieces : List Piece) (read : List Piece × List Char) : List Piece × List Char :=
  (pieces ++ read.1, read.2)

theorem readPieces_short {letter c : Char} (h : (letter, c) ∈ shortEscapes) (cs : List Char) :
    readPieces ('\\' :: letter :: cs) = (readPieces cs).map (consPieces [.char c]) := by
  have hletter : ∀ e ∈ shortEscapes, e.1 ≠ 'u' ∧ shortEscape? e.1 = some e.2 := by decide
  obtain ⟨hu, hescape⟩ := hletter _ h
  rw [readPieces, hescape]
  · cases readPieces cs <;> rfl
  · intro a b c d rest heq
    exact absurd heq hu

theorem readPieces_unit {digits : List Char} {unit : Nat} (h : IsUnit digits unit)
    (cs : List Char) :
    readPieces ('\\' :: 'u' :: (digits ++ cs)) =
      (readPieces cs).map (consPieces [.unit unit]) := by
  obtain ⟨hlength, hvalue⟩ := h
  obtain ⟨a, b, c, d, rfl⟩ := List.length_eq_four.1 hlength
  change readPieces ('\\' :: 'u' :: a :: b :: c :: d :: cs) = _
  rw [readPieces, hvalue]
  cases readPieces cs <;> rfl

theorem readPieces_plain {c : Char} (hcontrol : 0x20 ≤ c.toNat) (hquote : c ≠ '"')
    (hslash : c ≠ '\\') (cs : List Char) :
    readPieces (c :: cs) = (readPieces cs).map (consPieces [.char c]) := by
  rw [readPieces]
  · rw [if_neg (by simp [hslash, Nat.not_lt.2 hcontrol])]
    cases readPieces cs <;> rfl
  · exact hquote
  · intro a b c d rest heq
    exact absurd heq hslash
  · intro d rest heq
    exact absurd heq hslash

/-- A unit that is no half of a surrogate pair makes a character of its own. -/
theorem decodePieces_unit {n : Nat} (hhigh : isHigh n = false) (hlow : isLow n = false)
    (pieces : List Piece) :
    decodePieces (.unit n :: pieces) = (decodePieces pieces).map (Char.ofNat n :: ·) := by
  cases pieces with
  | nil => simp [decodePieces, hhigh, hlow]
  | cons next pieces =>
    cases next with
    | unit value => rw [decodePieces, hhigh, hlow]; rfl
    | char c => rw [decodePieces, hhigh, hlow]; rfl; exact fun _ _ heq => (nomatch heq)

/-- No character is half of a surrogate pair. -/
theorem not_surrogate (c : Char) : isHigh c.toNat = false ∧ isLow c.toNat = false := by
  have hvalid : c.toNat < 0xD800 ∨ 0xDFFF < c.toNat ∧ c.toNat < 0x110000 := c.valid
  simp only [isHigh, isLow, Bool.and_eq_false_iff, decide_eq_false_iff_not]
  omega

/-- A spelling of a character is read as pieces that make the character. -/
theorem SpellsChar.exists_pieces {cs : List Char} {c : Char} (h : SpellsChar cs c) :
    ∃ pieces, (∀ rest, readPieces (cs ++ rest) = (readPieces rest).map (consPieces pieces)) ∧
      ∀ more, decodePieces (pieces ++ more) = (decodePieces more).map (c :: ·) := by
  cases h with
  | plain hcontrol hquote hslash =>
    exact ⟨[.char c], readPieces_plain hcontrol hquote hslash, fun _ => rfl⟩
  | short h => exact ⟨[.char c], readPieces_short h, fun _ => rfl⟩
  | unit h =>
    obtain ⟨hhigh, hlow⟩ := not_surrogate c
    refine ⟨[.unit c.toNat], readPieces_unit h, fun more => ?_⟩
    rw [List.singleton_append, decodePieces_unit hhigh hlow, c.ofNat_toNat]
  | @pair digits digits' high low _ hhigh hlow hhighRange hlowRange hc =>
    refine ⟨[.unit high, .unit low], fun rest => ?_, fun more => ?_⟩
    · simp only [List.cons_append, List.append_assoc]
      rw [readPieces_unit hhigh, readPieces_unit hlow]
      cases readPieces rest <;> rfl
    · have hpair : (isHigh high && isLow low) = true := by
        simp [isHigh, isLow, hhighRange, hlowRange]
      change decodePieces (.unit high :: .unit low :: more) = _
      rw [decodePieces, if_pos hpair, ← hc, c.ofNat_toNat]

/-- A spelling of a text is read as the text. -/
theorem SpellsText.readString {cs text : List Char} (h : SpellsText cs text) (rest : List Char) :
    readString (cs ++ '"' :: rest) = some (some (String.ofList text), rest) := by
  have hpieces : ∃ pieces, readPieces (cs ++ '"' :: rest) = some (pieces, rest) ∧
      decodePieces pieces = some text := by
    induction h with
    | nil => exact ⟨[], rfl, rfl⟩
    | cons hc _ ih =>
      obtain ⟨pieces, hread, hdecode⟩ := hc.exists_pieces
      obtain ⟨more, hmore, hdecodeMore⟩ := ih
      refine ⟨pieces ++ more, ?_, ?_⟩
      · rw [List.append_assoc, hread, hmore]
        rfl
      · rw [hdecode, hdecodeMore]
        rfl
  obtain ⟨pieces, hread, hdecode⟩ := hpieces
  rw [Reader.readString, hread, Option.map_some]
  dsimp only
  rw [hdecode, Option.map_some]

/-! ### White space -/

theorem skipSpace_cons {c : Char} (h : isSpace c = false) (cs : List Char) :
    skipSpace (c :: cs) = c :: cs := by
  rw [skipSpace, List.dropWhile_cons_of_neg (by rw [h]; decide)]

theorem Blank.skipSpace_append {before : List Char} (h : Blank before) (cs : List Char) :
    skipSpace (before ++ cs) = skipSpace cs := by
  induction before with
  | nil => rfl
  | cons c rest ih =>
    obtain ⟨hc, hrest⟩ := List.forall_mem_cons.1 h
    have hspace : isSpace c = true := by simpa [isSpace, or_assoc] using hc
    rw [← ih hrest, List.cons_append, skipSpace, List.dropWhile_cons_of_pos hspace]
    rfl

theorem skipSpace_skipSpace (cs : List Char) : skipSpace (skipSpace cs) = skipSpace cs :=
  List.dropWhile_idempotent ..

/-- White space before a value is passed over, and so is that before the items of an array and
    the members of an object. -/
theorem readValue_congr {n : Nat} {cs cs' : List Char} (h : skipSpace cs = skipSpace cs') :
    readValue n cs = readValue n cs' := by
  cases n with
  | zero => rfl
  | succ n => rw [readValue, readValue, h]

theorem readItems_congr {n : Nat} {cs cs' : List Char} (h : skipSpace cs = skipSpace cs') :
    readItems n cs = readItems n cs' := by
  cases n with
  | zero => rfl
  | succ n => rw [readItems, readItems, readValue_congr h]

theorem readMembers_congr {n : Nat} {cs cs' : List Char} (h : skipSpace cs = skipSpace cs') :
    readMembers n cs = readMembers n cs' := by
  cases n with
  | zero => rfl
  | succ n => rw [readMembers, readMembers, h]

/-! ### Values -/

/-- A text starts with a token, which closes no array. -/
theorem Denotes.exists_head {cs : List Char} {v : Json} (h : Denotes cs v) (rest : List Char) :
    ∃ c left, skipSpace (cs ++ rest) = c :: left ∧ c ≠ ']' := by
  match h with
  | .blank hbefore h hafter =>
    obtain ⟨c, left, hhead, hc⟩ := h.exists_head (_ ++ rest)
    refine ⟨c, left, ?_, hc⟩
    rw [List.append_assoc, List.append_assoc, hbefore.skipSpace_append, hhead]
  | .null => exact ⟨'n', _, rfl, by decide⟩
  | .true => exact ⟨'t', _, rfl, by decide⟩
  | .false => exact ⟨'f', _, rfl, by decide⟩
  | .str _ => exact ⟨'"', _, rfl, by decide⟩
  | .emptyArr _ | .arr _ => exact ⟨'[', _, rfl, by decide⟩
  | .emptyObj _ | .obj _ => exact ⟨'\x7b', _, rfl, by decide⟩

theorem DenotesItems.exists_head {cs : List Char} {items : List Json} (h : DenotesItems cs items)
    (rest : List Char) : ∃ c left, skipSpace (cs ++ rest) = c :: left ∧ c ≠ ']' := by
  cases h with
  | last h => exact h.exists_head rest
  | cons h hmore =>
    rw [List.append_assoc]
    exact h.exists_head _

theorem DenotesMember.exists_inside {cs : List Char} {member : Option String × Json}
    (h : DenotesMember cs member) (rest : List Char) :
    ∃ inside, skipSpace (cs ++ rest) = '"' :: inside := by
  cases h with
  | mk hbefore hname hafter h =>
    rw [List.append_assoc, hbefore.skipSpace_append]
    exact ⟨_, rfl⟩

theorem DenotesMembers.exists_inside {cs : List Char} {members : List (Option String × Json)}
    (h : DenotesMembers cs members) (rest : List Char) :
    ∃ inside, skipSpace (cs ++ rest) = '"' :: inside := by
  cases h with
  | last h => exact h.exists_inside rest
  | cons h hmore =>
    rw [List.append_assoc]
    exact h.exists_inside _

theorem readWord_append (word : String) (v : Json) (rest : List Char) :
    readWord word v (word.toList ++ rest) = some (v, rest) := by
  rw [readWord, Text.dropPrefix?_eq_some_iff.2 rfl, Option.map_some]

theorem readValue_bracket (n : Nat) (inside : List Char) :
    readValue (n + 1) ('[' :: inside) = match skipSpace inside with
      | ']' :: rest => some (.arr [], rest)
      | rest => (readItems n rest).map fun (items, rest) => (.arr items, rest) := by
  rw [readValue, skipSpace_cons (by decide)]
  rfl

/-- Where an array does not close at once, its items are read. -/
theorem readValue_array {n : Nat} {inside rest : List Char} {items : List Json}
    (hopen : ∀ rest, skipSpace inside ≠ ']' :: rest) (hitems : readItems n inside = some (items, rest)) :
    readValue (n + 1) ('[' :: inside) = some (.arr items, rest) := by
  rw [readValue_bracket]
  split
  · rename_i heq
    exact absurd heq (hopen _)
  · rw [readItems_congr (skipSpace_skipSpace inside), hitems]
    rfl

theorem readValue_brace (n : Nat) (inside : List Char) :
    readValue (n + 1) ('\x7b' :: inside) = match skipSpace inside with
      | '\x7d' :: rest => some (.obj [], rest)
      | rest => (readMembers n rest).map fun (members, rest) => (.obj members, rest) := by
  rw [readValue, skipSpace_cons (by decide)]
  rfl

/-- Where an object does not close at once, its members are read. -/
theorem readValue_object {n : Nat} {inside rest : List Char}
    {members : List (Option String × Json)} (hopen : ∀ rest, skipSpace inside ≠ '\x7d' :: rest)
    (hmembers : readMembers n inside = some (members, rest)) :
    readValue (n + 1) ('\x7b' :: inside) = some (.obj members, rest) := by
  rw [readValue_brace]
  split
  · rename_i heq
    exact absurd heq (hopen _)
  · rw [readMembers_congr (skipSpace_skipSpace inside), hmembers]
    rfl

-- The induction is on how the text denotes the value.  In two steps of the recursion the
-- reader takes a character, so the length of the text is fuel enough.  White space after a
-- value belongs to it in the grammar, but the reader leaves it.
mutual

theorem Denotes.reads : {cs : List Char} → {v : Json} → Denotes cs v → ∀ {n : Nat}
    (rest : List Char), cs.length < n →
      ∃ left, skipSpace left = skipSpace rest ∧ readValue n (cs ++ rest) = some (v, left)
  | _, _, @Denotes.blank before cs after v hbefore h hafter, n, rest, hn => by
    simp only [List.length_append] at hn
    obtain ⟨left, hleft, hread⟩ := h.reads (after ++ rest) (show cs.length < n by omega)
    refine ⟨left, hleft.trans (hafter.skipSpace_append rest), ?_⟩
    rw [List.append_assoc, List.append_assoc, readValue_congr (hbefore.skipSpace_append _), hread]
  | _, _, .null, n + 1, rest, _ => ⟨rest, rfl, readWord_append "null" null rest⟩
  | _, _, .true, n + 1, rest, _ => ⟨rest, rfl, readWord_append "true" (bool true) rest⟩
  | _, _, .false, n + 1, rest, _ => ⟨rest, rfl, readWord_append "false" (bool false) rest⟩
  | _, _, @Denotes.str cs text h, n + 1, rest, _ => by
    have hread : readValue (n + 1) ('"' :: (cs ++ '"' :: rest)) =
        (Reader.readString (cs ++ '"' :: rest)).map fun (text, rest) => (str text, rest) := by
      rw [readValue, skipSpace_cons (by decide)]
      rfl
    refine ⟨rest, rfl, ?_⟩
    rw [List.cons_append, List.cons_append, List.append_assoc, List.singleton_append, hread,
      h.readString]
    rfl
  | _, _, @Denotes.emptyArr cs h, n + 1, rest, _ => by
    have hclose : skipSpace (cs ++ ']' :: rest) = ']' :: rest := h.skipSpace_append _
    refine ⟨rest, rfl, ?_⟩
    rw [List.cons_append, List.cons_append, List.append_assoc, readValue_bracket]
    simp only [List.singleton_append, hclose]
  | _, _, @Denotes.arr cs items h, n + 1, rest, hn => by
    simp only [List.cons_append, List.length_cons, List.length_append, List.length_nil] at hn
    refine ⟨rest, rfl, ?_⟩
    rw [List.cons_append, List.cons_append, List.append_assoc]
    refine readValue_array (fun others heq => ?_) (h.reads (by omega) rfl)
    obtain ⟨c, left, hhead, hc⟩ := h.exists_head ([']'] ++ rest)
    rw [hhead] at heq
    exact hc (List.cons.inj heq).1
  | _, _, @Denotes.emptyObj cs h, n + 1, rest, _ => by
    have hclose : skipSpace (cs ++ '\x7d' :: rest) = '\x7d' :: rest := h.skipSpace_append _
    refine ⟨rest, rfl, ?_⟩
    rw [List.cons_append, List.cons_append, List.append_assoc, readValue_brace]
    simp only [List.singleton_append, hclose]
  | _, _, @Denotes.obj cs members h, n + 1, rest, hn => by
    simp only [List.cons_append, List.length_cons, List.length_append, List.length_nil] at hn
    refine ⟨rest, rfl, ?_⟩
    rw [List.cons_append, List.cons_append, List.append_assoc]
    refine readValue_object (fun others heq => ?_) (h.reads (by omega) rfl)
    obtain ⟨inside, hinside⟩ := h.exists_inside (['\x7d'] ++ rest)
    rw [hinside] at heq
    exact absurd (List.cons.inj heq).1 (by decide)

theorem DenotesItems.reads : {cs : List Char} → {items : List Json} → DenotesItems cs items →
    ∀ {n : Nat} {tail rest : List Char}, cs.length + 1 < n → skipSpace tail = ']' :: rest →
      readItems n (cs ++ tail) = some (items, rest)
  | cs, _, .last h, n + 1, tail, rest, hn, htail => by
    obtain ⟨left, hleft, hread⟩ := h.reads tail (show cs.length < n by omega)
    rw [readItems, hread]
    simp only [Option.bind_eq_bind, Option.bind_some, hleft, htail]
  | _, _, @DenotesItems.cons cs more v items h hmore, n + 1, tail, rest, hn, htail => by
    simp only [List.length_append, List.length_cons] at hn
    obtain ⟨left, hleft, hread⟩ := h.reads (',' :: (more ++ tail)) (show cs.length < n by omega)
    have hothers := hmore.reads (show more.length + 1 < n by omega) htail
    rw [List.append_assoc, List.cons_append, readItems, hread]
    simp only [Option.bind_eq_bind, Option.bind_some, hleft]
    rw [skipSpace_cons (by decide)]
    simp only [hothers, Option.bind_some]

/-- What follows a member decides whether there are more. -/
theorem DenotesMember.reads : {cs : List Char} → {member : Option String × Json} →
    DenotesMember cs member → ∀ {n : Nat} (tail : List Char), cs.length ≤ n →
      ∃ left, skipSpace left = skipSpace tail ∧ readMembers (n + 1) (cs ++ tail) =
        match skipSpace left with
        | ',' :: rest => do
          let (members, rest) ← readMembers n rest
          some (member :: members, rest)
        | '\x7d' :: rest => some ([member], rest)
        | _ => none
  | _, _, @DenotesMember.mk before name after cs text v hbefore hname hafter h, n, tail, hn => by
    simp only [List.length_append, List.length_cons] at hn
    obtain ⟨left, hleft, hread⟩ := h.reads tail (show cs.length < n by omega)
    have hquote : skipSpace (before ++ '"' :: (name ++ '"' :: (after ++ ':' :: (cs ++ tail)))) =
        '"' :: (name ++ '"' :: (after ++ ':' :: (cs ++ tail))) := hbefore.skipSpace_append _
    have hcolon : skipSpace (after ++ ':' :: (cs ++ tail)) = ':' :: (cs ++ tail) :=
      hafter.skipSpace_append _
    refine ⟨left, hleft, ?_⟩
    simp only [List.append_assoc, List.cons_append]
    rw [readMembers, hquote]
    simp only [Option.bind_eq_bind, hname.readString, Option.bind_some, hcolon]
    exact congrArg (Option.bind · _) hread

theorem DenotesMembers.reads : {cs : List Char} → {members : List (Option String × Json)} →
    DenotesMembers cs members → ∀ {n : Nat} {tail rest : List Char}, cs.length + 1 < n →
      skipSpace tail = '\x7d' :: rest → readMembers n (cs ++ tail) = some (members, rest)
  | cs, _, .last h, n + 1, tail, rest, hn, htail => by
    obtain ⟨left, hleft, hread⟩ := h.reads tail (show cs.length ≤ n by omega)
    rw [hread, hleft, htail]
    rfl
  | _, _, @DenotesMembers.cons cs more member members h hmore, n + 1, tail, rest, hn, htail => by
    simp only [List.length_append, List.length_cons] at hn
    obtain ⟨left, hleft, hread⟩ := h.reads (',' :: (more ++ tail)) (show cs.length ≤ n by omega)
    have hothers := hmore.reads (show more.length + 1 < n by omega) htail
    rw [List.append_assoc, List.cons_append, hread, hleft, skipSpace_cons (by decide)]
    simp only [hothers]
    rfl

end

/-- **The reader conforms.** -/
theorem readerConforms_read? : ReaderConforms read? := by
  intro text v h
  obtain ⟨left, hleft, hread⟩ :=
    h.reads [] (show text.toList.length < 2 * text.toList.length + 1 by omega)
  rw [List.append_nil] at hread
  rw [read?, hread]
  dsimp only
  rw [hleft]
  rfl

/-- A text denotes one value. -/
theorem Denotes.unique {cs : List Char} {v v' : Json} (h : Denotes cs v) (h' : Denotes cs v') :
    v = v' := by
  rw [← String.toList_ofList (l := cs)] at h h'
  exact Option.some.inj ((readerConforms_read? _ _ h).symm.trans (readerConforms_read? _ _ h'))

end Stencil.Json
