/-
  Stencil/Proofs/Body/CommandText.lean
  ====================================
  **Command texts that are written are read back.**

  A command text is written as a head and attributes with white space before each.
  The head must not look like the start of an attribute where the reader looks for
  one, at the words outside single quotes (`IsHead`); a backslash does not matter to
  the quotes.  Then the reader gives the head and the attributes, or complains of the
  first attribute whose name was there before (`read_written`).
-/
import Mathlib.Algebra.Group.Nat.Even
import Mathlib.Algebra.Ring.Parity
import Stencil.Body.CommandText
import Stencil.Proofs.Text.Characters
import Stencil.Proofs.Text.Trim

namespace Stencil.Body.CommandText

open Text (isBlank trim trimStart)

/-! ### How command texts are written -/

/-- A letter and then letters, digits, underscores and dashes. -/
def IsAttrName : List Char → Prop
  | [] => False
  | c :: cs => c.isAlpha ∧ ∀ d ∈ cs, isAttrPart d

/-- A text starts as an attribute does. -/
def StartsAttr (cs : List Char) : Prop :=
  ∃ name rest, IsAttrName name ∧ cs = name ++ '=' :: '"' :: rest

/-- An attribute seems to start between two parts of a text: the second part starts
    as one, at the start of a word outside single quotes. -/
def AttrAt (before after : List Char) : Prop :=
  Even (before.count '\'') ∧ (∀ c ∈ before.getLast?, isBlank c) ∧ StartsAttr after

/-- A text that can stand before attributes: its single quotes are balanced, and no
    attribute seems to start in it. -/
structure IsHead (head : List Char) : Prop where
  balanced : Even (head.count '\'')
  free : ∀ before after, head = before ++ after → ¬ AttrAt before after

/-- Attributes as they are written, each after some white space, perhaps with more of
    it at the end.  A value ends at the first double quote. -/
inductive Written : List (String × String) → List Char → Prop
  | nil {space : List Char} (hspace : ∀ c ∈ space, isBlank c) : Written [] space
  | cons {space text : List Char} {name value : String} {attrs : List (String × String)}
      (hne : space ≠ []) (hspace : ∀ c ∈ space, isBlank c) (hname : IsAttrName name.toList)
      (hvalue : '"' ∉ value.toList) (h : Written attrs text) :
      Written ((name, value) :: attrs)
        (space ++ (name.toList ++ '=' :: '"' :: (value.toList ++ '"' :: text)))

variable {name cs head space text rest : List Char} {attrs seen : List (String × String)} {c : Char}

/-! ### Attributes -/

theorem isAttrPart_of_isAttrName (h : IsAttrName name) : ∀ c ∈ name, isAttrPart c := by
  cases name with
  | nil => exact h.elim
  | cons c cs =>
    refine List.forall_mem_cons.2 ⟨?_, h.2⟩
    simp [isAttrPart, Char.isAlphanum, h.1]

theorem exists_cons_of_isAttrName (h : IsAttrName name) : ∃ c cs, name = c :: cs := by
  cases name with
  | nil => exact h.elim
  | cons c cs => exact ⟨c, cs, rfl⟩

theorem isBlank_eq_false_of_isAttrPart (h : isAttrPart c) : isBlank c = false := by
  simp only [isAttrPart, Bool.or_eq_true, beq_iff_eq] at h
  rcases h with (h | rfl) | rfl
  · exact Text.isBlank_eq_false_of_isNamePart (by simp [Text.isNamePart, h])
  · decide
  · decide

theorem takeWhile_isAttrPart (h : ∀ c ∈ name, isAttrPart c) (rest : List Char) :
    (name ++ '=' :: rest).takeWhile isAttrPart = name := by
  rw [List.takeWhile_append_of_pos h, List.takeWhile_cons_of_neg (by decide), List.append_nil]

theorem dropWhile_isAttrPart (h : ∀ c ∈ name, isAttrPart c) (rest : List Char) :
    (name ++ '=' :: rest).dropWhile isAttrPart = '=' :: rest := by
  rw [List.dropWhile_append_of_pos h, List.dropWhile_cons_of_neg (by decide)]

/-- An attribute that is written is read. -/
theorem readAttr_written {name value : String} (hname : IsAttrName name.toList)
    (hvalue : '"' ∉ value.toList) (rest : List Char) :
    readAttr (name.toList ++ '=' :: '"' :: (value.toList ++ '"' :: rest)) =
      .ok ((name, value), rest) := by
  have hparts := isAttrPart_of_isAttrName hname
  have hcut : Text.cut? (· == '"') (value.toList ++ '"' :: rest) = some (value.toList, rest) := by
    refine Text.cut?_eq_some_iff.2 ⟨'"', rfl, fun d hd => beq_false_of_ne ?_, rfl⟩
    rintro rfl
    exact hvalue hd
  obtain ⟨c, cs, hcons⟩ := exists_cons_of_isAttrName hname
  rw [readAttr, takeWhile_isAttrPart hparts, dropWhile_isAttrPart hparts, hcons]
  simp only [hcut]
  rw [← hcons, String.ofList_toList, String.ofList_toList]

/-- The attributes so far with one more, unless its name is among them. -/
def addAttr (seen : List (String × String)) (attr : String × String) :
    Except CommandTextCause (List (String × String)) :=
  if seen.any (·.1 == attr.1) then .error (.duplicateAttr attr.1) else .ok (seen ++ [attr])

theorem readAttrs_of_blank (h : ∀ c ∈ cs, isBlank c) : readAttrs seen cs = .ok seen := by
  have htrim : trimStart cs = [] := List.dropWhile_eq_nil_iff.2 h
  rw [readAttrs]
  split
  · rfl
  · rename_i heq
    rw [htrim] at heq
    cases heq

theorem readAttrs_of_readAttr {attr : String × String} (htrim : trimStart cs = c :: text)
    (hread : readAttr (c :: text) = .ok (attr, rest)) :
    readAttrs seen cs = addAttr seen attr >>= (readAttrs · rest) := by
  rw [readAttrs]
  split
  · rename_i heq
    rw [htrim] at heq
    cases heq
  · rename_i heq
    rw [htrim] at heq
    cases heq
    split
    · rename_i h
      rw [hread] at h
      cases h
    · rename_i h
      rw [hread] at h
      cases h
      rw [addAttr]
      split <;> rfl

/-- Reading on at an attribute that is written adds it. -/
theorem readAttrs_attr {name value : String} (hspace : ∀ c ∈ space, isBlank c)
    (hname : IsAttrName name.toList) (hvalue : '"' ∉ value.toList) (seen : List (String × String))
    (text : List Char) :
    readAttrs seen (space ++ (name.toList ++ '=' :: '"' :: (value.toList ++ '"' :: text))) =
      addAttr seen (name, value) >>= (readAttrs · text) := by
  have hattr := readAttr_written hname hvalue text
  obtain ⟨c, cs, hcons⟩ := exists_cons_of_isAttrName hname
  have hblank : isBlank c = false :=
    isBlank_eq_false_of_isAttrPart (isAttrPart_of_isAttrName hname c (by simp [hcons]))
  have htrim : trimStart (space ++ (name.toList ++ '=' :: '"' :: (value.toList ++ '"' :: text))) =
      name.toList ++ '=' :: '"' :: (value.toList ++ '"' :: text) :=
    Text.trimStart_append hspace (by rw [hcons]; rfl) hblank
  rw [hcons, List.cons_append] at htrim hattr
  rw [hcons, List.cons_append, readAttrs_of_readAttr htrim hattr]

/-- Reading attributes that are written adds them one after the other. -/
theorem readAttrs_written (h : Written attrs text) (seen : List (String × String)) :
    readAttrs seen text = attrs.foldlM addAttr seen := by
  induction h generalizing seen with
  | nil hspace => exact readAttrs_of_blank hspace
  | cons _ hspace hname hvalue _ ih =>
    rw [readAttrs_attr hspace hname hvalue, List.foldlM_cons]
    exact congrArg _ (funext ih)

/-! ### Names that are repeated -/

theorem addAttr_of_notMem {attr : String × String} (h : attr.1 ∉ seen.map Prod.fst) :
    addAttr seen attr = .ok (seen ++ [attr]) := by
  refine if_neg fun hany => h ?_
  obtain ⟨found, hfound, heq⟩ := List.any_eq_true.1 hany
  exact List.mem_map.2 ⟨found, hfound, eq_of_beq heq⟩

theorem addAttr_of_mem {attr : String × String} (h : attr.1 ∈ seen.map Prod.fst) :
    addAttr seen attr = .error (.duplicateAttr attr.1) := by
  obtain ⟨found, hfound, heq⟩ := List.mem_map.1 h
  exact if_pos (List.any_eq_true.2 ⟨found, hfound, by simpa using heq⟩)

theorem foldlM_addAttr_of_nodup (h : ((seen ++ attrs).map Prod.fst).Nodup) :
    attrs.foldlM addAttr seen = .ok (seen ++ attrs) := by
  induction attrs generalizing seen with
  | nil =>
    rw [List.append_nil]
    rfl
  | cons attr attrs ih =>
    rw [List.append_cons] at h ⊢
    have hseen : ((seen ++ [attr]).map Prod.fst).Nodup :=
      h.sublist ((List.sublist_append_left _ _).map _)
    have hnew : attr.1 ∉ seen.map Prod.fst := by
      rw [List.map_append] at hseen
      exact fun hmem => (List.nodup_append.1 hseen).2.2 _ hmem _ List.mem_cons_self rfl
    rw [List.foldlM_cons, addAttr_of_notMem hnew]
    exact ih h

/-- The first attribute whose name was there before ends the reading. -/
theorem foldlM_addAttr_of_mem {before after : List (String × String)} {attr : String × String}
    (h : (before.map Prod.fst).Nodup) (hmem : attr.1 ∈ before.map Prod.fst) :
    (before ++ attr :: after).foldlM addAttr [] = .error (.duplicateAttr attr.1) := by
  rw [List.foldlM_append, foldlM_addAttr_of_nodup (by simpa using h), List.nil_append]
  change (attr :: after).foldlM addAttr before = _
  rw [List.foldlM_cons, addAttr_of_mem hmem]
  rfl

/-- Where names are repeated, there is a first one that was there before. -/
theorem exists_first_repeated (h : ¬ (attrs.map Prod.fst).Nodup) :
    ∃ before attr after, attrs = before ++ attr :: after ∧ (before.map Prod.fst).Nodup ∧
      attr.1 ∈ before.map Prod.fst := by
  induction attrs using List.reverseRecOn with
  | nil => exact absurd List.nodup_nil h
  | append_singleton front last ih =>
    by_cases hfront : (front.map Prod.fst).Nodup
    · refine ⟨front, last, [], rfl, hfront, ?_⟩
      by_contra hnew
      refine h ?_
      rw [List.map_append]
      refine List.nodup_append.2 ⟨hfront, List.pairwise_singleton _ _, fun name hname _ hlast => ?_⟩
      cases List.mem_singleton.1 hlast
      exact ne_of_mem_of_not_mem hname hnew
    · obtain ⟨before, attr, after, rfl, hbefore, hmem⟩ := ih hfront
      exact ⟨before, attr, after ++ [last], by simp, hbefore, hmem⟩

/-! ### Heads -/

theorem attrAhead_iff (c : Char) (cs : List Char) :
    (c.isAlpha && attrAhead (c :: cs)) = true ↔ StartsAttr (c :: cs) := by
  rw [Bool.and_eq_true]
  constructor
  · rintro ⟨halpha, hahead⟩
    obtain ⟨rest, hrest⟩ := List.isPrefixOf_iff_prefix.1 hahead
    have hpart : isAttrPart c := by simp [isAttrPart, Char.isAlphanum, halpha]
    refine ⟨c :: cs.takeWhile isAttrPart, rest, ⟨halpha, fun d hd => ?_⟩, ?_⟩
    · exact List.mem_takeWhile_imp hd
    · rw [List.dropWhile_cons_of_pos hpart] at hrest
      exact congrArg (c :: ·) ((congrArg _ hrest).trans List.takeWhile_append_dropWhile).symm
  · rintro ⟨name, rest, hname, heq⟩
    obtain ⟨d, ds, rfl⟩ := exists_cons_of_isAttrName hname
    refine ⟨(List.cons.inj heq).1 ▸ hname.1, ?_⟩
    rw [attrAhead, heq, dropWhile_isAttrPart (isAttrPart_of_isAttrName hname)]
    exact List.isPrefixOf_iff_prefix.2 ⟨rest, rfl⟩

/-- What looks like an attribute has its name and `="` before any white space. -/
theorem StartsAttr.of_append (h : StartsAttr (cs ++ rest)) (hblank : ∀ c ∈ rest.head?, isBlank c) :
    StartsAttr cs := by
  obtain ⟨name, after, hname, heq⟩ := h
  have hword : ∀ c ∈ name ++ ['=', '"'], isBlank c = false := by
    refine List.forall_mem_append.2 ⟨fun c hc => ?_, ?_⟩
    · exact isBlank_eq_false_of_isAttrPart (isAttrPart_of_isAttrName hname c hc)
    · exact List.forall_mem_cons.2 ⟨rfl, List.forall_mem_singleton.2 rfl⟩
  have hsplit : (name ++ ['=', '"']) ++ after = cs ++ rest := by
    rw [heq, List.append_assoc]
    rfl
  rcases List.append_eq_append_iff.1 hsplit with ⟨more, rfl, -⟩ | ⟨more, hmore, rfl⟩
  · exact ⟨name, more, hname, by simp⟩
  · cases more with
    | nil => exact ⟨name, [], hname, by simpa using hmore.symm⟩
    | cons c more =>
      have hc := hword c (by simp [hmore])
      rw [hblank c rfl] at hc
      cases hc

theorem not_startsAttr_of_blank (h : ∀ c ∈ cs.head?, isBlank c) : ¬ StartsAttr cs := by
  intro hcs
  obtain ⟨name, after, hname, heq⟩ := @StartsAttr.of_append [] cs hcs h
  simp at heq

/-- The quotes and the start of a word that the search for attributes looks at after a text. -/
def stateAfter (before : List Char) : Bool × Bool :=
  (!decide (Even (before.count '\'')), before.getLast?.all isBlank)

theorem stateAfter_concat (before : List Char) (c : Char) :
    stateAfter (before ++ [c]) = ((stateAfter before).1 != (c == '\''), isBlank c) := by
  refine Prod.ext ?_ (by simp [stateAfter])
  by_cases hc : c = '\''
  · simp [stateAfter, hc, Nat.even_add_one, -Nat.not_even_iff_odd]
  · simp [stateAfter, hc, beq_false_of_ne hc]

theorem attrAt_iff (before : List Char) (c : Char) (cs : List Char) :
    AttrAt before (c :: cs) ↔
      (!(stateAfter before).1 && (stateAfter before).2 && c.isAlpha && attrAhead (c :: cs)) = true := by
  rw [Bool.and_assoc, Bool.and_eq_true, attrAhead_iff, Bool.and_eq_true, and_assoc]
  simp [AttrAt, stateAfter, Option.all_eq_true]

/-- All of a text in which no attribute seems to start belongs to the head, whatever was
    there before it. -/
theorem splitHead_of_free {before after : List Char} (rest : List Char)
    (hfree : ∀ front c cs, after = front ++ c :: cs → ¬ AttrAt (before ++ front) (c :: cs ++ rest)) :
    splitHead (stateAfter before).1 (stateAfter before).2 (after ++ rest) =
      (splitHead (stateAfter (before ++ after)).1 (stateAfter (before ++ after)).2 rest).map
        (after ++ ·) id := by
  induction after generalizing before with
  | nil =>
    rw [List.append_nil]
    rfl
  | cons c cs ih =>
    have hc := hfree [] c cs rfl
    rw [List.append_nil, List.cons_append, attrAt_iff] at hc
    have hrest := @ih (before ++ [c]) fun front d ds h => by
      have := hfree (c :: front) d ds (by rw [h]; rfl)
      rwa [List.append_cons] at this
    rw [stateAfter_concat, ← List.append_cons] at hrest
    rw [List.cons_append, splitHead, if_neg hc, hrest]
    rfl

/-- An attribute ends the head. -/
theorem splitHead_of_attrAt {before : List Char} (h : AttrAt before text) :
    splitHead (stateAfter before).1 (stateAfter before).2 text = ([], text) := by
  cases text with
  | nil => rfl
  | cons c cs => rw [splitHead, if_pos ((attrAt_iff before c cs).1 h)]

theorem count_quote_of_blanks (h : ∀ c ∈ space, isBlank c) : space.count '\'' = 0 := by
  refine List.count_eq_zero.2 fun hmem => ?_
  cases h _ hmem

/-- No attribute seems to start in a head with white space after it. -/
theorem IsHead.not_attrAt (h : IsHead head) (hspace : ∀ c ∈ space, isBlank c)
    (hblank : ∀ c ∈ (space ++ text).head?, isBlank c) {front cs : List Char} {c : Char}
    (heq : head ++ space = front ++ c :: cs) : ¬ AttrAt front (c :: cs ++ text) := by
  rintro ⟨hquotes, hstart, hattr⟩
  rcases List.append_eq_append_iff.1 heq with ⟨more, rfl, rfl⟩ | ⟨more, rfl, hmore⟩
  · refine not_startsAttr_of_blank ?_ hattr
    rintro d ⟨⟩
    exact hspace c (by simp)
  · rw [hmore, List.append_assoc] at hattr
    exact h.free front more rfl ⟨hquotes, hstart, hattr.of_append hblank⟩

/-- A head ends where the first attribute starts; the white space between belongs to it. -/
theorem IsHead.splitHead_append (h : IsHead head) (hspace : ∀ c ∈ space, isBlank c)
    (htext : text = [] ∨ space ≠ [] ∧ StartsAttr text) :
    splitHead false true (head ++ space ++ text) = (head ++ space, text) := by
  have hblank : ∀ c ∈ (space ++ text).head?, isBlank c := by
    rcases htext with rfl | ⟨hne, -⟩
    · rw [List.append_nil]
      exact fun c hc => hspace c (List.mem_of_mem_head? hc)
    · obtain ⟨d, ds, rfl⟩ := List.exists_cons_of_ne_nil hne
      rintro c ⟨⟩
      exact hspace d List.mem_cons_self
  have hend : splitHead (stateAfter (head ++ space)).1 (stateAfter (head ++ space)).2 text =
      ([], text) := by
    rcases htext with rfl | ⟨hne, hattr⟩
    · rfl
    · refine splitHead_of_attrAt ⟨?_, fun c hc => ?_, hattr⟩
      · rw [List.count_append, count_quote_of_blanks hspace]
        exact h.balanced
      · rw [List.getLast?_append_of_ne_nil _ hne] at hc
        exact hspace c (List.mem_of_mem_getLast? hc)
  have hhead := @splitHead_of_free [] _ text
    fun _ _ _ heq => h.not_attrAt hspace hblank heq
  refine hhead.trans ?_
  rw [List.nil_append, hend]
  exact Prod.ext (List.append_nil _) rfl

/-! ### Checking heads -/

instance : DecidablePred IsAttrName
  | [] => .isFalse id
  | c :: cs => decidable_of_iff (c.isAlpha ∧ cs.all isAttrPart) (by simp [IsAttrName])

instance : DecidablePred StartsAttr
  | [] => .isFalse (not_startsAttr_of_blank (by simp))
  | c :: cs => decidable_of_iff _ (attrAhead_iff c cs)

instance (before after : List Char) : Decidable (AttrAt before after) :=
  decidable_of_iff (Even (before.count '\'') ∧ before.getLast?.all isBlank ∧ StartsAttr after)
    (by simp [AttrAt, Option.all_eq_true])

theorem isHead_iff : IsHead head ↔ Even (head.count '\'') ∧
    ∀ n < head.length + 1, ¬ AttrAt (head.take n) (head.drop n) := by
  constructor
  · exact fun h => ⟨h.balanced, fun n _ => h.free _ _ (List.take_append_drop n head).symm⟩
  · rintro ⟨hbalanced, hfree⟩
    refine ⟨hbalanced, ?_⟩
    rintro before after rfl
    have h := hfree before.length (by rw [List.length_append]; omega)
    rwa [List.take_left, List.drop_left] at h

instance : DecidablePred IsHead := fun _ => decidable_of_iff' _ isHead_iff

/-! ### Reading what is written -/

/-- The parts of a text of attributes: white space, and an attribute or nothing. -/
theorem Written.exists_space (h : Written attrs text) :
    ∃ space rest, text = space ++ rest ∧ (∀ c ∈ space, isBlank c) ∧
      (rest = [] ∨ space ≠ [] ∧ StartsAttr rest) ∧ readAttrs [] rest = readAttrs [] text := by
  cases h with
  | nil hspace =>
    refine ⟨text, [], (List.append_nil _).symm, hspace, .inl rfl, ?_⟩
    rw [readAttrs_of_blank hspace, readAttrs_of_blank (List.forall_mem_nil _)]
  | @cons space text name value attrs hne hspace hname hvalue _ =>
    refine ⟨space, _, rfl, hspace, .inr ⟨hne, _, _, hname, rfl⟩, ?_⟩
    rw [readAttrs_attr hspace hname hvalue]
    exact readAttrs_attr (List.forall_mem_nil _) hname hvalue [] text

/-- A head and attributes that are written are read one after the other. -/
theorem read_append (hhead : IsHead head) (hattrs : Written attrs text) :
    read (head ++ text) = (attrs.foldlM addAttr []).map (⟨trim head, ·⟩) := by
  obtain ⟨space, rest, rfl, hspace, hrest, hread⟩ := hattrs.exists_space
  rw [← readAttrs_written hattrs, ← hread, read, ← List.append_assoc,
    hhead.splitHead_append hspace hrest]
  change (do pure (CommandText.mk (trim (head ++ space)) (← readAttrs [] rest))) = _
  rw [Text.trim_append_blanks hspace]
  cases readAttrs [] rest <;> rfl

/-- A command text is read as it was written.  Where a name is repeated, the reader
    complains of the first attribute whose name was there before. -/
theorem read_written (hhead : IsHead head) (hattrs : Written attrs text) :
    ((attrs.map Prod.fst).Nodup → read (head ++ text) = .ok ⟨trim head, attrs⟩) ∧
    (¬ (attrs.map Prod.fst).Nodup → ∃ before attr after, attrs = before ++ attr :: after ∧
      (before.map Prod.fst).Nodup ∧ attr.1 ∈ before.map Prod.fst ∧
      read (head ++ text) = .error (.duplicateAttr attr.1)) := by
  rw [read_append hhead hattrs]
  constructor
  · intro hnodup
    rw [foldlM_addAttr_of_nodup (by simpa using hnodup)]
    rfl
  · intro hrepeated
    obtain ⟨before, attr, after, rfl, hbefore, hmem⟩ := exists_first_repeated hrepeated
    refine ⟨before, attr, after, rfl, hbefore, hmem, ?_⟩
    rw [foldlM_addAttr_of_mem hbefore hmem]
    rfl

/-- What stands in single quotes belongs to the head, and a backslash before a quote
    changes nothing; neither a bracket nor a digit starts an attribute. -/
theorem read_written_condition :
    IsHead "  $a('b=\"c\"') + \\'\n d=\"e\"' == (f=\"g\") \t2h=\"i\"".toList ∧
    read ("  $a('b=\"c\"') + \\'\n d=\"e\"' == (f=\"g\") \t2h=\"i\"" ++
        "\n id=\"it's \x7bj\x7d k=l m='n'\"\to-2_P=\"\" ").toList =
      .ok ⟨"$a('b=\"c\"') + \\'\n d=\"e\"' == (f=\"g\") \t2h=\"i\"".toList,
        [("id", "it's \x7bj\x7d k=l m='n'"), ("o-2_P", "")]⟩ ∧
    read " $a id=\"1\" n=\"'\"  id=\"2\"".toList = .error (.duplicateAttr "id") := by
  have blanks {space : List Char} (h : Text.allBlank space) : ∀ c ∈ space, isBlank c :=
    List.all_eq_true.1 h
  have hhead : IsHead "  $a('b=\"c\"') + \\'\n d=\"e\"' == (f=\"g\") \t2h=\"i\"".toList := by
    decide +kernel
  have hattrs : Written [("id", "it's \x7bj\x7d k=l m='n'"), ("o-2_P", "")]
      "\n id=\"it's \x7bj\x7d k=l m='n'\"\to-2_P=\"\" ".toList :=
    @Written.cons ['\n', ' '] _ _ _ _ (by decide) (blanks rfl) (by decide) (by decide)
      (@Written.cons ['\t'] _ _ _ _ (by decide) (blanks rfl) (by decide) (by decide)
        (@Written.nil [' '] (blanks rfl)))
  have hhead' : IsHead " $a".toList := by decide +kernel
  have hattrs' : Written [("id", "1"), ("n", "'"), ("id", "2")]
      " id=\"1\" n=\"'\"  id=\"2\"".toList :=
    @Written.cons [' '] _ _ _ _ (by decide) (blanks rfl) (by decide) (by decide)
      (@Written.cons [' '] _ _ _ _ (by decide) (blanks rfl) (by decide) (by decide)
        (@Written.cons [' ', ' '] _ _ _ _ (by decide) (blanks rfl) (by decide) (by decide)
          (@Written.nil [] (blanks rfl))))
  refine ⟨hhead, ?_, ?_⟩
  · exact (read_written hhead hattrs).1 (by decide)
  · obtain ⟨before, attr, after, heq, hnodup, hmem, hread⟩ :=
      (read_written hhead' hattrs').2 (by decide)
    have hname : attr.1 = "id" := by
      rcases before with _ | ⟨_, _ | ⟨_, _ | ⟨_, before⟩⟩⟩
      · cases hmem
      · cases heq
        exact absurd hmem (by decide)
      · cases heq
        rfl
      · simp at heq
    rwa [hname] at hread

end Stencil.Body.CommandText
