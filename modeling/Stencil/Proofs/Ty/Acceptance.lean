/-
  Stencil/Proofs/Ty/Acceptance.lean
  =================================
  **Type expressions are read.**

  Whatever tokens a derivation has and however they are written, they are read as
  the type that it denotes.  A name ends where it should, since what may stand
  after one is no part of it, nor is white space.  Every token takes a
  character, and no level of the recursion goes without two tokens, so the
  recursion is never cut short.
-/
import Stencil.Proofs.Text.Trim
import Stencil.Proofs.Ty.Reading

namespace Stencil

open Text (trimStart isBlank allBlank isNameStart isNamePart takeWhile_append dropWhile_append)
open TypeToken (mark word Spelled)

/-! ### Where tokens end -/

namespace TypeToken.Spelled

open Ty (StartsNot)

variable {tokens more : List TypeToken} {token : TypeToken} {cs mid rest : List Char}

theorem trimStart_eq (h : Spelled [] cs rest) : trimStart cs = trimStart rest := by
  cases h with
  | nil hblanks => exact List.dropWhile_append_of_pos (List.all_eq_true.1 hblanks)

theorem exists_of_append (h : Spelled (tokens ++ more) cs rest) :
    ∃ mid, Spelled tokens cs mid ∧ Spelled more mid rest := by
  induction tokens generalizing cs with
  | nil => exact ⟨cs, .refl cs, h⟩
  | cons token tokens ih =>
    cases h with
    | cons hblanks hspelled =>
      obtain ⟨mid, hmid, hmore⟩ := ih hspelled
      exact ⟨mid, .cons hblanks hmid, hmore⟩

/-- A token whose first character is no white space stands where white space ends. -/
theorem exists_of_cons {c : Char} {left : List Char} (hchars : token.chars = c :: left)
    (hc : isBlank c = false) (h : Spelled (token :: tokens) cs rest) :
    ∃ mid, trimStart cs = token.chars ++ mid ∧ Spelled tokens mid rest := by
  cases h with
  | @cons blanks mid _ _ _ hblanks hspelled =>
    refine ⟨mid, ?_, hspelled⟩
    apply dropWhile_append (List.all_eq_true.1 hblanks)
    rw [hchars]
    exact Ty.startsNot_cons hc _

theorem exists_of_mark {c : Char} (hc : isBlank c = false)
    (h : Spelled (mark c :: tokens) cs rest) :
    ∃ mid, trimStart cs = c :: mid ∧ Spelled tokens mid rest := exists_of_cons rfl hc h

theorem exists_of_typeName {name : List Char} (hname : Ty.IsTypeName name)
    (h : Spelled (word name :: tokens) cs rest) :
    ∃ mid, trimStart cs = name ++ mid ∧ Spelled tokens mid rest := by
  obtain ⟨c, left, rfl, hc⟩ := hname.exists_cons
  exact exists_of_cons rfl
    (Text.isBlank_eq_false_of_isNamePart (Text.isNamePart_of_isNameStart hc)) h

theorem exists_of_segment {name : List Char} (hname : Ty.IsSegment name)
    (h : Spelled (word name :: tokens) cs rest) :
    ∃ mid, trimStart cs = name ++ mid ∧ Spelled tokens mid rest := by
  obtain ⟨hne, hparts⟩ := hname
  obtain ⟨c, left, rfl⟩ := List.exists_cons_of_ne_nil hne
  exact exists_of_cons rfl (Text.isBlank_eq_false_of_isNamePart (hparts c List.mem_cons_self)) h

/-- Every token takes a character. -/
theorem length_le (hchars : ∀ token ∈ tokens, token.chars ≠ []) (h : Spelled tokens cs rest) :
    tokens.length ≤ cs.length := by
  induction h with
  | nil => exact Nat.zero_le _
  | @cons blanks cs rest token tokens _ _ ih =>
    obtain ⟨htoken, hmore⟩ := List.forall_mem_cons.1 hchars
    have hpos := List.length_pos_of_ne_nil htoken
    have hle := ih hmore
    simp only [List.length_cons, List.length_append]
    omega

end TypeToken.Spelled

namespace Ty

/-! ### Where names end -/

/-- What may stand after a name and white space. -/
def nameEnds : List Char := '<' :: ':' :: separators

/-- What is no white space and does not start the text after white space does not start the
    text. -/
theorem StartsIn.startsNot_of_trimStart {stops cs : List Char} (h : StartsIn stops (trimStart cs))
    {p : Char → Bool} (hstops : stops.all (!p ·)) (hblank : ∀ c, p c → isBlank c = false) :
    StartsNot p cs := by
  cases cs with
  | nil => exact fun _ hc => (nomatch hc)
  | cons c cs =>
    rintro _ ⟨⟩
    by_contra hp
    rw [Text.trimStart_cons (hblank c (by simpa using hp))] at h
    exact hp (h.startsNot hstops c rfl)

theorem StartsIn.ends_part {cs : List Char} (h : StartsIn nameEnds (trimStart cs)) :
    StartsNot isNamePart cs :=
  h.startsNot_of_trimStart (by decide) fun _ hc => Text.isBlank_eq_false_of_isNamePart hc

theorem StartsIn.ends_name {cs : List Char} (h : StartsIn nameEnds (trimStart cs)) :
    StartsNot (· == '.') cs := by
  apply h.startsNot_of_trimStart (by decide)
  intro c hc
  rw [beq_iff_eq.1 hc]
  decide

/-! ### No token is empty -/

variable {find? : String → Option Ty} {known : List Ty}

theorem IsAlt.length_pos {tokens : List TypeToken} {t : Ty} (h : IsAlt find? known tokens t) :
    0 < tokens.length := by
  cases h <;> simp

theorem IsTypeName.ne_nil {name : List Char} (h : IsTypeName name) : name ≠ [] := by
  obtain ⟨c, left, rfl, -⟩ := h.exists_cons
  exact List.cons_ne_nil _ _

mutual

/-- No token of a type expression is empty. -/
theorem IsType.chars_ne_nil {tokens : List TypeToken} {t : Ty} :
    IsType find? known tokens t → ∀ token ∈ tokens, token.chars ≠ []
  | .single h => h.chars_ne_nil
  | .union h h' _ => List.forall_mem_append.2 ⟨h.chars_ne_nil, h'.chars_ne_nil⟩

theorem IsAltList.chars_ne_nil {tokens : List TypeToken} {ts : List Ty} :
    IsAltList find? known tokens ts → ∀ token ∈ tokens, token.chars ≠ []
  | .nil => List.forall_mem_nil _
  | .cons h h' => List.forall_mem_cons.2 ⟨List.cons_ne_nil _ _,
      List.forall_mem_append.2 ⟨h.chars_ne_nil, h'.chars_ne_nil⟩⟩

theorem IsAlt.chars_ne_nil {tokens : List TypeToken} {t : Ty} :
    IsAlt find? known tokens t → ∀ token ∈ tokens, token.chars ≠ []
  | .unknown => by simp [TypeToken.chars]
  | .list h => by simpa [TypeToken.chars, or_imp, forall_and] using h.chars_ne_nil
  | .map h h' => by
    simpa [TypeToken.chars, or_imp, forall_and] using ⟨h.chars_ne_nil, h'.chars_ne_nil⟩
  | .emptyRecord => by simp [TypeToken.chars]
  | .record h _ _ => by simpa [TypeToken.chars, or_imp, forall_and] using h.chars_ne_nil
  | .name hname _ => List.forall_mem_singleton.2 hname.ne_nil

theorem IsFieldList.chars_ne_nil {tokens : List TypeToken} {fields : Fields} :
    IsFieldList find? known tokens fields → ∀ token ∈ tokens, token.chars ≠ []
  | .single hname h => by
    simpa [TypeToken.chars, or_imp, forall_and] using ⟨hname.1, h.chars_ne_nil⟩
  | .cons hname h h' => by
    simpa [TypeToken.chars, or_imp, forall_and] using
      ⟨hname.1, h.chars_ne_nil, h'.chars_ne_nil⟩

end

/-! ### Reading from any state -/

namespace Reader

section

variable {α β : Type}

/-- From wherever it starts, the computation ends well with the value, and the unions
    that it builds are known. -/
def Reads (known : List Ty) (x : Reading (List Ty) α) (a : α) : Prop :=
  ∀ s, ∃ s', Runs x s a s' ∧ ∀ u ∈ s', u ∈ s ∨ u ∈ known

theorem reads_pure (a : α) : Reads known (pure a) a := fun s =>
  ⟨s, runs_pure.2 ⟨rfl, rfl⟩, fun _ hu => .inl hu⟩

theorem reads_listing {types : List Ty} (h : join types ∈ known) :
    Reads known (liftM (listing types)) (join types) := by
  intro s
  refine ⟨join types :: s, runs_listing.2 ⟨rfl, rfl⟩, fun u hu => ?_⟩
  rcases List.mem_cons.1 hu with rfl | hu
  · exact .inr h
  · exact .inl hu

theorem reads_bind {x : Reading (List Ty) α} {f : α → Reading (List Ty) β} {a : α} {b : β} (hx : Reads known x a)
    (hf : Reads known (f a) b) : Reads known (x >>= f) b := by
  intro s
  obtain ⟨mid, hmid, hbuilt⟩ := hx s
  obtain ⟨s', hs', hbuilt'⟩ := hf mid
  refine ⟨s', runs_bind.2 ⟨a, mid, hmid, hs'⟩, fun u hu => ?_⟩
  rcases hbuilt' u hu with hu | hu
  · exact hbuilt u hu
  · exact .inr hu

theorem reads_expect {wanted : Char} {cs rest : List Char} (h : trimStart cs = wanted :: rest) :
    Reads known (expect wanted cs) rest := fun s =>
  ⟨s, runs_expect.2 ⟨h, rfl⟩, fun _ hu => .inl hu⟩

theorem length_le_length_dotted (segments : List (List Char)) :
    segments.length ≤ (dotted segments).length := by
  induction segments with
  | nil => simp
  | cons segment segments ih =>
    simp only [dotted, List.flatMap_cons, List.length_cons, List.length_append] at ih ⊢
    omega

theorem startsNot_dotted {segments : List (List Char)} {rest : List Char}
    (hrest : StartsNot isNamePart rest) : StartsNot isNamePart (dotted segments ++ rest) := by
  cases segments with
  | nil => exact hrest
  | cons segment segments =>
    rintro _ ⟨⟩
    decide

theorem reads_segments {n : Nat} {segments : List (List Char)} {rest : List Char}
    (hsegments : ∀ segment ∈ segments, IsSegment segment) (hend : StartsNot isNamePart rest)
    (hdot : StartsNot (· == '.') rest) (hn : segments.length ≤ n) :
    Reads known (readSegments n (dotted segments ++ rest)) (dotted segments, rest) := by
  induction segments generalizing n with
  | nil =>
    have heq : (readSegments n rest : Reading (List Ty) _) = pure ([], rest) := by
      rw [readSegments.eq_def]
      split
      · exact absurd (hdot '.' rfl) (by decide)
      · rfl
    exact heq ▸ reads_pure _
  | cons segment segments ih =>
    obtain ⟨hsegment, hmore⟩ := List.forall_mem_cons.1 hsegments
    have hafter : StartsNot isNamePart (dotted segments ++ rest) := startsNot_dotted hend
    cases n with
    | zero => exact absurd hn (by simp)
    | succ n =>
      have htext : dotted (segment :: segments) ++ rest =
          '.' :: (segment ++ (dotted segments ++ rest)) := by simp [dotted]
      rw [htext, readSegments, takeWhile_append hsegment.2 hafter,
        dropWhile_append hsegment.2 hafter, if_neg (by simpa using hsegment.1)]
      exact reads_bind (ih hmore (by simpa using hn)) (reads_pure _)

theorem reads_name {name rest : List Char} (hname : IsTypeName name)
    (hend : StartsNot isNamePart rest) (hdot : StartsNot (· == '.') rest) :
    Reads known (readName (name ++ rest)) (String.ofList name, rest) := by
  obtain ⟨c, head, segments, rfl, hc, hhead, hsegments⟩ := hname
  have hfirst : ∀ d ∈ c :: head, isNamePart d :=
    List.forall_mem_cons.2 ⟨Text.isNamePart_of_isNameStart hc, hhead⟩
  have hafter : StartsNot isNamePart (dotted segments ++ rest) :=
    startsNot_dotted hend
  have hlength : segments.length ≤ (c :: head ++ dotted segments ++ rest).length := by
    have hdotted := length_le_length_dotted segments
    simp only [List.length_append]
    omega
  rw [readName, List.append_assoc, takeWhile_append hfirst hafter, dropWhile_append hfirst hafter]
  rw [List.append_assoc] at hlength
  exact reads_bind (reads_segments hsegments hend hdot hlength) (reads_pure _)

end

/-! ### Derivations are read -/

/-- The reading gives the value, and leaves the rest of the text up to white space. -/
abbrev ReadsTo {α : Type} (known : List Ty) (x : Reading (List Ty) (α × List Char)) (a : α)
    (rest : List Char) : Prop :=
  ∃ left, trimStart left = trimStart rest ∧ Reads known x (a, left)

/-- A name is read to its end, and what the reader does after it depends on what follows. -/
theorem reads_readAlternative_name {n : Nat} {cs name after : List Char} {r : Ty × List Char}
    (hname : IsTypeName name) (hcs : trimStart cs = name ++ after)
    (hafter : StartsIn nameEnds (trimStart after))
    (h : Reads known
      (match trimStart after with
        | '<' :: rest =>
          if String.ofList name = "list" then do
            let (element, rest) ← readAlternatives find? listing n rest
            let rest ← expect '>' rest
            pure (.list element, rest)
          else if String.ofList name = "map" then do
            let (key, rest) ← readAlternatives find? listing n rest
            let rest ← expect ',' rest
            let (value, rest) ← readAlternatives find? listing n rest
            let rest ← expect '>' rest
            pure (.map key value, rest)
          else fail (.noArguments (String.ofList name)) (name ++ after)
        | rest =>
          match find? (String.ofList name) with
          | some ty => pure (ty, rest)
          | none => fail (.unknownType (String.ofList name)) (name ++ after) :
        Reading (List Ty) (Ty × List Char)) r) :
    Reads known (readAlternative find? listing (n + 1) cs) r := by
  obtain ⟨c, left, rfl, hc⟩ := hname.exists_cons
  have hread : Reads known (readName (c :: left ++ after)) (String.ofList (c :: left), after) :=
    reads_name hname hafter.ends_part hafter.ends_name
  rw [readAlternative, hcs]
  split
  · rename_i heq
    cases heq
  · rename_i heq
    cases heq
    exact absurd hc (by decide)
  · rename_i heq
    cases heq
    exact absurd hc (by decide)
  · rename_i heq
    cases heq
    rw [if_pos hc]
    exact reads_bind hread h

/-- A field is read, whatever the reader does after it. -/
theorem reads_readFields_field {n : Nat} {before : Fields} {cs name after inside left : List Char}
    {t : Ty} {r : Ty × List Char} (hname : IsSegment name) (hcs : trimStart cs = name ++ after)
    (hafter : trimStart after = ':' :: inside)
    (ht : Reads known (readAlternatives find? listing n inside) (t, left))
    (hnew : Fields.type? before (String.ofList name) = none)
    (h : Reads known
      (match trimStart left with
        | ',' :: rest => readFields find? listing n (Fields.insert (String.ofList name) t before) rest
        | ']' :: rest => pure (.record (Fields.insert (String.ofList name) t before), rest)
        | rest => fail .expectedFieldEnd rest : Reading (List Ty) (Ty × List Char)) r) :
    Reads known (readFields find? listing (n + 1) before cs) r := by
  have hend : StartsNot isNamePart after := by
    apply StartsIn.ends_part
    rw [hafter]
    exact .cons (by decide) _
  have hnonempty : (String.ofList name).isEmpty = false := by
    refine Bool.eq_false_iff.2 fun hempty => hname.1 ?_
    rw [← String.toList_ofList (l := name), String.isEmpty_iff.1 hempty]
    rfl
  rw [readFields]
  dsimp only
  rw [hcs, takeWhile_append hname.2 hend, dropWhile_append hname.2 hend,
    if_neg (by simp [hnonempty])]
  refine reads_bind (reads_expect hafter) ?_
  refine reads_bind ht ?_
  dsimp only
  rw [hnew, if_neg (by simp)]
  exact h

theorem readAlternative_bracket {n : Nat} {cs inside : List Char}
    (htrim : trimStart cs = '[' :: inside) :
    readAlternative find? listing (n + 1) cs =
      match trimStart inside with
      | ']' :: rest => pure (.record [], rest)
      | rest => readFields find? listing n [] rest := by
  rw [readAlternative, htrim]
  rfl

theorem startsIn_of_isAltList {tokens : List TypeToken} {ts : List Ty} {text rest : List Char}
    (h : IsAltList find? known tokens ts) (hspelled : Spelled tokens text rest)
    (hrest : StartsIn closers (trimStart rest)) : StartsIn separators (trimStart text) := by
  cases h with
  | nil =>
    rw [hspelled.trimStart_eq]
    exact hrest.mono (List.subset_cons_self _ _)
  | cons _ _ =>
    obtain ⟨after, hbar, -⟩ := hspelled.exists_of_mark (by decide)
    rw [hbar]
    exact .cons List.mem_cons_self _

/-- The fields of a record start with a name. -/
theorem isNamePart_of_isFieldList {tokens more : List TypeToken} {written : Fields}
    {text rest : List Char} (h : IsFieldList find? known tokens written)
    (hspelled : Spelled (tokens ++ more) text rest) :
    ∃ c left, trimStart text = c :: left ∧ isNamePart c := by
  obtain ⟨name, others, hname, rfl⟩ : ∃ name others, IsSegment name ∧
      tokens = word name :: others := by
    cases h with
    | single hname _ => exact ⟨_, _, hname, rfl⟩
    | cons hname _ _ => exact ⟨_, _, hname, rfl⟩
  obtain ⟨after, hword, -⟩ := hspelled.exists_of_segment hname
  obtain ⟨hne, hparts⟩ := hname
  obtain ⟨c, left, rfl⟩ := List.exists_cons_of_ne_nil hne
  exact ⟨c, left ++ after, hword, hparts c List.mem_cons_self⟩

-- The induction is on the fuel, as in the readers.  Between two tokens the reader has at
-- most two calls to make, so twice the number of tokens is enough.  The reader and the
-- derivation may differ by the white space that is skipped already, so they are compared
-- after it.
mutual

theorem reads_of_isType (n : Nat) {tokens : List TypeToken} {cs text rest : List Char} {t : Ty}
    (h : IsType find? known tokens t) (hcs : trimStart cs = trimStart text)
    (hspelled : Spelled tokens text rest) (hrest : StartsIn closers (trimStart rest))
    (hn : 2 * tokens.length ≤ n) :
    ReadsTo known (readAlternatives find? listing n cs) t rest := by
  cases h with
  | single hfirst =>
    have hpos := hfirst.length_pos
    match n with
    | 0 => omega
    | n + 1 =>
      obtain ⟨left, hleft, hreads⟩ := reads_of_isAlt n hfirst hcs hspelled
        (hrest.mono (List.subset_cons_self _ _)) (by omega)
      -- without a bar the list of further alternatives is read as empty
      have hend : IsAltList find? known [] [] := .nil
      obtain ⟨left', hleft', hreads'⟩ := reads_of_isAltList n hend hleft (.refl rest) hrest
        (by rw [List.length_nil]; omega)
      refine ⟨left', hleft', ?_⟩
      rw [readAlternatives]
      exact reads_bind hreads (reads_bind hreads' (reads_pure _))
  | @union tokens more first second others hfirst hothers hknown =>
    have hpos := hfirst.length_pos
    rw [List.length_append] at hn
    match n with
    | 0 => omega
    | n + 1 =>
      obtain ⟨mid, hspelled, hspelled'⟩ := hspelled.exists_of_append
      obtain ⟨left, hleft, hreads⟩ := reads_of_isAlt n hfirst hcs hspelled
        (startsIn_of_isAltList hothers hspelled' hrest) (by omega)
      obtain ⟨left', hleft', hreads'⟩ := reads_of_isAltList n hothers hleft hspelled' hrest
        (by omega)
      refine ⟨left', hleft', ?_⟩
      rw [readAlternatives]
      refine reads_bind hreads (reads_bind hreads' ?_)
      exact reads_bind (reads_listing hknown) (reads_pure _)

theorem reads_of_isAltList (n : Nat) {tokens : List TypeToken} {cs text rest : List Char}
    {ts : List Ty} (h : IsAltList find? known tokens ts) (hcs : trimStart cs = trimStart text)
    (hspelled : Spelled tokens text rest) (hrest : StartsIn closers (trimStart rest))
    (hn : 2 * tokens.length + 1 ≤ n) :
    ReadsTo known (readOthers find? listing n cs) ts rest := by
  match n with
  | n + 1 =>
    cases h with
    | nil =>
      rw [hspelled.trimStart_eq] at hcs
      refine ⟨trimStart rest, (hrest.startsNot (by decide)).trimStart_eq, ?_⟩
      have hbar : StartsNot (· == '|') (trimStart rest) := hrest.startsNot (by decide)
      rw [readOthers, hcs]
      split
      · rename_i heq
        rw [heq] at hbar
        exact absurd (hbar '|' rfl) (by decide)
      · exact reads_pure _
    | @cons tokens more t others ht hothers =>
      rw [List.length_cons, List.length_append] at hn
      obtain ⟨after, hbar, hspelled⟩ := hspelled.exists_of_mark (by decide)
      obtain ⟨mid, hspelled, hspelled'⟩ := hspelled.exists_of_append
      obtain ⟨left, hleft, hreads⟩ := reads_of_isAlt n ht rfl hspelled
        (startsIn_of_isAltList hothers hspelled' hrest) (by omega)
      obtain ⟨left', hleft', hreads'⟩ := reads_of_isAltList n hothers hleft hspelled' hrest
        (by omega)
      refine ⟨left', hleft', ?_⟩
      rw [readOthers, hcs, hbar]
      refine reads_bind hreads ?_
      exact reads_bind hreads' (reads_pure _)

theorem reads_of_isAlt (n : Nat) {tokens : List TypeToken} {cs text rest : List Char} {t : Ty}
    (h : IsAlt find? known tokens t) (hcs : trimStart cs = trimStart text)
    (hspelled : Spelled tokens text rest) (hrest : StartsIn separators (trimStart rest))
    (hn : 2 * tokens.length ≤ n + 1) :
    ReadsTo known (readAlternative find? listing n cs) t rest := by
  have hpos := h.length_pos
  match n with
  | 0 => omega
  | n + 1 =>
    cases h with
    | unknown =>
      obtain ⟨left, hquestion, hspelled⟩ := hspelled.exists_of_mark (by decide)
      refine ⟨left, hspelled.trimStart_eq, ?_⟩
      rw [readAlternative, hcs, hquestion]
      exact reads_pure _
    | @list tokens element helement =>
      have hname : IsTypeName "list".toList := ⟨'l', ['i', 's', 't'], [], rfl, by decide,
        List.all_eq_true.1 (by decide), fun _ h => nomatch h⟩
      simp only [List.length_cons, List.length_append, List.length_nil] at hn
      obtain ⟨after, hword, hspelled⟩ := hspelled.exists_of_typeName hname
      obtain ⟨inside, hangle, hspelled⟩ := hspelled.exists_of_mark (by decide)
      obtain ⟨mid, hspelled, hspelled'⟩ := hspelled.exists_of_append
      obtain ⟨left, hclose, hspelled'⟩ := hspelled'.exists_of_mark (by decide)
      obtain ⟨mid', hmid', hreads⟩ := reads_of_isType n helement rfl hspelled
        (hclose ▸ .cons (by decide) _) (by omega)
      refine ⟨left, hspelled'.trimStart_eq, ?_⟩
      apply reads_readAlternative_name hname (hcs.trans hword) (hangle ▸ .cons (by decide) _)
      rw [hangle, String.ofList_toList]
      refine reads_bind hreads ?_
      exact reads_bind (reads_expect (hmid'.trans hclose)) (reads_pure _)
    | @map tokens more key value hkey hvalue =>
      have hname : IsTypeName "map".toList := ⟨'m', ['a', 'p'], [], rfl, by decide,
        List.all_eq_true.1 (by decide), fun _ h => nomatch h⟩
      simp only [List.length_cons, List.length_append, List.length_nil] at hn
      obtain ⟨after, hword, hspelled⟩ := hspelled.exists_of_typeName hname
      obtain ⟨inside, hangle, hspelled⟩ := hspelled.exists_of_mark (by decide)
      obtain ⟨mid, hspelled, hspelled'⟩ := hspelled.exists_of_append
      obtain ⟨second, hcomma, hspelled'⟩ := hspelled'.exists_of_mark (by decide)
      obtain ⟨end₂, hspelled', hspelled''⟩ := hspelled'.exists_of_append
      obtain ⟨left, hclose, hspelled''⟩ := hspelled''.exists_of_mark (by decide)
      obtain ⟨mid', hmid', hreads⟩ := reads_of_isType n hkey rfl hspelled
        (hcomma ▸ .cons (by decide) _) (by omega)
      obtain ⟨end₂', hend', hreads'⟩ := reads_of_isType n hvalue rfl hspelled'
        (hclose ▸ .cons (by decide) _) (by omega)
      refine ⟨left, hspelled''.trimStart_eq, ?_⟩
      apply reads_readAlternative_name hname (hcs.trans hword) (hangle ▸ .cons (by decide) _)
      rw [hangle, String.ofList_toList]
      refine reads_bind hreads ?_
      refine reads_bind (reads_expect (hmid'.trans hcomma)) ?_
      refine reads_bind hreads' ?_
      exact reads_bind (reads_expect (hend'.trans hclose)) (reads_pure _)
    | emptyRecord =>
      obtain ⟨inside, hopen, hspelled⟩ := hspelled.exists_of_mark (by decide)
      obtain ⟨left, hclose, hspelled⟩ := hspelled.exists_of_mark (by decide)
      refine ⟨left, hspelled.trimStart_eq, ?_⟩
      rw [readAlternative_bracket (hcs.trans hopen), hclose]
      exact reads_pure _
    | @record tokens written fields hwritten hascending hperm =>
      simp only [List.length_cons, List.length_append, List.length_nil] at hn
      obtain ⟨inside, hopen, hspelled⟩ := hspelled.exists_of_mark (by decide)
      obtain ⟨c, more, hhead, hc⟩ := isNamePart_of_isFieldList hwritten hspelled
      have htrim : trimStart (trimStart inside) = trimStart inside := by
        rw [hhead]
        exact Text.trimStart_cons (Text.isBlank_eq_false_of_isNamePart hc) more
      obtain ⟨left, hleft, hreads⟩ := reads_of_isFieldList n hwritten htrim hspelled .nil
        hascending hperm (by omega)
      refine ⟨left, hleft, ?_⟩
      rw [readAlternative_bracket (hcs.trans hopen)]
      split
      · rename_i heq
        rw [hhead] at heq
        cases heq
        exact absurd hc (by decide)
      · exact hreads
    | @name name t hname hfound =>
      obtain ⟨after, hword, hspelled⟩ := hspelled.exists_of_typeName hname
      have hafter := hspelled.trimStart_eq
      have hangle : StartsNot (· == '<') (trimStart rest) := hrest.startsNot (by decide)
      refine ⟨trimStart rest, (hrest.startsNot (by decide)).trimStart_eq, ?_⟩
      apply reads_readAlternative_name hname (hcs.trans hword)
        (hafter ▸ hrest.mono (by decide))
      rw [hafter]
      split
      · rename_i heq
        rw [heq] at hangle
        exact absurd (hangle '<' rfl) (by decide)
      · rw [hfound]
        exact reads_pure _

theorem reads_of_isFieldList (n : Nat) {tokens : List TypeToken} {cs text rest : List Char}
    {before written fields : Fields} (h : IsFieldList find? known tokens written)
    (hcs : trimStart cs = trimStart text) (hspelled : Spelled (tokens ++ [mark ']']) text rest)
    (hbefore : before.Ascending) (hascending : fields.Ascending)
    (hperm : fields.Perm (before ++ written)) (hn : 2 * tokens.length ≤ n) :
    ReadsTo known (readFields find? listing n before cs) (.record fields) rest := by
  cases h with
  | @single name tokens t hname ht =>
    rw [List.length_cons, List.length_cons] at hn
    match n with
    | n + 1 =>
      obtain ⟨after, hword, hspelled⟩ := hspelled.exists_of_segment hname
      obtain ⟨inside, hcolon, hspelled⟩ := hspelled.exists_of_mark (by decide)
      obtain ⟨mid, hspelled, hspelled'⟩ := Spelled.exists_of_append hspelled
      obtain ⟨left, hclose, hspelled'⟩ := hspelled'.exists_of_mark (by decide)
      obtain ⟨mid', hmid', hreads⟩ := reads_of_isType n ht rfl hspelled
        (hclose ▸ .cons (by decide) _) (by omega)
      have hnew := Fields.type?_eq_none_of_perm hascending hperm
      refine ⟨left, hspelled'.trimStart_eq, ?_⟩
      apply reads_readFields_field hname (hcs.trans hword) hcolon hreads hnew
      rw [hmid', hclose]
      have hrecord : fields = Fields.insert (String.ofList name) t before := by
        apply hascending.eq_of_perm (hbefore.insert _ _)
        exact hperm.trans ((List.perm_append_singleton _ _).trans (Fields.perm_insert hnew t).symm)
      rw [hrecord]
      exact reads_pure _
  | @cons name tokens more t written hname ht hmore =>
    rw [List.length_cons, List.length_cons, List.length_append, List.length_cons] at hn
    match n with
    | n + 1 =>
      obtain ⟨after, hword, hspelled⟩ := hspelled.exists_of_segment hname
      obtain ⟨inside, hcolon, hspelled⟩ := hspelled.exists_of_mark (by decide)
      have hinside : Spelled (tokens ++ (mark ',' :: more ++ [mark ']'])) inside rest := by
        rw [← List.append_assoc]
        exact hspelled
      obtain ⟨mid, hspelled, hspelled'⟩ := hinside.exists_of_append
      obtain ⟨next, hcomma, hspelled'⟩ := hspelled'.exists_of_mark (by decide)
      obtain ⟨mid', hmid', hreads⟩ := reads_of_isType n ht rfl hspelled
        (hcomma ▸ .cons (by decide) _) (by omega)
      have hnew := Fields.type?_eq_none_of_perm hascending hperm
      have hpermMore : fields.Perm (Fields.insert (String.ofList name) t before ++ written) :=
        hperm.trans (List.perm_middle.trans ((Fields.perm_insert hnew t).symm.append_right written))
      obtain ⟨left, hleft, hreads'⟩ := reads_of_isFieldList n hmore rfl hspelled'
        (hbefore.insert _ _) hascending hpermMore (by omega)
      refine ⟨left, hleft, ?_⟩
      apply reads_readFields_field hname (hcs.trans hword) hcolon hreads hnew
      rw [hmid', hcomma]
      exact hreads'

end

/-- What a derivation writes is read as the type that it denotes. -/
theorem reads_readAll {tokens : List TypeToken} {cs : List Char} {t : Ty}
    (h : IsType find? known tokens t) (hspelled : Spelled tokens cs []) :
    Reads known (readAll find? listing cs) t := by
  have hlength := hspelled.length_le h.chars_ne_nil
  obtain ⟨left, hleft, hreads⟩ := reads_of_isType (2 * cs.length + 2) h rfl hspelled
    (fun _ hc => (nomatch hc)) (by omega)
  rw [readAll]
  refine reads_bind hreads ?_
  dsimp only
  rw [hleft]
  exact reads_pure t

end Reader

end Ty

/-! ### What a registry reads -/

namespace TypeRegistry

section

variable {registry : TypeRegistry} {source : List Char} {ty : Ty}

theorem exists_runs_of_read (h : (registry.read source).1 = .ok ty) :
    ∃ built, Runs (Ty.Reader.readAll registry.find? Ty.Reader.listing source) [] ty built ∧
      (registry.read source).2 = built.foldr (fun t r => r.remember t) registry := by
  rw [read_eq] at h ⊢
  cases hrun : (Ty.Reader.readAll registry.find? Ty.Reader.listing source).run.run [] with
  | mk outcome built =>
    rw [hrun] at h
    cases outcome with
    | error complaint => cases h
    | ok t =>
      cases h
      exact ⟨built, hrun, rfl⟩

theorem read_of_runs {built : List Ty}
    (h : Runs (Ty.Reader.readAll registry.find? Ty.Reader.listing source) [] ty built) :
    registry.read source = (.ok ty, built.foldr (fun t r => r.remember t) registry) := by
  have hrun : (Ty.Reader.readAll registry.find? Ty.Reader.listing source).run.run [] = (.ok ty, built) := h
  rw [read_eq, hrun]

end

/-- **A text is read exactly if a derivation of the grammar writes it**, with white space
    around its tokens, and what is read is the type that the derivation denotes; which types
    it joins does not matter.  Of every other text there is a complaint, about a place in
    the text or about its end. -/
theorem read_ok_iff_isType (registry : TypeRegistry) (source : List Char) :
    (∀ t, (registry.read source).1 = .ok t ↔
      ∃ known tokens, Ty.IsType registry.find? known tokens t ∧ Spelled tokens source []) ∧
    ∀ e, (registry.read source).1 = .error e →
      1 ≤ e.column ∧ e.column ≤ source.length + 1 ∧
      ∃ before left, source = before ++ left ∧ e.column = before.length + 1 ∧
        e.cause.Fits registry.find? left := by
  constructor
  · intro t
    constructor
    · intro h
      obtain ⟨built, hruns, -⟩ := exists_runs_of_read h
      exact ⟨built, Ty.Reader.exists_isType_of_runs_readAll hruns⟩
    · rintro ⟨known, tokens, htype, hspelled⟩
      obtain ⟨built, hruns, -⟩ := Ty.Reader.reads_readAll htype hspelled []
      rw [read_of_runs hruns]
  · intro e h
    obtain ⟨before, left, hsource, hcolumn, hfits⟩ := exists_fits_of_read h
    have hlength := congrArg List.length hsource
    rw [List.length_append] at hlength
    exact ⟨by omega, by omega, before, left, hsource, hcolumn, hfits⟩

/-- A record of a proto and a list, with blanks and line ends between the tokens, and a map
    without a comma. -/
theorem read_ok_iff_isType_records :
    let registry := ({} : TypeRegistry).register "acme.Person" []
    (∃ t known tokens,
      (registry.read "[who:acme.Person |null,\n by : list <?> ]".toList).1 = .ok t ∧
      t.text = "[by: list<?>, who: acme.Person|null]" ∧ Ty.IsType registry.find? known tokens t) ∧
    ∃ e, (registry.read "map<int string>".toList).1 = .error e ∧ e.column = 9 ∧
      ∃ before left, "map<int string>".toList = before ++ left ∧
        e.column = before.length + 1 ∧ e.cause.Fits registry.find? left := by
  intro registry
  constructor
  · have hcheck : (registry.read "[who:acme.Person |null,\n by : list <?> ]".toList).1.toOption.any
        fun t => t.text = "[by: list<?>, who: acme.Person|null]" := by
      decide +kernel
    obtain ⟨t, hread, htext⟩ := any_toOption.1 hcheck
    obtain ⟨known, tokens, htype, -⟩ := ((read_ok_iff_isType registry _).1 t).1 hread
    exact ⟨t, known, tokens, hread, of_decide_eq_true htext, htype⟩
  · have hread : (registry.read "map<int string>".toList).1 =
        .error ⟨.expectedChar ',' (some 's'), 9⟩ := by
      decide +kernel
    obtain ⟨-, -, hplace⟩ := (read_ok_iff_isType registry _).2 _ hread
    exact ⟨_, hread, rfl, hplace⟩

end TypeRegistry

end Stencil
