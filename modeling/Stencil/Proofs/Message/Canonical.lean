/-
  Stencil/Proofs/Message/Canonical.lean
  =====================================
  **Canonical text tells messages apart**, with three exceptions.

  A null character in a text is read as the start of the meaning; a quote and a
  brace in the value of a case are read as its end; and a placeholder named
  `DEFAULT` is read as the default case where that is due.  Messages without
  these have one canonical text only if they have one outline and one meaning
  (`canonical_eq_iff`); messages with them may share it (`exists_collisions`).
-/
import Stencil.Proofs.Message.Outline

namespace Stencil

namespace Message

/-! ### What stands in tags -/

theorem not_mem_of_isName {name : String} {c : Char} (h : IsName name)
    (hc : ¬ Text.isNamePart c) : c ∉ name.toList := fun hmem => hc (h c hmem)

theorem isNamePart_or_eq_minus {n : Int} :
    ∀ c ∈ (toString n).toList, Text.isNamePart c ∨ c = '-' := by
  intro c hc
  cases n with
  | ofNat n => exact .inl (isName_toString n c hc)
  | negSucc n =>
    rw [show toString (Int.negSucc n) = "-" ++ toString (n + 1) from rfl, String.toList_append,
      List.mem_append] at hc
    rcases hc with hc | hc
    · exact .inr (List.mem_singleton.1 hc)
    · exact .inl (isName_toString _ c hc)

theorem brace_not_mem_int (n : Int) : '\x7d' ∉ (toString n).toList := fun hmem =>
  (isNamePart_or_eq_minus '\x7d' hmem).elim (by decide) (by decide)

theorem toString_int_inj {n n' : Int} (h : toString n = toString n') : n = n' := by
  -- a number that is not negative does not begin with a minus
  have hsign : ∀ k k' : Nat, toString (Int.ofNat k) ≠ toString (Int.negSucc k') := by
    intro k k' h
    have hminus : '-' ∈ (toString k).toList := by
      rw [show toString k = "-" ++ toString (k' + 1) from h, String.toList_append]
      exact List.mem_append_left _ (List.mem_singleton.2 rfl)
    exact not_mem_of_isName (isName_toString k) (by decide) hminus
  cases n with
  | ofNat k =>
    cases n' with
    | ofNat k' => exact congrArg _ (Nat.repr_inj.1 h)
    | negSucc k' => exact absurd h (hsign k k')
  | negSucc k =>
    cases n' with
    | ofNat k' => exact absurd h.symm (hsign k' k)
    | negSucc k' =>
      have h : "-" ++ (k + 1).repr = "-" ++ (k' + 1).repr := h
      rw [String.ext_iff, String.toList_append, String.toList_append] at h
      have hsucc := Nat.repr_inj.1 (String.toList_inj.1 (List.append_cancel_left h))
      exact congrArg _ (Nat.succ_inj.1 hsucc)

theorem endsAtBrace_of_isName {name : String} (h : IsName name) :
    Sign.EndsAtBrace name.toList := by
  refine ⟨not_mem_of_isName h (by decide), fun hstart => ?_⟩
  exact not_mem_of_isName h (by decide) (hstart.subset (by decide : '\'' ∈ Sign.quoteStart))

/-! ### Labels of cases -/

/-- The end of the label shows in its tag. -/
def LabelShows : CaseLabel → Prop
  | .value text => ¬ quoteEnd <:+: text.toList
  | _ => True

instance : DecidablePred LabelShows
  | .value text => inferInstanceAs (Decidable (¬ quoteEnd <:+: text.toList))
  | .count _ => .isTrue trivial
  | .default => .isTrue trivial

theorem labelInside_count (n : Int) :
    (labelInside (.count n)).toList = "CASE =".toList ++ (toString n).toList :=
  String.toList_append

theorem labelInside_value (text : String) :
    (labelInside (.value text)).toList = Sign.quoteStart ++ text.toList ++ ['\''] := by
  rw [labelInside, String.toList_append, String.toList_append]
  rfl

theorem labelInside_default : (labelInside .default).toList = "DEFAULT".toList := rfl

theorem readable_labelInside {label : CaseLabel} (h : LabelShows label) :
    (Sign.tag (labelInside label).toList).Readable := by
  cases label with
  | count n =>
    rw [labelInside_count]
    refine .inl ⟨fun hmem => ?_, ?_⟩
    · rcases List.mem_append.1 hmem with hmem | hmem
      · exact absurd hmem (by decide)
      · exact brace_not_mem_int n hmem
    · rintro ⟨rest, hrest⟩
      simp [Sign.quoteStart] at hrest
  | value text => exact .inr ⟨text.toList, labelInside_value text, h⟩
  | default => exact .inl (endsAtBrace_of_isName (by decide))

theorem labelInside_inj {label label' : CaseLabel}
    (h : (labelInside label).toList = (labelInside label').toList) : label = label' := by
  cases label <;> cases label' <;>
    simp only [labelInside_count, labelInside_value, labelInside_default, Sign.quoteStart] at h
  case count.count n n' =>
    rw [List.append_right_inj, String.toList_inj] at h
    rw [toString_int_inj h]
  case value.value text text' =>
    rw [List.append_left_inj, List.append_right_inj, String.toList_inj] at h
    rw [h]
  case default.default => rfl
  all_goals simp at h

/-! ### Signs of pieces and of cases -/

/-- The signs of plain text. -/
def IsPieceSign (a : Sign) : Prop :=
  (∃ c, a = .char c) ∨ ∃ name, IsName name ∧ a = .tag name.toList

/-- The tags of the cases that have a label. -/
def IsCaseSign (a : Sign) : Prop := ∃ label, label ≠ .default ∧ a = .tag (labelInside label).toList

/-- The tag of the default case. -/
def defaultSign : Sign := .tag "DEFAULT".toList

theorem isPieceSign_of_mem {pieces : List TranslationPart} (h : FormedPieces pieces) :
    ∀ a ∈ signs pieces, IsPieceSign a := by
  intro a ha
  obtain ⟨piece, hpiece, ha⟩ := List.mem_flatMap.1 ha
  cases piece with
  | text text =>
    obtain ⟨c, -, rfl⟩ := List.mem_map.1 ha
    exact .inl ⟨c, rfl⟩
  | placeholder name => exact .inr ⟨name, h.named name hpiece, List.mem_singleton.1 ha⟩

theorem readable_of_isPieceSign {a : Sign} (h : IsPieceSign a) : a.Readable := by
  rcases h with ⟨c, rfl⟩ | ⟨name, hname, rfl⟩
  · trivial
  · exact .inl (endsAtBrace_of_isName hname)

theorem not_isPieceSign_tag {inside : List Char} {c : Char} (hmem : c ∈ inside)
    (hc : ¬ Text.isNamePart c) : ¬ IsPieceSign (.tag inside) := by
  rintro (⟨d, heq⟩ | ⟨name, hname, heq⟩)
  · cases heq
  · cases heq
    exact not_mem_of_isName hname hc hmem

theorem space_mem_labelInside {label : CaseLabel} (h : label ≠ .default) :
    ' ' ∈ (labelInside label).toList := by
  cases label with
  | count n =>
    rw [labelInside_count]
    exact List.mem_append_left _ (by decide)
  | value text =>
    rw [labelInside_value, List.append_assoc]
    exact List.mem_append_left _ (by decide)
  | default => exact absurd rfl h

theorem not_isCaseSign {a : Sign} (h : IsPieceSign a) : ¬ IsCaseSign a := by
  rintro ⟨label, hlabel, rfl⟩
  exact not_isPieceSign_tag (space_mem_labelInside hlabel) (by decide) h

theorem isPieceSign_defaultSign : IsPieceSign defaultSign := .inr ⟨"DEFAULT", by decide, rfl⟩

theorem placeholder_mem_of_defaultSign {pieces : List TranslationPart}
    (h : defaultSign ∈ signs pieces) : .placeholder "DEFAULT" ∈ pieces := by
  obtain ⟨piece, hpiece, hsign⟩ := List.mem_flatMap.1 h
  cases piece with
  | text text =>
    obtain ⟨c, -, heq⟩ := List.mem_map.1 hsign
    cases heq
  | placeholder name =>
    have heq := List.mem_singleton.1 hsign
    rw [defaultSign, Sign.tag.injEq, String.toList_inj] at heq
    rwa [heq]

/-- Cases with labels, before the default case: their pieces are formed, and in
    the last one no placeholder looks like the default case. -/
structure Labelled (cases : List CaseOutline) : Prop where
  label : ∀ case ∈ cases, case.1 ≠ .default
  pieces : ∀ case ∈ cases, FormedPieces case.2
  shows : ∀ case ∈ cases.getLast?, .placeholder "DEFAULT" ∉ case.2

theorem Labelled.tail {case : CaseOutline} {rest : List CaseOutline}
    (h : Labelled (case :: rest)) : Labelled rest := by
  refine ⟨fun c hc => h.label c (List.mem_cons_of_mem _ hc),
    fun c hc => h.pieces c (List.mem_cons_of_mem _ hc), ?_⟩
  cases rest with
  | nil => exact fun _ hc => (nomatch hc)
  | cons next rest => simpa only [List.getLast?_cons_cons] using h.shows

/-- The signs from cases with labels to the end of the default case. -/
def casesSigns (labelled : List CaseOutline) (last : List TranslationPart) : List Sign :=
  labelled.flatMap caseSigns ++ defaultSign :: signs last

theorem casesSigns_cons (case : CaseOutline) (rest : List CaseOutline)
    (last : List TranslationPart) : casesSigns (case :: rest) last =
      .tag (labelInside case.1).toList :: (signs case.2 ++ casesSigns rest last) := by
  rw [casesSigns, List.flatMap_cons, List.append_assoc]
  rfl

/-- The default case does not look like a case with a label. -/
theorem casesSigns_nil_ne {case : CaseOutline} (hcase : case.1 ≠ .default)
    (rest : List CaseOutline) (last last' : List TranslationPart) :
    casesSigns [] last ≠ casesSigns (case :: rest) last' := by
  intro heq
  rw [casesSigns_cons, casesSigns, List.flatMap_nil, List.nil_append, List.cons.injEq] at heq
  have hlabel : (labelInside .default).toList = (labelInside case.1).toList := Sign.tag.inj heq.1
  exact hcase (labelInside_inj hlabel).symm

/-- A case before the default case does not look like one before a case with a label. -/
theorem append_casesSigns_nil_ne {case next : CaseOutline} {last : List TranslationPart}
    (hcase : FormedPieces case.2) (hlast : FormedPieces last) (hnext : next.1 ≠ .default)
    (pieces : List TranslationPart) (rest : List CaseOutline) (last' : List TranslationPart) :
    signs case.2 ++ casesSigns [] last ≠ signs pieces ++ casesSigns (next :: rest) last' := by
  intro h
  have hmem : Sign.tag (labelInside next.1).toList ∈ signs case.2 ++ casesSigns [] last := by
    rw [h, casesSigns_cons]
    exact List.mem_append_right _ List.mem_cons_self
  refine not_isCaseSign (a := .tag (labelInside next.1).toList) ?_ ⟨next.1, hnext, rfl⟩
  rcases List.mem_append.1 hmem with hmem | hmem
  · exact isPieceSign_of_mem hcase _ hmem
  · rcases List.mem_cons.1 hmem with heq | hmem
    · rw [heq]
      exact isPieceSign_defaultSign
    · exact isPieceSign_of_mem hlast _ hmem

/-- What is in a case ends where the next case begins. -/
theorem append_casesSigns_inj {case case' : CaseOutline} {rest rest' : List CaseOutline}
    {last last' : List TranslationPart} (h : Labelled (case :: rest))
    (h' : Labelled (case' :: rest')) (hlast : FormedPieces last) (hlast' : FormedPieces last')
    (heq : signs case.2 ++ casesSigns rest last = signs case'.2 ++ casesSigns rest' last') :
    signs case.2 = signs case'.2 ∧ casesSigns rest last = casesSigns rest' last' := by
  have hpieces := h.pieces case List.mem_cons_self
  have hpieces' := h'.pieces case' List.mem_cons_self
  cases rest with
  | nil =>
    cases rest' with
    | nil =>
      -- both end at the default case, and no placeholder before it looks like it
      have hnot : ∀ {case}, Labelled [case] → ∀ a ∈ signs case.2, ¬ a = defaultSign :=
        fun h a ha hdefault => h.shows _ rfl (placeholder_mem_of_defaultSign (hdefault ▸ ha))
      obtain ⟨hbody, -, hrest⟩ := append_cons_inj (P := (· = defaultSign)) (hnot h) (hnot h')
        rfl rfl heq
      exact ⟨hbody, congrArg (defaultSign :: ·) hrest⟩
    | cons next' rest' =>
      exact absurd heq (append_casesSigns_nil_ne hpieces hlast
        (h'.tail.label next' List.mem_cons_self) _ _ _)
  | cons next rest =>
    cases rest' with
    | nil =>
      exact absurd heq.symm (append_casesSigns_nil_ne hpieces' hlast'
        (h.tail.label next List.mem_cons_self) _ _ _)
    | cons next' rest' =>
      rw [casesSigns_cons, casesSigns_cons] at heq ⊢
      obtain ⟨hbody, hnext, hrest⟩ := append_cons_inj (P := IsCaseSign)
        (fun a ha => not_isCaseSign (isPieceSign_of_mem hpieces a ha))
        (fun a ha => not_isCaseSign (isPieceSign_of_mem hpieces' a ha))
        ⟨next.1, h.tail.label next List.mem_cons_self, rfl⟩
        ⟨next'.1, h'.tail.label next' List.mem_cons_self, rfl⟩ heq
      exact ⟨hbody, by rw [hnext, hrest]⟩

/-- Cases are read back from their signs, one after the other. -/
theorem casesSigns_inj {labelled labelled' : List CaseOutline} {last last' : List TranslationPart}
    (h : Labelled labelled) (h' : Labelled labelled') (hlast : FormedPieces last)
    (hlast' : FormedPieces last') (heq : casesSigns labelled last = casesSigns labelled' last') :
    labelled = labelled' ∧ last = last' := by
  induction labelled generalizing labelled' with
  | nil =>
    cases labelled' with
    | nil => exact ⟨rfl, hlast.eq_of_signs_eq hlast' (List.cons.inj heq).2⟩
    | cons case' rest' =>
      exact absurd heq (casesSigns_nil_ne (h'.label case' List.mem_cons_self) _ _ _)
  | cons case rest ih =>
    cases labelled' with
    | nil => exact absurd heq.symm (casesSigns_nil_ne (h.label case List.mem_cons_self) _ _ _)
    | cons case' rest' =>
      rw [casesSigns_cons, casesSigns_cons, List.cons.injEq, Sign.tag.injEq] at heq
      obtain ⟨hbody, hcases⟩ := append_casesSigns_inj h h' hlast hlast' heq.2
      have hpieces : case.2 = case'.2 := (h.pieces case List.mem_cons_self).eq_of_signs_eq
        (h'.pieces case' List.mem_cons_self) hbody
      obtain ⟨hrest, hlasts⟩ := ih h.tail h'.tail hcases
      exact ⟨by rw [hrest, Prod.ext (labelInside_inj heq.1) hpieces], hlasts⟩

/-! ### Unambiguous outlines -/

/-- The text in a piece does not look like a meaning. -/
def TextShows : TranslationPart → Prop
  | .text text => '\x00' ∉ text.toList
  | .placeholder _ => True

instance : DecidablePred TextShows
  | .text text => inferInstanceAs (Decidable ('\x00' ∉ text.toList))
  | .placeholder _ => .isTrue trivial

/-- The ends of all labels show, and in the case before the default case no
    placeholder looks like that. -/
structure CasesShow (cases : List CaseOutline) : Prop where
  labels : ∀ case ∈ cases, LabelShows case.1
  default : ∀ case ∈ cases.dropLast.getLast?, .placeholder "DEFAULT" ∉ case.2

instance (cases : List CaseOutline) : Decidable (CasesShow cases) :=
  decidable_of_iff ((∀ case ∈ cases, LabelShows case.1) ∧
    ∀ case ∈ cases.dropLast.getLast?, .placeholder "DEFAULT" ∉ case.2)
    ⟨fun h => ⟨h.1, h.2⟩, fun h => ⟨h.labels, h.default⟩⟩

namespace Outline

/-- The outline can be read back from its canonical text. -/
def Unambiguous : Outline → Prop
  | plain pieces => ∀ piece ∈ pieces, TextShows piece
  | plural _ _ cases | select _ cases => CasesShow cases

instance : DecidablePred Unambiguous
  | plain pieces => inferInstanceAs (Decidable (∀ piece ∈ pieces, TextShows piece))
  | plural _ _ cases => inferInstanceAs (Decidable (CasesShow cases))
  | select _ cases => inferInstanceAs (Decidable (CasesShow cases))

theorem FormedCases.labelled {cases : List CaseOutline} (h : FormedCases cases)
    (hshow : CasesShow cases) : ∃ labelled last, cases = labelled ++ [(.default, last)] ∧
      cases.flatMap caseSigns = casesSigns labelled last ∧ Labelled labelled ∧
        FormedPieces last := by
  obtain ⟨labelled, last, rfl, hlabelled⟩ := h.default
  refine ⟨labelled, last, rfl, ?_, ⟨hlabelled, ?_, ?_⟩, ?_⟩
  · rw [List.flatMap_append, casesSigns, List.flatMap_singleton]
    rfl
  · exact fun case hcase => h.pieces case (List.mem_append_left _ hcase)
  · simpa only [List.dropLast_concat] using hshow.default
  · exact h.pieces (.default, last) (List.mem_append_right _ (List.mem_singleton.2 rfl))

theorem FormedCases.eq_of_signs_eq {cases cases' : List CaseOutline} (h : FormedCases cases)
    (h' : FormedCases cases') (hshow : CasesShow cases) (hshow' : CasesShow cases')
    (heq : cases.flatMap caseSigns = cases'.flatMap caseSigns) : cases = cases' := by
  obtain ⟨labelled, last, rfl, hsigns, hlabelled, hlast⟩ := h.labelled hshow
  obtain ⟨labelled', last', rfl, hsigns', hlabelled', hlast'⟩ := h'.labelled hshow'
  rw [hsigns, hsigns'] at heq
  obtain ⟨rfl, rfl⟩ := casesSigns_inj hlabelled hlabelled' hlast hlast' heq
  rfl

/-! ### Plain messages -/

theorem meaningText_inj {meaning meaning' : Option String}
    (h : meaningText meaning = meaningText meaning') : meaning = meaning' := by
  cases meaning <;> cases meaning' <;> simp [meaningText, String.toList_inj] at h ⊢
  exact h

/-- The signs of plain text without a null character. -/
def IsShownSign (a : Sign) : Prop := IsPieceSign a ∧ a ≠ .char '\x00'

theorem readable_of_isShownSign (a : Sign) (h : IsShownSign a) : a.Readable :=
  readable_of_isPieceSign h.1

theorem isShownSign_of_mem {pieces : List TranslationPart} (h : FormedPieces pieces)
    (hshow : ∀ piece ∈ pieces, TextShows piece) : ∀ a ∈ Message.signs pieces, IsShownSign a := by
  intro a ha
  refine ⟨isPieceSign_of_mem h a ha, ?_⟩
  rintro rfl
  obtain ⟨piece, hpiece, hsign⟩ := List.mem_flatMap.1 ha
  cases piece with
  | text text =>
    obtain ⟨c, hc, heq⟩ := List.mem_map.1 hsign
    cases heq
    exact hshow _ hpiece hc
  | placeholder name => exact absurd (List.mem_singleton.1 hsign) (by simp)

/-- A meaning begins with a null character, which no other sign does. -/
theorem not_prefix_meaningText {a : Sign} (h : IsShownSign a) (meaning : Option String) :
    ¬ a.text <+: meaningText meaning := by
  rintro ⟨rest, hrest⟩
  cases meaning with
  | none =>
    rw [meaningText, List.append_eq_nil_iff] at hrest
    exact a.text_ne_nil hrest.1
  | some meaning =>
    have hnull : (Sign.char '\x00').text ++ meaning.toList = a.text ++ rest := hrest.symm
    have hreadable : (Sign.char '\x00').Readable := trivial
    exact h.2 (Sign.text_append_inj hreadable (readable_of_isShownSign a h) hnull).1.symm

theorem plain_inj {pieces pieces' : List TranslationPart} {meaning meaning' : Option String}
    (h : FormedPieces pieces) (h' : FormedPieces pieces')
    (hshow : ∀ piece ∈ pieces, TextShows piece) (hshow' : ∀ piece ∈ pieces', TextShows piece)
    (heq : Sign.texts (Message.signs pieces) ++ meaningText meaning =
      Sign.texts (Message.signs pieces') ++ meaningText meaning') :
    pieces = pieces' ∧ meaning = meaning' := by
  obtain ⟨hsigns, hmeaning⟩ := Sign.texts_append_inj readable_of_isShownSign
    (isShownSign_of_mem h hshow) (isShownSign_of_mem h' hshow')
    (fun a ha => not_prefix_meaningText ha meaning)
    (fun a ha => not_prefix_meaningText ha meaning') heq
  exact ⟨h.eq_of_signs_eq h' hsigns, meaningText_inj hmeaning⟩

/-! ### Plurals and selects -/

/-- The tag that a plural or select begins with: it ends at the first brace, holds
    a space, and does not end anything. -/
structure IsOpening (inside : List Char) : Prop where
  ends : Sign.EndsAtBrace inside
  space : ' ' ∈ inside

/-- The tag that a plural or select ends with. -/
def IsClosing (a : Sign) : Prop := a = .tag "/PLURAL".toList ∨ a = .tag "/SELECT".toList

theorem readable_of_isClosing {a : Sign} (h : IsClosing a) : a.Readable := by
  rcases h with rfl | rfl <;> exact .inl ⟨by decide, by decide⟩

/-- The signs inside of a plural or select. -/
def IsInner (a : Sign) : Prop := a.Readable ∧ ¬ IsClosing a

theorem slash_mem_of_isClosing {inside : List Char} (h : IsClosing (.tag inside)) :
    '/' ∈ inside ∧ ' ' ∉ inside := by
  rcases h with h | h <;> rw [Sign.tag.inj h] <;> decide

theorem isInner_of_isPieceSign {a : Sign} (h : IsPieceSign a) : IsInner a := by
  refine ⟨readable_of_isPieceSign h, fun hclosing => ?_⟩
  rcases hclosing with rfl | rfl <;>
    exact not_isPieceSign_tag (c := '/') (by decide) (by decide) h

theorem isInner_labelInside {label : CaseLabel} (h : LabelShows label) :
    IsInner (.tag (labelInside label).toList) := by
  refine ⟨readable_labelInside h, fun hclosing => ?_⟩
  by_cases hdefault : label = .default
  · subst hdefault
    exact absurd (slash_mem_of_isClosing hclosing).1 (by decide)
  · exact (slash_mem_of_isClosing hclosing).2 (space_mem_labelInside hdefault)

theorem isInner_of_mem {inside : List Char} (hopening : IsOpening inside) {cases : List CaseOutline}
    (h : FormedCases cases) (hshow : CasesShow cases) :
    ∀ a ∈ Sign.tag inside :: cases.flatMap caseSigns, IsInner a := by
  refine List.forall_mem_cons.2 ⟨⟨.inl hopening.ends, fun hclosing =>
    (slash_mem_of_isClosing hclosing).2 hopening.space⟩, fun a ha => ?_⟩
  obtain ⟨case, hcase, ha⟩ := List.mem_flatMap.1 ha
  rcases List.mem_cons.1 ha with rfl | ha
  · exact isInner_labelInside (hshow.labels case hcase)
  · exact isInner_of_isPieceSign (isPieceSign_of_mem (h.pieces case hcase) a ha)

theorem not_prefix_closing {a close : Sign} (h : IsInner a) (hclose : IsClosing close)
    (rest : List Char) : ¬ a.text <+: close.text ++ rest := by
  rintro ⟨other, hother⟩
  have heq := (Sign.text_append_inj h.1 (readable_of_isClosing hclose) hother).1
  exact h.2 (heq ▸ hclose)

/-- A plural or select is read back from its text, whatever follows. -/
theorem choice_inj {inside inside' : List Char} {close close' : Sign} {cases cases' : List CaseOutline}
    {rest rest' : List Char} (hopening : IsOpening inside) (hopening' : IsOpening inside')
    (hclose : IsClosing close) (hclose' : IsClosing close') (h : FormedCases cases)
    (h' : FormedCases cases') (hshow : CasesShow cases) (hshow' : CasesShow cases')
    (heq : Sign.texts (.tag inside :: cases.flatMap caseSigns ++ [close]) ++ rest =
      Sign.texts (.tag inside' :: cases'.flatMap caseSigns ++ [close']) ++ rest') :
    inside = inside' ∧ cases = cases' ∧ rest = rest' := by
  have hone : ∀ a : Sign, Sign.texts [a] = a.text := fun a => List.flatMap_singleton _ _
  rw [Sign.texts_append, Sign.texts_append, List.append_assoc, List.append_assoc, hone, hone] at heq
  obtain ⟨hsigns, hrest⟩ := Sign.texts_append_inj (S := IsInner) (fun _ ha => ha.1)
    (isInner_of_mem hopening h hshow) (isInner_of_mem hopening' h' hshow')
    (fun a ha => not_prefix_closing ha hclose rest)
    (fun a ha => not_prefix_closing ha hclose' rest') heq
  rw [List.cons.injEq, Sign.tag.injEq] at hsigns
  have hrest := Sign.text_append_inj (readable_of_isClosing hclose)
    (readable_of_isClosing hclose') hrest
  exact ⟨hsigns.1, h.eq_of_signs_eq h' hshow hshow' hsigns.2, hrest.2⟩

/-- Plain text does not look like a plural or select. -/
theorem plain_ne_choice {pieces : List TranslationPart} {meaning : Option String}
    {inside rest : List Char} {others : List Sign} (h : FormedPieces pieces)
    (hshow : ∀ piece ∈ pieces, TextShows piece) (hopening : IsOpening inside) :
    Sign.texts (Message.signs pieces) ++ meaningText meaning ≠
      Sign.texts (.tag inside :: others) ++ rest := by
  intro heq
  have htag : Sign.texts (.tag inside :: others) ++ rest =
      Sign.texts [] ++ ((Sign.tag inside).text ++ (Sign.texts others ++ rest)) := by
    rw [Sign.texts, List.flatMap_cons, List.append_assoc]
    rfl
  have hreadable : (Sign.tag inside).Readable := .inl hopening.ends
  have hnot : ∀ a, IsShownSign a →
      ¬ a.text <+: (Sign.tag inside).text ++ (Sign.texts others ++ rest) := by
    rintro a ha ⟨other, hother⟩
    have hsign := (Sign.text_append_inj (readable_of_isShownSign a ha) hreadable hother).1
    rw [hsign] at ha
    exact not_isPieceSign_tag hopening.space (by decide) ha.1
  rw [htag] at heq
  have hmeaning := (Sign.texts_append_inj readable_of_isShownSign (isShownSign_of_mem h hshow)
    (List.forall_mem_nil _) (fun a ha => not_prefix_meaningText ha meaning) hnot heq).2
  cases meaning <;> simp [meaningText, Sign.text] at hmeaning

theorem pluralInside_eq (name : String) (offset : Int) : pluralInside name offset =
    "PLURAL ".toList ++ (name.toList ++ ' ' :: ("offset=".toList ++ (toString offset).toList)) := by
  simp only [pluralInside, String.toList_append, List.append_assoc]
  rfl

theorem selectInside_eq (name : String) : selectInside name = "SELECT ".toList ++ name.toList := by
  rw [selectInside, String.toList_append]

theorem isOpening_plural {name : String} (h : IsName name) (offset : Int) :
    IsOpening (pluralInside name offset) := by
  rw [pluralInside_eq]
  refine ⟨⟨fun hmem => ?_, ?_⟩, List.mem_append_left _ (by decide)⟩
  · simp only [List.mem_append, List.mem_cons] at hmem
    rcases hmem with hmem | hmem | hmem | hmem | hmem
    · exact absurd hmem (by decide)
    · exact not_mem_of_isName h (by decide) hmem
    · exact absurd hmem (by decide)
    · exact absurd hmem (by decide)
    · exact brace_not_mem_int offset hmem
  · rintro ⟨rest, hrest⟩
    simp [Sign.quoteStart] at hrest

theorem isOpening_select {name : String} (h : IsName name) : IsOpening (selectInside name) := by
  rw [selectInside_eq]
  refine ⟨⟨fun hmem => ?_, ?_⟩, List.mem_append_left _ (by decide)⟩
  · rcases List.mem_append.1 hmem with hmem | hmem
    · exact absurd hmem (by decide)
    · exact not_mem_of_isName h (by decide) hmem
  · rintro ⟨rest, hrest⟩
    simp [Sign.quoteStart] at hrest

theorem pluralInside_inj {name name' : String} {offset offset' : Int} (h : IsName name)
    (h' : IsName name') (heq : pluralInside name offset = pluralInside name' offset') :
    name = name' ∧ offset = offset' := by
  rw [pluralInside_eq, pluralInside_eq, List.append_right_inj] at heq
  have hspace : ∀ {name : String}, IsName name → ∀ c ∈ name.toList, ¬ c = ' ' :=
    fun h c hc heq => not_mem_of_isName h (by decide) (heq ▸ hc)
  obtain ⟨hname, -, hoffset⟩ := append_cons_inj (P := (· = ' ')) (hspace h) (hspace h') rfl rfl heq
  exact ⟨String.toList_inj.1 hname,
    toString_int_inj (String.toList_inj.1 (List.append_cancel_left hoffset))⟩

/-! ### All messages -/

/-- An unambiguous outline and the meaning are read back from the canonical text. -/
theorem texts_append_meaningText_inj {o o' : Outline} {meaning meaning' : Option String}
    (h : o.Formed) (h' : o'.Formed) (hshow : o.Unambiguous) (hshow' : o'.Unambiguous)
    (heq : Sign.texts o.signs ++ meaningText meaning = Sign.texts o'.signs ++ meaningText meaning') :
    meaning = meaning' ∧ o = o' := by
  cases o with
  | plain pieces =>
    cases o' with
    | plain pieces' =>
      obtain ⟨rfl, rfl⟩ := plain_inj h h' hshow hshow' heq
      exact ⟨rfl, rfl⟩
    | plural name' offset' cases' =>
      exact absurd heq (plain_ne_choice h hshow (isOpening_plural h'.1 offset'))
    | select name' cases' => exact absurd heq (plain_ne_choice h hshow (isOpening_select h'.1))
  | plural name offset cases =>
    cases o' with
    | plain pieces' =>
      exact absurd heq.symm (plain_ne_choice h' hshow' (isOpening_plural h.1 offset))
    | plural name' offset' cases' =>
      obtain ⟨hinside, rfl, hmeaning⟩ := choice_inj (isOpening_plural h.1 offset)
        (isOpening_plural h'.1 offset') (.inl rfl) (.inl rfl) h.2 h'.2 hshow hshow' heq
      obtain ⟨rfl, rfl⟩ := pluralInside_inj h.1 h'.1 hinside
      exact ⟨meaningText_inj hmeaning, rfl⟩
    | select name' cases' =>
      obtain ⟨hinside, -, -⟩ := choice_inj (isOpening_plural h.1 offset)
        (isOpening_select h'.1) (.inl rfl) (.inr rfl) h.2 h'.2 hshow hshow' heq
      rw [pluralInside_eq, selectInside_eq] at hinside
      simp at hinside
  | select name cases =>
    cases o' with
    | plain pieces' => exact absurd heq.symm (plain_ne_choice h' hshow' (isOpening_select h.1))
    | plural name' offset' cases' =>
      obtain ⟨hinside, -, -⟩ := choice_inj (isOpening_select h.1) (isOpening_plural h'.1 offset')
        (.inr rfl) (.inl rfl) h.2 h'.2 hshow hshow' heq
      rw [pluralInside_eq, selectInside_eq] at hinside
      simp at hinside
    | select name' cases' =>
      obtain ⟨hinside, rfl, hmeaning⟩ := choice_inj (isOpening_select h.1)
        (isOpening_select h'.1) (.inr rfl) (.inr rfl) h.2 h'.2 hshow hshow' heq
      rw [selectInside_eq, selectInside_eq, List.append_right_inj, String.toList_inj] at hinside
      exact ⟨meaningText_inj hmeaning, by rw [hinside]⟩

end Outline

end Message

/-! ### The messages of file sets -/

namespace FileSet

open Message

section Messages

variable {c c' : Compiler} {sources sources' : List Source} {set set' : FileSet} {msg msg' : Node}

theorem outline_eq_of_canonical_eq (hparse : (c.parse sources).1 = .ok set)
    (hparse' : (c'.parse sources').1 = .ok set') (hmsg : msg ∈ set.messages)
    (hmsg' : msg' ∈ set'.messages) (h : (outline msg).Unambiguous)
    (h' : (outline msg').Unambiguous) (heq : canonical msg = canonical msg') :
    meaning? msg = meaning? msg' ∧ outline msg = outline msg' := by
  obtain ⟨hformed, hcontent⟩ := formed_of_mem_messages hparse hmsg
  obtain ⟨hformed', hcontent'⟩ := formed_of_mem_messages hparse' hmsg'
  rw [canonical_eq hformed hcontent, canonical_eq hformed' hcontent'] at heq
  exact Outline.texts_append_meaningText_inj (formed_outline hformed hcontent)
    (formed_outline hformed' hcontent') h h' heq

/-- Two messages that are read, from one file set or from two, whose outlines are
    unambiguous, have one canonical text just in case they have one meaning and
    one outline. -/
theorem canonical_eq_iff (hparse : (c.parse sources).1 = .ok set)
    (hparse' : (c'.parse sources').1 = .ok set') (hmsg : msg ∈ set.messages)
    (hmsg' : msg' ∈ set'.messages) (h : (outline msg).Unambiguous)
    (h' : (outline msg').Unambiguous) :
    canonical msg = canonical msg' ↔ meaning? msg = meaning? msg' ∧ outline msg = outline msg' := by
  refine ⟨outline_eq_of_canonical_eq hparse hparse' hmsg hmsg' h h', ?_⟩
  rintro ⟨hmeaning, houtline⟩
  obtain ⟨hformed, hcontent⟩ := formed_of_mem_messages hparse hmsg
  obtain ⟨hformed', hcontent'⟩ := formed_of_mem_messages hparse' hmsg'
  rw [canonical_eq hformed hcontent, canonical_eq hformed' hcontent', hmeaning, houtline]

end Messages

/-- A file with one template of a body. -/
def fileOf (name body : String) : Source :=
  { path := name ++ ".soy"
    text := "\x7bnamespace " ++ name ++ "\x7d\n\x7btemplate .t\x7d\n" ++ body ++
      "\n\x7b/template\x7d\n" }

/-- A select, and a text that spells its canonical text. -/
def spelledSelect : Source :=
  fileOf "n" ("\x7bmsg desc=\"\"\x7d\x7bselect $g\x7d\x7bdefault\x7dx\x7b/select\x7d\x7b/msg\x7d" ++
    "\x7bmsg desc=\"\"\x7d\x7blb\x7dSELECT G\x7brb\x7d\x7blb\x7dDEFAULT\x7brb\x7dx" ++
    "\x7blb\x7d/SELECT\x7brb\x7d\x7b/msg\x7d")

/-- The canonical texts differ: the braces of the text are escaped. -/
theorem canonical_eq_iff_spelledSelect : ∃ set msg msg',
    (Compiler.parse {} [spelledSelect]).1 = .ok set ∧ set.messages = [msg, msg'] ∧
      (outline msg).Unambiguous ∧ (outline msg').Unambiguous ∧ canonical msg ≠ canonical msg' := by
  have hcheck : (Compiler.parse {} [spelledSelect]).1.toOption.any fun set =>
      let messages := (set.templates.flatMap fun t => Tree.groups t.body).flatMap Tree.children
      messages.length = 2 ∧ (∀ msg ∈ messages, (outline msg).Unambiguous) ∧
        (messages.map outline).Nodup := by decide +kernel
  obtain ⟨set, hparse, hset⟩ := any_toOption.1 hcheck
  rw [← messages_eq_flatMap hparse] at hset
  obtain ⟨hlength, hunambiguous, hnodup⟩ := of_decide_eq_true hset
  obtain ⟨msg, msg', hmessages⟩ := List.length_eq_two.1 hlength
  have hmsg : msg ∈ set.messages := by simp [hmessages]
  have hmsg' : msg' ∈ set.messages := by simp [hmessages]
  have hne : outline msg ≠ outline msg' := by simpa [hmessages] using hnodup
  have h := hunambiguous msg hmsg
  have h' := hunambiguous msg' hmsg'
  refine ⟨set, msg, msg', hparse, hmessages, h, h', fun heq => hne ?_⟩
  exact ((canonical_eq_iff hparse hparse hmsg hmsg' h h').1 heq).2

/-- The messages have one canonical text, but not one meaning and outline. -/
def Collide (msg msg' : Node) : Prop :=
  canonical msg = canonical msg' ∧ ¬ (meaning? msg = meaning? msg' ∧ outline msg = outline msg')

instance (msg msg' : Node) : Decidable (Collide msg msg') :=
  inferInstanceAs (Decidable (_ ∧ ¬ (_ ∧ _)))

/-- A value that reads like the end of a case, a placeholder that reads like the
    default case, and a text that reads like a meaning; each in a file with a
    message that it is taken for. -/
def collisions : List Source :=
  [fileOf "a" ("\x7bmsg desc=\"\"\x7d\x7bselect $g\x7d\x7bcase 'a\\'\x7dx\x7bCASE \\'b'\x7dy" ++
      "\x7bdefault\x7dz\x7b/select\x7d\x7b/msg\x7d" ++
      "\x7bmsg desc=\"\"\x7d\x7bselect $g\x7d\x7bcase 'a'\x7dx\x7bcase 'b'\x7dy" ++
      "\x7bdefault\x7dz\x7b/select\x7d\x7b/msg\x7d"),
    fileOf "b" ("\x7bmsg desc=\"\"\x7d\x7bselect $g\x7d\x7bcase 'a'\x7dx\x7b$default\x7dy" ++
      "\x7bdefault\x7dz\x7b/select\x7d\x7b/msg\x7d" ++
      "\x7bmsg desc=\"\"\x7d\x7bselect $g\x7d\x7bcase 'a'\x7dx\x7bdefault\x7dy\x7b$default\x7dz" ++
      "\x7b/select\x7d\x7b/msg\x7d"),
    fileOf "m" ("\x7bmsg desc=\"\"\x7da\x00b\x7b/msg\x7d" ++
      "\x7bmsg desc=\"\" meaning=\"b\"\x7da\x7b/msg\x7d")]

/-- The messages are six, and each collides with its neighbour. -/
def collideInPairs : List Node → Bool
  | [a, a', b, b', m, m'] => decide (Collide a a' ∧ Collide b b' ∧ Collide m m')
  | _ => false

/-- Each way in which an outline can be ambiguous lets two messages collide. -/
theorem exists_collisions : ∃ set a a' b b' m m',
    (Compiler.parse {} collisions).1 = .ok set ∧ set.messages = [a, a', b, b', m, m'] ∧
      Collide a a' ∧ Collide b b' ∧ Collide m m' := by
  have hcheck : (Compiler.parse {} collisions).1.toOption.any fun set =>
      collideInPairs ((set.templates.flatMap fun t => Tree.groups t.body).flatMap Tree.children) := by
    decide +kernel
  obtain ⟨set, hparse, hset⟩ := any_toOption.1 hcheck
  rw [← messages_eq_flatMap hparse] at hset
  unfold collideInPairs at hset
  split at hset
  · rename_i a a' b b' m m' hmessages
    exact ⟨set, a, a', b, b', m, m', hparse, hmessages, of_decide_eq_true hset⟩
  · cases hset

end FileSet

end Stencil
