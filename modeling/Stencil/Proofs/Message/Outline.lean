/-
  Stencil/Proofs/Message/Outline.lean
  ===================================
  **What the canonical text of a message says.**

  The outline of a message is the pieces that a translator sees, or the plural
  or select with its cases.  The canonical text spells the signs of the outline,
  and then the meaning (`canonical_eq`).  The outline of a message that is read
  is formed: its pieces can be told from their signs, and the default case is
  the last one.
-/
import Stencil.Message.Extraction
import Stencil.Proofs.Compiler.FileSets
import Stencil.Proofs.Message.Formed
import Stencil.Proofs.Message.Signs

namespace Stencil

namespace Message

variable {α : Type}

/-! ### Pieces and their signs -/

def pieceSigns : TranslationPart → List Sign
  | .text text => text.toList.map .char
  | .placeholder name => [.tag name.toList]

def signs (pieces : List TranslationPart) : List Sign := pieces.flatMap pieceSigns

/-- A text put in front of pieces: text joins text. -/
def joinText (text : String) : List TranslationPart → List TranslationPart
  | .text next :: rest => .text (text ++ next) :: rest
  | pieces => .text text :: pieces

/-- A sign put in front of the pieces that other signs stand for. -/
def consSign : Sign → List TranslationPart → List TranslationPart
  | .char c, pieces => joinText (String.singleton c) pieces
  | .tag name, pieces => .placeholder (String.ofList name) :: pieces

def piecesOf (signs : List Sign) : List TranslationPart := signs.foldr consSign []

theorem joinText_joinText (text next : String) (pieces : List TranslationPart) :
    joinText text (joinText next pieces) = joinText (text ++ next) pieces := by
  match pieces with
  | [] | .placeholder _ :: _ => rfl
  | .text _ :: _ => rw [joinText, joinText, joinText, String.append_assoc]

theorem signs_cons (piece : TranslationPart) (pieces : List TranslationPart) :
    signs (piece :: pieces) = pieceSigns piece ++ signs pieces := List.flatMap_cons

theorem signs_joinText (text : String) (pieces : List TranslationPart) :
    signs (joinText text pieces) = text.toList.map .char ++ signs pieces := by
  match pieces with
  | [] | .placeholder _ :: _ => rfl
  | .text next :: rest =>
    rw [joinText, signs_cons, signs_cons, pieceSigns, pieceSigns, String.toList_append,
      List.map_append, List.append_assoc]

theorem placeholder_mem_joinText {name text : String} {pieces : List TranslationPart} :
    .placeholder name ∈ joinText text pieces ↔ .placeholder name ∈ pieces := by
  match pieces with
  | [] | .placeholder _ :: _ | .text _ :: _ => simp [joinText]

theorem piecesOf_chars_append {cs : List Char} (hne : cs ≠ []) (signs : List Sign) :
    piecesOf (cs.map .char ++ signs) = joinText (String.ofList cs) (piecesOf signs) := by
  induction cs with
  | nil => exact absurd rfl hne
  | cons c cs ih =>
    have hcons : piecesOf ((c :: cs).map .char ++ signs) =
        joinText (String.singleton c) (piecesOf (cs.map .char ++ signs)) := rfl
    have hsingle : String.singleton c ++ String.ofList cs = String.ofList (c :: cs) := by
      rw [String.ext_iff, String.toList_append, String.toList_singleton, String.toList_ofList,
        String.toList_ofList]
      rfl
    rw [hcons]
    by_cases hnil : cs = []
    · rw [hnil]
      rfl
    · rw [ih hnil, joinText_joinText, hsingle]

/-- Pieces that can be told from their signs, with names of placeholders. -/
structure FormedPieces (pieces : List TranslationPart) : Prop where
  piecesOf_signs : piecesOf (signs pieces) = pieces
  named : ∀ name, .placeholder name ∈ pieces → IsName name

theorem FormedPieces.eq_of_signs_eq {pieces pieces' : List TranslationPart}
    (h : FormedPieces pieces) (h' : FormedPieces pieces') (heq : signs pieces = signs pieces') :
    pieces = pieces' := by
  rw [← h.piecesOf_signs, heq, h'.piecesOf_signs]

/-! ### The pieces of a body -/

theorem consPiece_of_msgText {part : Tree α} {text : String} (h : part.content = .msgText text)
    (pieces : List TranslationPart) : consPiece part pieces = joinText text pieces := by
  match pieces with
  | [] | .placeholder _ :: _ | .text _ :: _ =>
    simp only [consPiece, h]
    rfl

theorem consPiece_of_placeholder {part : Tree α} {name : String} {key : PlaceholderKey}
    (h : part.content = .placeholder name key) (pieces : List TranslationPart) :
    consPiece part pieces = .placeholder name :: pieces := by
  simp only [consPiece, h]

theorem sourcePieces_cons (part : Tree α) (rest : List (Tree α)) :
    sourcePieces (part :: rest) = consPiece part (sourcePieces rest) := rfl

theorem canonicalPart_of_msgText {part : Tree α} {text : String} (h : part.content = .msgText text) :
    canonicalPart part = text.toList.flatMap escapeChar := by
  cases part
  rw [Tree.content_node] at h
  rw [h, canonicalPart]

theorem canonicalPart_of_placeholder {part : Tree α} {name : String} {key : PlaceholderKey}
    (h : part.content = .placeholder name key) : canonicalPart part = canonicalTag name := by
  cases part
  rw [Tree.content_node] at h
  rw [h, canonicalPart]

theorem formedPieces_sourcePieces {body : List (Tree α)}
    (hpieces : ∀ part ∈ body, IsPiece part.content) (hnamed : ∀ part ∈ body, Named part.content) :
    FormedPieces (sourcePieces body) := by
  induction body with
  | nil => exact ⟨rfl, fun _ hname => (nomatch hname)⟩
  | cons part rest ih =>
    obtain ⟨hsigns, hnames⟩ := ih (fun p hp => hpieces p (List.mem_cons_of_mem _ hp))
      fun p hp => hnamed p (List.mem_cons_of_mem _ hp)
    rw [sourcePieces_cons]
    rcases hpieces part List.mem_cons_self with ⟨text, hcontent, hne⟩ | ⟨name, key, hcontent⟩
    · rw [consPiece_of_msgText hcontent]
      refine ⟨?_, fun name hname => hnames name (placeholder_mem_joinText.1 hname)⟩
      have htext : text.toList ≠ [] := fun hnil => hne (String.toList_eq_nil_iff.1 hnil)
      rw [signs_joinText, piecesOf_chars_append htext, hsigns, String.ofList_toList]
    · rw [consPiece_of_placeholder hcontent]
      have hname : IsName name := by
        have hname := hnamed part List.mem_cons_self
        rwa [hcontent] at hname
      refine ⟨?_, fun other hother => ?_⟩
      · have hcons : piecesOf (signs (.placeholder name :: sourcePieces rest)) =
          .placeholder (String.ofList name.toList) :: piecesOf (signs (sourcePieces rest)) := rfl
        rw [hcons, String.ofList_toList, hsigns]
      · rcases List.mem_cons.1 hother with heq | hother
        · cases heq
          exact hname
        · exact hnames other hother

/-- The canonical text of a plain body spells the signs of its pieces. -/
theorem canonicalBody_eq_texts {body : List (Tree α)}
    (hpieces : ∀ part ∈ body, IsPiece part.content) :
    canonicalBody body = Sign.texts (signs (sourcePieces body)) := by
  induction body with
  | nil => rfl
  | cons part rest ih =>
    rw [canonicalBody, ih fun p hp => hpieces p (List.mem_cons_of_mem _ hp), sourcePieces_cons]
    rcases hpieces part List.mem_cons_self with ⟨text, hcontent, -⟩ | ⟨name, key, hcontent⟩
    · rw [consPiece_of_msgText hcontent, canonicalPart_of_msgText hcontent, signs_joinText,
        Sign.texts_append, Sign.texts_chars]
    · rw [consPiece_of_placeholder hcontent, canonicalPart_of_placeholder hcontent]
      rfl

/-! ### Outlines -/

/-- The label of a case and the pieces in it. -/
abbrev CaseOutline := CaseLabel × List TranslationPart

/-- What the canonical text of a message is about, apart from its meaning. -/
inductive Outline where
  | plain (pieces : List TranslationPart)
  | plural (name : String) (offset : Int) (cases : List CaseOutline)
  | select (name : String) (cases : List CaseOutline)
deriving DecidableEq, Repr

def caseOutline? (part : Tree α) : Option CaseOutline :=
  match part.content with
  | .case label => some (label, sourcePieces part.children)
  | _ => none

def outline (msg : Tree α) : Outline :=
  match msg.children with
  | [part] =>
    match part.content with
    | .plural _ offset name => .plural name offset (part.children.filterMap caseOutline?)
    | .select _ name => .select name (part.children.filterMap caseOutline?)
    | _ => .plain (sourcePieces msg.children)
  | _ => .plain (sourcePieces msg.children)

/-- What stands in the tag of a case. -/
def labelInside : CaseLabel → String
  | .count n => "CASE =" ++ toString n
  | .value text => "CASE '" ++ text ++ "'"
  | .default => "DEFAULT"

def caseSigns (case : CaseOutline) : List Sign := .tag (labelInside case.1).toList :: signs case.2

namespace Outline

/-- What stands in the tag that a plural begins with. -/
def pluralInside (name : String) (offset : Int) : List Char :=
  ("PLURAL " ++ name ++ " offset=" ++ toString offset).toList

/-- What stands in the tag that a select begins with. -/
def selectInside (name : String) : List Char := ("SELECT " ++ name).toList

def signs : Outline → List Sign
  | plain pieces => Message.signs pieces
  | plural name offset cases =>
    .tag (pluralInside name offset) :: cases.flatMap caseSigns ++ [.tag "/PLURAL".toList]
  | select name cases =>
    .tag (selectInside name) :: cases.flatMap caseSigns ++ [.tag "/SELECT".toList]

/-- Cases of formed pieces, the default case last. -/
structure FormedCases (cases : List CaseOutline) : Prop where
  default : ∃ labelled last, cases = labelled ++ [(.default, last)] ∧
    ∀ case ∈ labelled, case.1 ≠ .default
  pieces : ∀ case ∈ cases, FormedPieces case.2

/-- An outline as it is read from a message. -/
def Formed : Outline → Prop
  | plain pieces => FormedPieces pieces
  | plural name _ cases | select name cases => IsName name ∧ FormedCases cases

end Outline

/-! ### The outline of a message that is read -/

def meaningText : Option String → List Char
  | some meaning => '\x00' :: meaning.toList
  | none => []

/-- Nodes that are cases of plain bodies. -/
def AreCases (cases : List (Tree α)) : Prop :=
  ∀ case ∈ cases, ∃ label, case.content = .case label ∧
    IsPlain (case.children.map Tree.content) ∧ ∀ part ∈ case.children, Named part.content

theorem caseOutline?_of_case {case : Tree α} {label : CaseLabel} (h : case.content = .case label) :
    caseOutline? case = some (label, sourcePieces case.children) := by
  rw [caseOutline?, h]

theorem IsPlain.isPiece {body : List (Tree α)} (h : IsPlain (body.map Tree.content)) :
    ∀ part ∈ body, IsPiece part.content := fun _ hpart => h.pieces _ (List.mem_map_of_mem hpart)

theorem canonicalBody_cases {cases : List (Tree α)} (h : AreCases cases) :
    canonicalBody cases = Sign.texts ((cases.filterMap caseOutline?).flatMap caseSigns) := by
  induction cases with
  | nil => rfl
  | cons case rest ih =>
    obtain ⟨label, hcontent, hplain, -⟩ := h case List.mem_cons_self
    have hcase : canonicalPart case = Sign.texts (caseSigns (label, sourcePieces case.children)) := by
      have hbody := canonicalBody_eq_texts hplain.isPiece
      obtain ⟨mark, content, children⟩ := case
      rw [Tree.content_node] at hcontent
      rw [Tree.children_node] at hbody ⊢
      rw [hcontent, canonicalPart, hbody]
      cases label <;> rfl
    rw [canonicalBody, ih fun c hc => h c (List.mem_cons_of_mem _ hc), hcase,
      List.filterMap_cons_some (caseOutline?_of_case hcontent), List.flatMap_cons,
      Sign.texts_append]

theorem formedCases_of_areCases {cases : List (Tree α)} (h : AreCases cases)
    (hlast : DefaultLast (cases.map Tree.content)) :
    Outline.FormedCases (cases.filterMap caseOutline?) := by
  constructor
  · obtain ⟨labelled, hcases, hlabelled⟩ := hlast
    obtain ⟨labelled', default', rfl, rfl, hdefault⟩ := List.map_eq_append_iff.1 hcases
    obtain ⟨last, rfl, hcontent⟩ := List.map_eq_singleton_iff.1 hdefault
    refine ⟨labelled'.filterMap caseOutline?, sourcePieces last.children, ?_, ?_⟩
    · rw [List.filterMap_append, List.filterMap_cons_some (caseOutline?_of_case hcontent)]
      rfl
    · intro case hcase
      obtain ⟨part, hpart, hsome⟩ := List.mem_filterMap.1 hcase
      obtain ⟨label, hlabel, hne⟩ := hlabelled _ (List.mem_map_of_mem hpart)
      rw [caseOutline?_of_case hlabel] at hsome
      cases hsome
      exact hne
  · intro case hcase
    obtain ⟨part, hpart, hsome⟩ := List.mem_filterMap.1 hcase
    obtain ⟨label, hlabel, hplain, hnamed⟩ := h part hpart
    rw [caseOutline?_of_case hlabel] at hsome
    cases hsome
    exact formedPieces_sourcePieces hplain.isPiece hnamed

/-- A message body that is read is plain, or it is a plural or select. -/
theorem outline_cases {msg : Tree α} (h : Formed msg)
    (hmsg : ∃ desc meaning hidden, msg.content = .msg desc meaning hidden) :
    (IsPlain (msg.children.map Tree.content) ∧ outline msg = .plain (sourcePieces msg.children)) ∨
      ∃ choice, msg.children = [choice] ∧ choice.content.isChoice ∧ Named choice.content ∧
        DefaultLast (choice.children.map Tree.content) ∧ AreCases choice.children := by
  obtain ⟨desc, meaning, hidden, hcontent⟩ := hmsg
  have harranged := h.root.arranged
  rw [hcontent] at harranged
  rcases harranged with hplain | ⟨content, hchildren, hchoice⟩
  · refine .inl ⟨hplain, ?_⟩
    rw [outline]
    split
    · rename_i part hchildren
      have hpiece := hplain.isPiece part (by rw [hchildren]; exact List.mem_cons_self)
      split
      · rename_i hplural
        rw [hplural] at hpiece
        simp [IsPiece] at hpiece
      · rename_i hselect
        rw [hselect] at hpiece
        simp [IsPiece] at hpiece
      · rfl
    · rfl
  · obtain ⟨choice, hchoices, rfl⟩ := List.map_eq_singleton_iff.1 hchildren
    have hformed : Formed choice := h.child (by rw [hchoices]; exact List.mem_cons_self)
    have hlast : DefaultLast (choice.children.map Tree.content) := by
      have harranged := hformed.root.arranged
      cases hkind : choice.content <;> rw [hkind] at hchoice harranged <;>
        first | exact harranged | cases hchoice
    refine .inr ⟨choice, hchoices, hchoice, hformed.root.named, hlast, fun case hcase => ?_⟩
    obtain ⟨labelled, hcases, hlabelled⟩ := hlast
    have hlabel : ∃ label, case.content = .case label := by
      have hmem := List.mem_map_of_mem (f := Tree.content) hcase
      rw [hcases, List.mem_append, List.mem_singleton] at hmem
      rcases hmem with hmem | hmem
      · obtain ⟨label, hlabel, -⟩ := hlabelled _ hmem
        exact ⟨label, hlabel⟩
      · exact ⟨.default, hmem⟩
    obtain ⟨label, hlabel⟩ := hlabel
    have hcase := hformed.child hcase
    have hplain := hcase.root.arranged
    rw [hlabel] at hplain
    exact ⟨label, hlabel, hplain, fun part hpart => (hcase.child hpart).root.named⟩

theorem formed_outline {msg : Tree α} (h : Formed msg)
    (hmsg : ∃ desc meaning hidden, msg.content = .msg desc meaning hidden) :
    (outline msg).Formed := by
  rcases outline_cases h hmsg with ⟨hplain, houtline⟩ | ⟨choice, hchildren, hchoice, hname, hlast, hcases⟩
  · rw [houtline]
    exact formedPieces_sourcePieces hplain.isPiece fun part hpart => (h.child hpart).root.named
  · have hformed := formedCases_of_areCases hcases hlast
    simp only [outline, hchildren]
    cases hkind : choice.content <;> rw [hkind] at hchoice hname <;>
      first | exact ⟨hname, hformed⟩ | cases hchoice

/-- The canonical text of a message spells its outline and then its meaning. -/
theorem canonical_eq {msg : Tree α} (h : Formed msg)
    (hmsg : ∃ desc meaning hidden, msg.content = .msg desc meaning hidden) :
    canonical msg = Sign.texts (outline msg).signs ++ meaningText (meaning? msg) := by
  have hcanonical : canonical msg = canonicalBody msg.children ++ meaningText (meaning? msg) := by
    rw [canonical]
    cases meaning? msg <;> rfl
  rw [hcanonical, List.append_left_inj]
  rcases outline_cases h hmsg with ⟨hplain, houtline⟩ | ⟨choice, hchildren, hchoice, -, -, hcases⟩
  · rw [houtline]
    exact canonicalBody_eq_texts hplain.isPiece
  · have hbody := canonicalBody_cases hcases
    simp only [outline, hchildren, canonicalBody, List.append_nil]
    obtain ⟨mark, content, children⟩ := choice
    rw [Tree.content_node] at hchoice ⊢
    rw [Tree.children_node] at hbody ⊢
    cases content with
    | plural expr offset name =>
      dsimp only
      rw [canonicalPart, hbody, Outline.signs, Sign.texts_append]
      rfl
    | select expr name =>
      dsimp only
      rw [canonicalPart, hbody, Outline.signs, Sign.texts_append]
      rfl
    | _ => cases hchoice

end Message

/-! ### The messages of a file set -/

namespace FileSet

/-- The messages of all groups, those inside of placeholders included. -/
def messages (set : FileSet) : List Node := set.msgGroups.flatMap Tree.children

variable {c : Compiler} {sources : List Source} {set : FileSet}

theorem formed_of_mem_templates (hparse : (c.parse sources).1 = .ok set) {t : Template Mark}
    (ht : t ∈ set.templates) : ∀ n ∈ t.body, Message.Formed n ∧ n.content.isStatement :=
  Message.formed_of_isPlacedBody (Compiler.isPlacedBody_of_parse hparse t ht)

/-- A walk through a file set that is read comes by all groups. -/
theorem msgGroups_eq_flatMap (hparse : (c.parse sources).1 = .ok set) :
    set.msgGroups = set.templates.flatMap fun t => Tree.groups t.body := by
  refine List.flatMap_congr fun t ht => ?_
  have hbody := formed_of_mem_templates hparse ht
  exact Tree.msgGroups_eq_groups (fun n hn => (hbody n hn).1.shaped) fun n hn => (hbody n hn).2

theorem messages_eq_flatMap (hparse : (c.parse sources).1 = .ok set) : set.messages =
    (set.templates.flatMap fun t => Tree.groups t.body).flatMap Tree.children := by
  rw [messages, msgGroups_eq_flatMap hparse]

/-- The messages of a file set that is read are well formed. -/
theorem formed_of_mem_messages (hparse : (c.parse sources).1 = .ok set) {msg : Node}
    (h : msg ∈ set.messages) :
    Message.Formed msg ∧ ∃ desc meaning hidden, msg.content = .msg desc meaning hidden := by
  rw [messages_eq_flatMap hparse] at h
  obtain ⟨group, hgroup, hmsg⟩ := List.mem_flatMap.1 h
  obtain ⟨t, ht, hgroup⟩ := List.mem_flatMap.1 hgroup
  obtain ⟨hgroup, hcontent⟩ := Tree.mem_groups.1 hgroup
  obtain ⟨root, hroot, hgroup⟩ := Tree.mem_preorderAll.1 hgroup
  have hformed : Message.Formed group := (formed_of_mem_templates hparse ht root hroot).1.below hgroup
  refine ⟨hformed.child hmsg, ?_⟩
  have hholds := hformed.root.shaped msg hmsg
  rw [Content.eq_msgGroup_of_isMsgGroup hcontent] at hholds
  exact Content.exists_msg_of_holds hholds

end FileSet

end Stencil
