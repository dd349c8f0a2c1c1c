/-
  Stencil/Proofs/Message/Bare.lean
  ================================
  **Messages up to identities and places.**

  The canonical text of a message, the pieces that a translator sees of it and
  the names of its placeholders do not depend on identities and places; and
  messages that only differ in these have statements that only differ in these.
-/
import Stencil.Message.Extraction
import Stencil.Proofs.Message.Form
import Stencil.Proofs.Message.Replacement

namespace Stencil.Message

variable {α β : Type}

/-! ### Canonical texts -/

mutual

theorem canonicalPart_bare : (t : Tree α) → canonicalPart t.bare = canonicalPart t
  | .node mark content children => by
    have hchildren := canonicalBody_map_bare children
    rw [Tree.bare_node]
    cases content with
    | placeholder name key => cases key <;> rfl
    | plural | select | case => simp only [Content.bare, canonicalPart, hchildren]
    | _ => rfl

theorem canonicalBody_map_bare : (ts : List (Tree α)) →
    canonicalBody (ts.map Tree.bare) = canonicalBody ts
  | [] => rfl
  | t :: rest => by
    rw [List.map_cons, canonicalBody, canonicalBody, canonicalPart_bare t,
      canonicalBody_map_bare rest]

end

theorem meaning?_bare (msg : Tree α) : meaning? msg.bare = meaning? msg := by
  rw [meaning?, meaning?, Tree.content_bare]
  cases msg.content with
  | placeholder name key => cases key <;> rfl
  | _ => rfl

theorem fingerprint_bare (msg : Tree α) : fingerprint msg.bare = fingerprint msg := by
  rw [fingerprint, canonical, Tree.children_bare, canonicalBody_map_bare, meaning?_bare]
  rfl

/-! ### Pieces -/

theorem consPiece_bare (part : Tree α) (pieces : List TranslationPart) :
    consPiece part.bare pieces = consPiece part pieces := by
  simp only [consPiece, Tree.content_bare]
  cases part.content with
  | placeholder name key => cases key <;> rfl
  | _ => rfl

theorem sourcePieces_map_bare (body : List (Tree α)) :
    sourcePieces (body.map Tree.bare) = sourcePieces body := by
  rw [sourcePieces, List.foldr_map]
  exact congrArg (fun f => body.foldr f []) (funext fun part => funext (consPiece_bare part))

theorem isChoiceBody_map_bare (body : List (Tree α)) :
    isChoiceBody (body.map Tree.bare) = isChoiceBody body := by
  match body with
  | [] | _ :: _ :: _ => rfl
  | [part] =>
    change part.bare.content.isChoice = part.content.isChoice
    rw [Tree.content_bare, Content.isChoice_bare]

theorem isPlain_map_bare (parts : List Content) :
    IsPlain (parts.map Content.bare) ↔ IsPlain parts := by
  rw [← isPlain_form, ← isPlain_form parts, List.map_map]
  have hcomp : Content.form ∘ Content.bare = Content.form := funext Content.form_bare
  rw [hcomp]

/-! ### Placeholders -/

theorem placeholderName?_bare (part : Tree α) :
    placeholderName? part.bare = placeholderName? part := by
  rw [placeholderName?, placeholderName?, Tree.content_bare]
  cases part.content with
  | placeholder name key => cases key <;> rfl
  | _ => rfl

mutual

theorem partPlaceholders_bare :
    (t : Tree α) → partPlaceholders t.bare = (partPlaceholders t).map Tree.bare
  | .node mark content children => by
    have hchildren := placeholders_map_bare children
    rw [Tree.bare_node]
    cases content with
    | placeholder name key => cases key <;> simp [Content.bare, partPlaceholders, Tree.bare_node]
    | plural | select | case => simp only [Content.bare, partPlaceholders, hchildren]
    | _ => rfl

theorem placeholders_map_bare : (ts : List (Tree α)) →
    placeholders (ts.map Tree.bare) = (placeholders ts).map Tree.bare
  | [] => rfl
  | t :: rest => by
    rw [List.map_cons, placeholders, placeholders, List.map_append, partPlaceholders_bare t,
      placeholders_map_bare rest]

end

/-! ### Statements -/

def isHtmlTag : Content → Bool
  | .htmlTag _ _ _ => true
  | _ => false

theorem isHtmlTag_bare (content : Content) : isHtmlTag content.bare = isHtmlTag content := by
  cases content with
  | placeholder name key => cases key <;> rfl
  | _ => rfl

theorem flatten_eq (n : Node) :
    flatten n = if isHtmlTag n.content then flattenAll n.children else [n] := by
  obtain ⟨mark, content, children⟩ := n
  rw [flatten.eq_def]
  cases content <;> rfl

mutual

theorem map_bare_flatten : (n n' : Node) → n.bare = n'.bare →
    (flatten n).map Tree.bare = (flatten n').map Tree.bare
  | .node mark content children, .node mark' content' children', h => by
    obtain ⟨hcontent, hchildren⟩ := Tree.bare_eq_iff.1 h
    have hall := map_bare_flattenAll children children' hchildren
    have htag : isHtmlTag content = isHtmlTag content' := by
      rw [← isHtmlTag_bare, ← isHtmlTag_bare content']
      exact congrArg isHtmlTag hcontent
    rw [flatten_eq, flatten_eq, Tree.content_node, Tree.content_node, htag]
    split
    · exact hall
    · rw [List.map_singleton, List.map_singleton, h]

theorem map_bare_flattenAll : (ns ns' : List Node) → ns.map Tree.bare = ns'.map Tree.bare →
    (flattenAll ns).map Tree.bare = (flattenAll ns').map Tree.bare
  | [], [], _ => rfl
  | n :: rest, n' :: rest', h => by
    rw [List.map_cons, List.map_cons, List.cons.injEq] at h
    rw [flattenAll, flattenAll, List.map_append, List.map_append, map_bare_flatten n n' h.1,
      map_bare_flattenAll rest rest' h.2]

end

/-- The statements of a part of a message as it is written. -/
def partStatements (part : Node) : List Node :=
  match part.content with
  | .msgText text => [.leaf part.mark (.rawText text)]
  | .placeholder _ _ => flattenAll part.children
  | _ => []

theorem sourceStatements_eq (msg : Node) :
    sourceStatements msg = msg.children.flatMap partStatements := rfl

theorem map_bare_partStatements_eq (part : Node) : (partStatements part).map Tree.bare =
    match part.content.bare with
    | .msgText text => [.leaf () (.rawText text)]
    | .placeholder _ _ => (flattenAll part.children).map Tree.bare
    | _ => [] := by
  rw [partStatements]
  cases part.content with
  | msgText text => exact congrArg (fun t => [t]) (Tree.bare_leaf _ _)
  | placeholder name key => cases key <;> rfl
  | _ => rfl

theorem map_bare_partStatements {part part' : Node} (h : part.bare = part'.bare) :
    (partStatements part).map Tree.bare = (partStatements part').map Tree.bare := by
  obtain ⟨hcontent, hchildren⟩ := Tree.bare_eq_iff.1 h
  rw [map_bare_partStatements_eq, map_bare_partStatements_eq, hcontent,
    map_bare_flattenAll _ _ hchildren]

theorem map_bare_sourceStatements {msg msg' : Node} (h : msg.bare = msg'.bare) :
    (sourceStatements msg).map Tree.bare = (sourceStatements msg').map Tree.bare := by
  have hparts := Tree.map_bare_eq_iff.1 (Tree.bare_eq_iff.1 h).2
  rw [sourceStatements_eq, sourceStatements_eq]
  generalize msg.children = parts, msg'.children = parts' at hparts
  induction hparts with
  | nil => rfl
  | cons hpart _ ih =>
    rw [List.flatMap_cons, List.flatMap_cons, List.map_append, List.map_append,
      map_bare_partStatements hpart, ih]

end Stencil.Message
