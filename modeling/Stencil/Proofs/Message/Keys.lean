/-
  Stencil/Proofs/Message/Keys.lean
  ================================
  **What the key of a placeholder says about its inside.**

  A shared key is made from what stands in the placeholder: the expression and
  the directive names of a print, or the text of a tag with the expressions of
  its prints in braces.  It leaves out the arguments of directives and where one
  name ends and the next begins; for a tag it leaves out the directives
  altogether and which braces are those of prints.  Placeholders that share a
  key have the same inside just in case they agree in what the key leaves out
  (`gist_eq_iff`).
-/
import Stencil.Proofs.Body.Prints
import Stencil.Proofs.Tree.Gist

namespace Stencil.Message

open Body (IsPrint)

variable {α : Type}

/-! ### Keys from insides -/

/-- A part of a tag as it stands in the key of the tag. -/
def partSpelling (part : Tree α) : List Char :=
  match part.content with
  | .rawText text => text.toList
  | .print expr _ _ => '\x7b' :: (expr.text.toList ++ ['\x7d'])
  | _ => []

/-- Parts of a tag as they stand in the key of the tag. -/
def spelling (parts : List (Tree α)) : List Char := parts.flatMap partSpelling

/-- The key of a placeholder by what stands in it; none for a call. -/
def sharedKey? (inside : Tree α) : Option PlaceholderKey :=
  match inside.content with
  | .print expr directives _ => some (printKey expr directives)
  | .htmlTag _ _ _ => some (tagKey (String.ofList (spelling inside.children)))
  | _ => none

/-- Text and prints, which a tag is made of. -/
def IsTagPart (part : Tree α) : Prop :=
  (∃ text, part.content = .rawText text ∧ part.children = []) ∨
    ∃ expr directives implicit, part.content = .print expr directives implicit ∧ part.children = []

/-- The content of the tag that a text spells. -/
def tagContent (source : List Char) : Content :=
  .htmlTag (OpenTag.element source) (Text.startsWith "</" source) (Text.endsWith "/>" source)

/-- What a node is tells what its key is, if it is a placeholder, and what its
    content is, if it is a print or a tag. -/
def KeyedAt (n : Tree α) : Prop :=
  match n.content with
  | .print expr directives _ => n.children = [] ∧ IsPrint expr directives
  | .htmlTag name isEnd selfEnding =>
    (∀ part ∈ n.children, IsTagPart part) ∧
      Content.htmlTag name isEnd selfEnding = tagContent (spelling n.children)
  | .placeholder _ (.shared text) =>
    ∃ inside, n.children = [inside] ∧ sharedKey? inside = some (.shared text)
  | .placeholder _ (.own _) => ∃ inside, n.children = [inside] ∧ sharedKey? inside = none
  | _ => True

/-- All nodes of a tree tell their keys and contents. -/
def Keyed (t : Tree α) : Prop := ∀ n ∈ t.preorder, KeyedAt n

theorem keyed_iff {t : Tree α} : Keyed t ↔ KeyedAt t ∧ ∀ k ∈ t.children, Keyed k := by
  constructor
  · intro h
    refine ⟨h t (Tree.mem_preorder_self t), fun k hk n hn => h n ?_⟩
    exact Tree.mem_preorder_iff.2 (.inr (Tree.mem_preorderAll.2 ⟨k, hk, hn⟩))
  · rintro ⟨ht, hchildren⟩ n hn
    rcases Tree.mem_preorder_iff.1 hn with rfl | hn
    · exact ht
    · obtain ⟨k, hk, hn⟩ := Tree.mem_preorderAll.1 hn
      exact hchildren k hk n hn

/-! ### Gists are enough -/

theorem partSpelling_gist (part : Tree α) : partSpelling part.gist = partSpelling part := by
  obtain ⟨mark, content, children⟩ := part
  cases content with
  | placeholder name key => cases key <;> rfl
  | _ => rfl

theorem spelling_gist (parts : List (Tree α)) :
    spelling (parts.map Tree.gist) = spelling parts := by
  rw [spelling, spelling, List.flatMap_map]
  exact congrArg (List.flatMap · parts) (funext partSpelling_gist)

theorem sharedKey?_gist (inside : Tree α) : sharedKey? inside.gist = sharedKey? inside := by
  obtain ⟨mark, content, children⟩ := inside
  cases content with
  | placeholder name key => cases key <;> rfl
  | htmlTag name isEnd selfEnding =>
    rw [sharedKey?, sharedKey?, Tree.children_gist, spelling_gist]
    rfl
  | _ => rfl

theorem isTagPart_gist (part : Tree α) : IsTagPart part.gist ↔ IsTagPart part := by
  obtain ⟨mark, content, children⟩ := part
  cases content with
  | placeholder name key => cases key <;> simp [IsTagPart, Content.gist]
  | _ => simp [IsTagPart, Content.gist]

theorem keyedAt_gist (n : Tree α) : KeyedAt n.gist ↔ KeyedAt n := by
  obtain ⟨mark, content, children⟩ := n
  cases content with
  | print expr directives implicit => simp [KeyedAt, Content.gist]
  | htmlTag name isEnd selfEnding =>
    simp [KeyedAt, Content.gist, spelling_gist, isTagPart_gist]
  | placeholder name key =>
    cases key <;> simp [KeyedAt, Content.gist, List.map_eq_singleton_iff, sharedKey?_gist]
  | _ => exact Iff.rfl

theorem keyed_gist (t : Tree α) : Keyed t.gist ↔ Keyed t := by
  rw [Keyed, Tree.preorder_gist, List.forall_mem_map]
  exact forall₂_congr fun n _ => keyedAt_gist n

/-! ### What a key leaves out -/

/-- Where a part of a tag ends, and what the key of the tag leaves out of it. -/
inductive TagPiece where
  | text (length : Nat)
  | print (length : Nat) (directives : List PrintDirective)
deriving DecidableEq, Repr

/-- What a shared key leaves out of the inside of a placeholder: the directives
    of a print, and the pieces of a tag.  A call has no shared key. -/
inductive Undisclosed where
  | directives (directives : List PrintDirective)
  | pieces (pieces : List TagPiece)
  | nothing
deriving DecidableEq, Repr

/-- The piece of a tag that a part of it is. -/
def tagPiece (part : Tree α) : TagPiece :=
  match part.content with
  | .print expr directives _ => .print expr.text.length directives
  | .rawText text => .text text.length
  | _ => .text 0

/-- What the key of a placeholder leaves out of what stands in it. -/
def undisclosed (inside : Tree α) : Undisclosed :=
  match inside.content with
  | .print _ directives _ => .directives directives
  | .htmlTag _ _ _ => .pieces (inside.children.map tagPiece)
  | _ => .nothing

theorem tagPiece_gist (part : Tree α) : tagPiece part.gist = tagPiece part := by
  obtain ⟨mark, content, children⟩ := part
  cases content with
  | placeholder name key => cases key <;> rfl
  | _ => rfl

theorem undisclosed_gist (inside : Tree α) : undisclosed inside.gist = undisclosed inside := by
  obtain ⟨mark, content, children⟩ := inside
  cases content with
  | placeholder name key => cases key <;> rfl
  | htmlTag name isEnd selfEnding =>
    rw [undisclosed, undisclosed, Tree.children_gist, List.map_map]
    exact congrArg Undisclosed.pieces (List.map_congr_left fun part _ => tagPiece_gist part)
  | _ => rfl

/-- What has a shared key is a print or a tag. -/
theorem exists_of_sharedKey? {inside : Tree α} {key : PlaceholderKey}
    (h : sharedKey? inside = some key) :
    (∃ expr directives implicit, inside.content = .print expr directives implicit ∧
      key = printKey expr directives) ∨
    ∃ name isEnd selfEnding, inside.content = .htmlTag name isEnd selfEnding ∧
      key = tagKey (String.ofList (spelling inside.children)) := by
  rw [sharedKey?] at h
  split at h
  · rename_i expr directives implicit hcontent
    exact .inl ⟨expr, directives, implicit, hcontent, (Option.some.inj h).symm⟩
  · rename_i name isEnd selfEnding hcontent
    exact .inr ⟨name, isEnd, selfEnding, hcontent, (Option.some.inj h).symm⟩
  · cases h

theorem printKey_ne_tagKey (expr : Expr) (directives : List PrintDirective) (source : String) :
    printKey expr directives ≠ tagKey source := by
  intro h
  rw [printKey, tagKey, PlaceholderKey.shared.injEq] at h
  have hlist := congrArg String.toList h
  simp only [String.toList_append] at hlist
  exact absurd (congrArg List.head? hlist) (by simp)

theorem tagKey_inj {source source' : String} (h : tagKey source = tagKey source') :
    source = source' := by
  rw [tagKey, tagKey, PlaceholderKey.shared.injEq] at h
  exact (String.append_right_inj _).1 h

/-- A part of a tag can be read off its spelling and its piece. -/
theorem gist_eq_of_partSpelling_eq {part part' : Tree α} (h : IsTagPart part)
    (h' : IsTagPart part') (hkeyed : KeyedAt part) (hkeyed' : KeyedAt part')
    (hpiece : tagPiece part = tagPiece part')
    (hspelling : partSpelling part = partSpelling part') : part.gist = part'.gist := by
  obtain ⟨mark, content, children⟩ := part
  obtain ⟨mark', content', children'⟩ := part'
  simp only [IsTagPart, Tree.content_node, Tree.children_node] at h h'
  rcases h with ⟨text, rfl, rfl⟩ | ⟨expr, directives, implicit, rfl, rfl⟩ <;>
    rcases h' with ⟨text', rfl, rfl⟩ | ⟨expr', directives', implicit', rfl, rfl⟩
  · have htext : text = text' := String.toList_inj.1 hspelling
    rw [htext]
    rfl
  · cases hpiece
  · cases hpiece
  · have htext : expr.text.toList = expr'.text.toList := by
      simpa [partSpelling] using hspelling
    have hexpr : expr = expr' :=
      Body.eq_of_text_eq hkeyed.2 hkeyed'.2 (String.toList_inj.1 htext)
    have hdirectives : directives = directives' := (TagPiece.print.inj hpiece).2
    rw [hexpr, hdirectives]
    rfl

theorem length_partSpelling {part part' : Tree α} (h : IsTagPart part) (h' : IsTagPart part')
    (hpiece : tagPiece part = tagPiece part') :
    (partSpelling part).length = (partSpelling part').length := by
  obtain ⟨mark, content, children⟩ := part
  obtain ⟨mark', content', children'⟩ := part'
  simp only [IsTagPart, Tree.content_node, Tree.children_node] at h h'
  rcases h with ⟨text, rfl, rfl⟩ | ⟨expr, directives, implicit, rfl, rfl⟩ <;>
    rcases h' with ⟨text', rfl, rfl⟩ | ⟨expr', directives', implicit', rfl, rfl⟩
  · simpa [tagPiece, partSpelling, String.length_toList] using hpiece
  · cases hpiece
  · cases hpiece
  · have hlength := (TagPiece.print.inj hpiece).1
    simpa [partSpelling, String.length_toList] using hlength

/-- Parts of a tag can be read off their spelling and their pieces. -/
theorem gists_eq_of_spelling_eq {parts parts' : List (Tree α)}
    (h : ∀ p ∈ parts, IsTagPart p ∧ KeyedAt p) (h' : ∀ p ∈ parts', IsTagPart p ∧ KeyedAt p)
    (hpieces : parts.map tagPiece = parts'.map tagPiece)
    (hspelling : spelling parts = spelling parts') :
    parts.map Tree.gist = parts'.map Tree.gist := by
  induction parts generalizing parts' with
  | nil =>
    rw [List.map_nil, eq_comm, List.map_eq_nil_iff] at hpieces
    rw [hpieces]
  | cons part rest ih =>
    cases parts' with
    | nil => cases hpieces
    | cons part' rest' =>
      rw [List.map_cons, List.map_cons, List.cons.injEq] at hpieces
      have hpart := h part List.mem_cons_self
      have hpart' := h' part' List.mem_cons_self
      rw [spelling, spelling, List.flatMap_cons, List.flatMap_cons] at hspelling
      -- equal pieces are spelled with equally many characters
      obtain ⟨hfirst, hrest⟩ := List.append_inj hspelling
        (length_partSpelling hpart.1 hpart'.1 hpieces.1)
      rw [List.map_cons, List.map_cons,
        gist_eq_of_partSpelling_eq hpart.1 hpart'.1 hpart.2 hpart'.2 hpieces.1 hfirst,
        ih (fun p hp => h p (List.mem_cons_of_mem _ hp))
          (fun p hp => h' p (List.mem_cons_of_mem _ hp)) hpieces.2 hrest]

theorem gist_eq_of_print {inside inside' : Tree α} {expr expr' : Expr}
    {directives directives' : List PrintDirective} {implicit implicit' : Bool}
    (h : KeyedAt inside) (h' : KeyedAt inside')
    (hcontent : inside.content = .print expr directives implicit)
    (hcontent' : inside'.content = .print expr' directives' implicit')
    (hkey : printKey expr directives = printKey expr' directives')
    (hdirectives : directives = directives') : inside.gist = inside'.gist := by
  obtain ⟨mark, content, children⟩ := inside
  obtain ⟨mark', content', children'⟩ := inside'
  subst hcontent hcontent'
  obtain ⟨rfl, hprint⟩ := h
  obtain ⟨rfl, hprint'⟩ := h'
  rw [Body.expr_eq_of_printKey_eq hprint hprint' hkey, hdirectives]
  rfl

theorem gist_eq_of_tag {inside inside' : Tree α} {name name' : String}
    {isEnd isEnd' selfEnding selfEnding' : Bool} (h : Keyed inside) (h' : Keyed inside')
    (hcontent : inside.content = .htmlTag name isEnd selfEnding)
    (hcontent' : inside'.content = .htmlTag name' isEnd' selfEnding')
    (hspelling : spelling inside.children = spelling inside'.children)
    (hpieces : inside.children.map tagPiece = inside'.children.map tagPiece) :
    inside.gist = inside'.gist := by
  obtain ⟨mark, content, children⟩ := inside
  obtain ⟨mark', content', children'⟩ := inside'
  subst hcontent hcontent'
  obtain ⟨hat, hchildren⟩ := keyed_iff.1 h
  obtain ⟨hat', hchildren'⟩ := keyed_iff.1 h'
  have hparts := gists_eq_of_spelling_eq
    (fun p hp => ⟨hat.1 p hp, (keyed_iff.1 (hchildren p hp)).1⟩)
    (fun p hp => ⟨hat'.1 p hp, (keyed_iff.1 (hchildren' p hp)).1⟩) hpieces hspelling
  have htag := hat.2
  rw [Tree.children_node] at htag hspelling
  rw [Tree.gist, Tree.gist, Tree.gistAll_eq_map, Tree.gistAll_eq_map, htag, hspelling, hat'.2]
  exact congrArg (Tree.node () _) hparts

/-- Insides of one shared key are the same just in case they agree in what the
    key leaves out. -/
theorem gist_eq_iff {inside inside' : Tree α} {key : PlaceholderKey} (h : Keyed inside)
    (h' : Keyed inside') (hkey : sharedKey? inside = some key)
    (hkey' : sharedKey? inside' = some key) :
    inside.gist = inside'.gist ↔ undisclosed inside = undisclosed inside' := by
  constructor
  · intro hgist
    rw [← undisclosed_gist inside, hgist, undisclosed_gist]
  · intro hundisclosed
    rw [undisclosed, undisclosed] at hundisclosed
    rcases exists_of_sharedKey? hkey with
      ⟨expr, directives, implicit, hcontent, rfl⟩ | ⟨name, isEnd, selfEnding, hcontent, rfl⟩ <;>
    rcases exists_of_sharedKey? hkey' with
      ⟨expr', directives', implicit', hcontent', hsame⟩ |
      ⟨name', isEnd', selfEnding', hcontent', hsame⟩
    · rw [hcontent, hcontent'] at hundisclosed
      exact gist_eq_of_print (keyed_iff.1 h).1 (keyed_iff.1 h').1 hcontent hcontent' hsame
        (Undisclosed.directives.inj hundisclosed)
    · exact absurd hsame (printKey_ne_tagKey _ _ _)
    · exact absurd hsame.symm (printKey_ne_tagKey _ _ _)
    · rw [hcontent, hcontent'] at hundisclosed
      exact gist_eq_of_tag h h' hcontent hcontent' (String.ofList_injective (tagKey_inj hsame))
        (Undisclosed.pieces.inj hundisclosed)

end Stencil.Message
