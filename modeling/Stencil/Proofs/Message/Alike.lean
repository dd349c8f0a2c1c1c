/-
  Stencil/Proofs/Message/Alike.lean
  =================================
  **Messages that a translator cannot tell apart.**

  The facade of a message body is its parts without places and without what
  stands inside of placeholders.  Names of placeholders and canonical texts are
  those of the facade.  Items that read the same outside of calls assemble to
  bodies with one facade, wherever they stand and whatever the calls call.
-/
import Stencil.Message.Assembly
import Stencil.Message.Fingerprint
import Stencil.Proofs.Message.PlaceholderNames
import Stencil.Proofs.Outcome

namespace Stencil.Message

variable {α : Type}

/-! ### Facades -/

mutual

/-- A part without places and without what stands inside of placeholders. -/
def facade : Tree α → Tree Unit
  | .node _ content children =>
    match content with
    | .placeholder _ _ => .leaf () content
    | _ => .node () content (facadeAll children)

def facadeAll : List (Tree α) → List (Tree Unit)
  | [] => []
  | part :: rest => facade part :: facadeAll rest

end

theorem facadeAll_eq_map (body : List (Tree α)) : facadeAll body = body.map facade := by
  induction body with
  | nil => rfl
  | cons part rest ih => rw [facadeAll, ih, List.map_cons]

theorem facadeAll_append (body body' : List (Tree α)) :
    facadeAll (body ++ body') = facadeAll body ++ facadeAll body' := by
  rw [facadeAll_eq_map, facadeAll_eq_map, facadeAll_eq_map, List.map_append]

theorem facadeAll_reverse (body : List (Tree α)) :
    facadeAll body.reverse = (facadeAll body).reverse := by
  rw [facadeAll_eq_map, facadeAll_eq_map, List.map_reverse]

mutual

theorem canonicalPart_facade : (part : Tree α) → canonicalPart (facade part) = canonicalPart part
  | .node mark content children => by
    have hchildren := canonicalBody_facadeAll children
    cases content <;> simp only [facade, Tree.leaf, canonicalPart, hchildren]

theorem canonicalBody_facadeAll :
    (body : List (Tree α)) → canonicalBody (facadeAll body) = canonicalBody body
  | [] => rfl
  | part :: rest => by
    rw [facadeAll, canonicalBody, canonicalBody, canonicalPart_facade part,
      canonicalBody_facadeAll rest]

end

mutual

theorem facade_mapPlaceholder (g : String → PlaceholderKey → String) :
    (part : Tree α) →
      facade (mapPlaceholder (rename g) part) = mapPlaceholder (rename g) (facade part)
  | .node mark content children => by
    have hchildren := facadeAll_mapPlaceholders g children
    cases content <;> simp only [facade, mapPlaceholder, rename, Tree.leaf, hchildren]

theorem facadeAll_mapPlaceholders (g : String → PlaceholderKey → String) :
    (body : List (Tree α)) →
      facadeAll (mapPlaceholders (rename g) body) = mapPlaceholders (rename g) (facadeAll body)
  | [] => rfl
  | part :: rest => by
    rw [mapPlaceholders, facadeAll, facadeAll, mapPlaceholders, facade_mapPlaceholder g part,
      facadeAll_mapPlaceholders g rest]

end

mutual

theorem partPlaceholders_facade :
    (part : Tree α) → partPlaceholders (facade part) = (partPlaceholders part).map facade
  | .node mark content children => by
    have hchildren := placeholders_facadeAll children
    cases content <;>
      simp only [facade, partPlaceholders, Tree.leaf, hchildren, List.map_cons, List.map_nil]

theorem placeholders_facadeAll :
    (body : List (Tree α)) → placeholders (facadeAll body) = (placeholders body).map facade
  | [] => rfl
  | part :: rest => by
    rw [facadeAll, placeholders, placeholders, List.map_append, partPlaceholders_facade part,
      placeholders_facadeAll rest]

end

@[simp] theorem content_facade (part : Tree α) : (facade part).content = part.content := by
  obtain ⟨mark, content, children⟩ := part
  cases content <;> rfl

theorem labels_facadeAll (body : List (Tree α)) : labels (facadeAll body) = labels body := by
  rw [labels_eq, labels_eq, placeholders_facadeAll, List.filterMap_map]
  apply List.filterMap_congr
  intro part _
  rw [Function.comp_apply, label?, label?, content_facade]

theorem facadeAll_nameAll (body : List (Tree α)) :
    facadeAll (nameAll body) = nameAll (facadeAll body) := by
  rw [nameAll_eq, nameAll_eq, facadeAll_mapPlaceholders, labels_facadeAll]

/-- Bodies with one facade get one canonical text. -/
theorem canonicalBody_nameAll_eq {body : List (Tree α)} {body' : List (Tree α)}
    (h : facadeAll body = facadeAll body') :
    canonicalBody (nameAll body) = canonicalBody (nameAll body') := by
  rw [← canonicalBody_facadeAll, ← canonicalBody_facadeAll (nameAll body'), facadeAll_nameAll,
    facadeAll_nameAll, h]

/-! ### Items -/

/-- The content of a statement in a message: all calls are alike. -/
def outward : Content → Content
  | .call _ _ => .call (.delegate "" "") .nothing
  | content => content

/-- Items that read the same outside of calls. -/
inductive Item.Alike : Item → Item → Prop
  | text (chars : List Char) (line line' : Nat) : Alike (.text chars line) (.text chars line')
  | statement {d d' : Draft} (h : outward d.content = outward d'.content) :
      Alike (.statement d) (.statement d')

theorem outward_eq_print_iff {content : Content} {expr : Expr} {directives : List PrintDirective}
    {implicit : Bool} :
    outward content = .print expr directives implicit ↔
      content = .print expr directives implicit := by
  cases content <;> simp [outward]

/-! ### Assemblies -/

/-- Assemblies with one facade and one open tag. -/
structure Assembly.Alike (a a' : Assembly) : Prop where
  parts : facadeAll a.parts = facadeAll a'.parts
  text : a.text = a'.text
  tag : a.tag.map OpenTag.source = a'.tag.map OpenTag.source
  calls : a.calls = a'.calls

theorem facadeAll_textDraft (content : String → Content) (line line' : Nat)
    (backwards : List Char) :
    facadeAll (textDraft content line backwards) = facadeAll (textDraft content line' backwards) := by
  rw [textDraft, textDraft]
  split
  · rfl
  · cases hcontent : content (String.ofList backwards.reverse) <;>
      simp only [facadeAll, facade, Tree.leaf]

theorem facade_toPlaceholder {tag tag' : OpenTag} (h : tag.source = tag'.source) :
    facade tag.toPlaceholder = facade tag'.toPlaceholder := by
  simp only [OpenTag.toPlaceholder, h, facade]

namespace Assembly.Alike

variable {a a' : Assembly}

theorem flush (h : a.Alike a') : a.flush.Alike a'.flush := by
  refine ⟨?_, rfl, h.tag, h.calls⟩
  simp only [Assembly.flush, facadeAll_append]
  rw [h.parts, h.text, facadeAll_textDraft]

theorem tag_cases (h : a.Alike a') : (a.tag = none ∧ a'.tag = none) ∨
    ∃ tag tag', a.tag = some tag ∧ a'.tag = some tag' ∧ tag.source = tag'.source := by
  have htag := h.tag
  cases htag₁ : a.tag with
  | none =>
    rw [htag₁, Option.map_none] at htag
    exact .inl ⟨rfl, Option.map_eq_none_iff.1 htag.symm⟩
  | some tag =>
    rw [htag₁, Option.map_some] at htag
    obtain ⟨tag', htag', hsource⟩ := Option.map_eq_some_iff.1 htag.symm
    exact .inr ⟨tag, tag', rfl, htag', hsource.symm⟩

theorem addChar (h : a.Alike a') (line line' : Nat) (c : Char) (next : Option Char) :
    (a.addChar line c next).Alike (a'.addChar line' c next) := by
  rcases h.tag_cases with ⟨hnone, hnone'⟩ | ⟨tag, tag', hsome, hsome', hsource⟩
  · rw [Assembly.addChar, Assembly.addChar, hnone, hnone']
    dsimp only
    split
    · exact ⟨h.flush.parts, rfl, rfl, h.calls⟩
    · exact ⟨h.parts, congrArg (c :: ·) h.text, rfl, h.calls⟩
  · have hchar : (tag.addChar c).source = (tag'.addChar c).source := congrArg (c :: ·) hsource
    rw [Assembly.addChar, Assembly.addChar, hsome, hsome']
    dsimp only
    split
    · refine ⟨?_, h.text, rfl, h.calls⟩
      rw [facadeAll, facadeAll, facade_toPlaceholder hchar, h.parts]
    · exact ⟨h.parts, h.text, congrArg some hchar, h.calls⟩

theorem addText (h : a.Alike a') (line line' : Nat) (chars : List Char) :
    (a.addText line chars).Alike (a'.addText line' chars) := by
  induction chars generalizing a a' with
  | nil => exact h
  | cons c cs ih => exact ih (h.addChar line line' c cs.head?)

theorem addStatement (h : a.Alike a') {d d' : Draft} (hd : outward d.content = outward d'.content) :
    (a.addStatement d).Alike (a'.addStatement d') := by
  have hflush := h.flush
  rw [Assembly.addStatement, Assembly.addStatement]
  split
  · rename_i expr directives implicit hcontent
    rw [outward_eq_print_iff.1 (hd.symm.trans (outward_eq_print_iff.2 hcontent))]
    exact ⟨congrArg₂ List.cons rfl hflush.parts, rfl, hflush.tag, hflush.calls⟩
  · rename_i hprint
    split
    · rename_i expr directives implicit hcontent'
      exact absurd (outward_eq_print_iff.1 (hd.trans (outward_eq_print_iff.2 hcontent')))
        (hprint expr directives implicit)
    · refine ⟨?_, rfl, hflush.tag, congrArg (· + 1) h.calls⟩
      have hcalls : a.flush.calls = a'.flush.calls := hflush.calls
      dsimp only
      rw [facadeAll, facadeAll, facade, facade, hcalls, hflush.parts]

/-- Items that read the same are taken in alike, if they are taken in. -/
theorem addItem (h : a.Alike a') {i i' : Item} (hi : i.Alike i') :
    Agree Alike (a.addItem i) (a'.addItem i') := by
  cases hi with
  | text chars line line' => exact agree_ok (h.addText line line' chars)
  | @statement d d' hd =>
    rw [Assembly.addItem, Assembly.addItem]
    rcases h.tag_cases with ⟨hnone, hnone'⟩ | ⟨tag, tag', hsome, hsome', hsource⟩
    · rw [hnone, hnone']
      exact agree_ok (h.addStatement hd)
    · rw [hsome, hsome']
      dsimp only
      split
      · rename_i expr directives implicit hcontent
        rw [outward_eq_print_iff.1 (hd.symm.trans (outward_eq_print_iff.2 hcontent))]
        refine agree_ok ⟨h.parts, h.text, ?_, h.calls⟩
        simp only [Option.map_some, OpenTag.addPrint, OpenTag.flush, hsource]
      · exact agree_error _

theorem finish (h : a.Alike a') :
    Agree (fun parts parts' => facadeAll parts = facadeAll parts') a.finish a'.finish := by
  rw [Assembly.finish, Assembly.finish]
  rcases h.tag_cases with ⟨hnone, hnone'⟩ | ⟨tag, tag', hsome, hsome', hsource⟩
  · rw [hnone, hnone']
    refine agree_ok ?_
    rw [facadeAll_reverse, facadeAll_reverse, h.flush.parts]
  · rw [hsome]
    exact agree_error _

end Assembly.Alike

theorem agree_assemble {items items' : List Item} (h : List.Forall₂ Item.Alike items items')
    (calls : Nat) : Agree (fun p p' => facadeAll p.1 = facadeAll p'.1 ∧ p.2 = p'.2)
      (assemble calls items) (assemble calls items') := by
  have hstart : Assembly.Alike { calls } { calls } := ⟨rfl, rfl, rfl, rfl⟩
  refine agree_bind (agree_foldlM (fun _ _ _ _ ha hi => ha.addItem hi) h hstart) ?_
  intro a a' ha
  exact agree_bind ha.finish fun parts parts' hparts => agree_ok ⟨hparts, ha.calls⟩

end Stencil.Message
