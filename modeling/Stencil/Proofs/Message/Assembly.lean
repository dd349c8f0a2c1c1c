/-
  Stencil/Proofs/Message/Assembly.lean
  ====================================
  **Assembled placeholders tell their keys.**

  An assembly spells an open tag out while it collects the parts of the tag, so
  a closed tag is keyed by its parts.  A statement outside of tags is keyed when
  it is wrapped.  Names do not matter for keys.
-/
import Stencil.Proofs.Body.Grammar
import Stencil.Proofs.Message.Keys
import Stencil.Proofs.Message.PlaceholderNames
import Stencil.Proofs.Outcome

namespace Stencil.Message

variable {α : Type}

/-! ### Texts and placeholders -/

theorem keyed_leaf {mark : α} {content : Content} (h : KeyedAt (.leaf mark content : Tree α)) :
    Keyed (.leaf mark content) :=
  keyed_iff.2 ⟨h, fun _ hk => (nomatch hk)⟩

theorem keyed_of_mem_textDraft (content : String → Content) {line : Nat} {backwards : List Char}
    (hcontent : ∀ s, KeyedAt (.leaf line (content s) : Draft)) :
    ∀ d ∈ textDraft content line backwards, Keyed d := by
  intro d hd
  rw [textDraft] at hd
  split at hd
  · cases hd
  · rw [List.mem_singleton] at hd
    subst hd
    exact keyed_leaf (hcontent _)

theorem isTagPart_of_mem_textDraft {line : Nat} {backwards : List Char} :
    ∀ d ∈ textDraft .rawText line backwards, IsTagPart d := by
  intro d hd
  rw [textDraft] at hd
  split at hd
  · cases hd
  · rw [List.mem_singleton] at hd
    subst hd
    exact .inl ⟨_, rfl, rfl⟩

@[simp] theorem spelling_append (parts parts' : List (Tree α)) :
    spelling (parts ++ parts') = spelling parts ++ spelling parts' := List.flatMap_append

theorem spelling_textDraft (line : Nat) (backwards : List Char) :
    spelling (textDraft .rawText line backwards) = backwards.reverse := by
  rw [textDraft]
  split
  · rename_i hempty
    rw [List.isEmpty_iff.1 hempty]
    rfl
  · simp [spelling, partSpelling, Tree.leaf]

/-- A print as it stands in a message. -/
theorem isTagPart_of_print {d : Tree α} {expr : Expr} {directives : List PrintDirective}
    {implicit : Bool} (h : Keyed d) (hcontent : d.content = .print expr directives implicit) :
    IsTagPart d := by
  have hat := (keyed_iff.1 h).1
  rw [KeyedAt, hcontent] at hat
  exact .inr ⟨expr, directives, implicit, hcontent, hat.1⟩

/-! ### Open tags -/

/-- An open tag is spelled by its parts and the text after them. -/
structure OpenTag.Sound (tag : OpenTag) : Prop where
  keyed : ∀ p ∈ tag.parts, Keyed p
  parts : ∀ p ∈ tag.parts, IsTagPart p
  source : tag.source.reverse = spelling tag.parts.reverse ++ tag.raw.reverse

namespace OpenTag

variable {tag : OpenTag}

theorem Sound.flush (h : tag.Sound) : tag.flush.Sound := by
  refine ⟨?_, ?_, ?_⟩
  · intro p hp
    rcases List.mem_append.1 hp with hp | hp
    · exact keyed_of_mem_textDraft .rawText (fun _ => trivial) p hp
    · exact h.keyed p hp
  · intro p hp
    rcases List.mem_append.1 hp with hp | hp
    · exact isTagPart_of_mem_textDraft p hp
    · exact h.parts p hp
  · have htext : (textDraft Content.rawText tag.line tag.raw).reverse =
        textDraft Content.rawText tag.line tag.raw := by
      rw [textDraft]
      split <;> rfl
    change tag.source.reverse = spelling (textDraft _ _ _ ++ tag.parts).reverse ++ [].reverse
    rw [List.reverse_append, htext, spelling_append, spelling_textDraft, h.source]
    exact (List.append_nil _).symm

theorem Sound.addChar (h : tag.Sound) (c : Char) : (tag.addChar c).Sound := by
  refine ⟨h.keyed, h.parts, ?_⟩
  change (c :: tag.source).reverse = spelling tag.parts.reverse ++ (c :: tag.raw).reverse
  rw [List.reverse_cons, List.reverse_cons, h.source, List.append_assoc]

theorem Sound.addPrint (h : tag.Sound) {d : Draft} {expr : Expr}
    {directives : List PrintDirective} {implicit : Bool} (hd : Keyed d)
    (hcontent : d.content = .print expr directives implicit) : (tag.addPrint expr d).Sound := by
  have hflush := h.flush
  refine ⟨?_, ?_, ?_⟩
  · intro p hp
    rcases List.mem_cons.1 hp with rfl | hp
    · exact hd
    · exact hflush.keyed p hp
  · intro p hp
    rcases List.mem_cons.1 hp with rfl | hp
    · exact isTagPart_of_print hd hcontent
    · exact hflush.parts p hp
  · have hsource := hflush.source
    change tag.source.reverse = spelling tag.flush.parts.reverse ++ [].reverse at hsource
    change ('\x7d' :: (expr.text.toList.reverse ++ '\x7b' :: tag.source)).reverse =
      spelling (d :: tag.flush.parts).reverse ++ [].reverse
    have hspelling : spelling [d] = '\x7b' :: (expr.text.toList ++ ['\x7d']) := by
      simp [spelling, partSpelling, hcontent]
    rw [List.reverse_cons (a := d), spelling_append, hspelling]
    simp only [List.reverse_cons, List.reverse_append, List.reverse_reverse, List.reverse_nil,
      List.append_nil, List.append_assoc, List.nil_append, List.cons_append] at hsource ⊢
    rw [hsource]

/-- A closed tag is keyed by its parts. -/
theorem Sound.toPlaceholder (h : tag.Sound) : Keyed tag.toPlaceholder := by
  have hflush := h.flush
  have hsource := hflush.source
  change tag.source.reverse = spelling tag.flush.parts.reverse ++ [].reverse at hsource
  rw [List.reverse_nil, List.append_nil] at hsource
  refine keyed_iff.2 ⟨⟨_, rfl, ?_⟩, ?_⟩
  · change some (tagKey (String.ofList (spelling tag.flush.parts.reverse))) = _
    rw [← hsource]
    rfl
  · intro k hk
    rw [OpenTag.toPlaceholder, Tree.children_node, List.mem_singleton] at hk
    subst hk
    refine keyed_iff.2 ⟨⟨?_, ?_⟩, ?_⟩
    · exact fun p hp => hflush.parts p (List.mem_reverse.1 hp)
    · rw [Tree.children_node, ← hsource]
      rfl
    · exact fun p hp => hflush.keyed p (List.mem_reverse.1 hp)

end OpenTag

/-! ### Assemblies -/

/-- An assembly of keyed parts, with a tag that is spelled by its parts. -/
structure Assembly.Sound (a : Assembly) : Prop where
  parts : ∀ p ∈ a.parts, Keyed p
  tag : ∀ tag, a.tag = some tag → tag.Sound

namespace Assembly

variable {a a' : Assembly}

theorem Sound.flush (h : a.Sound) : a.flush.Sound := by
  refine ⟨?_, h.tag⟩
  intro p hp
  rcases List.mem_append.1 hp with hp | hp
  · exact keyed_of_mem_textDraft .msgText (fun _ => trivial) p hp
  · exact h.parts p hp

theorem Sound.cons (h : a.Sound) {p : Draft} (hp : Keyed p) :
    ∀ q ∈ p :: a.parts, Keyed q := by
  intro q hq
  rcases List.mem_cons.1 hq with rfl | hq
  · exact hp
  · exact h.parts q hq

theorem Sound.addChar (h : a.Sound) (line : Nat) (c : Char) (next : Option Char) :
    (a.addChar line c next).Sound := by
  rw [Assembly.addChar]
  split
  · rename_i tag htag
    have hadd := (h.tag tag htag).addChar c
    dsimp only
    split
    · exact ⟨h.cons hadd.toPlaceholder, fun _ hnone => (nomatch hnone)⟩
    · refine ⟨h.parts, fun tag' htag' => ?_⟩
      cases htag'
      exact hadd
  · rename_i htag
    split
    · refine ⟨h.flush.parts, fun tag' htag' => ?_⟩
      cases htag'
      exact ⟨fun _ hp => (nomatch hp), fun _ hp => (nomatch hp), rfl⟩
    · exact ⟨h.parts, h.tag⟩

theorem Sound.addText (h : a.Sound) (line : Nat) (chars : List Char) :
    (a.addText line chars).Sound := by
  induction chars generalizing a with
  | nil => exact h
  | cons c cs ih => exact ih (h.addChar line c cs.head?)

theorem Sound.addStatement (h : a.Sound) {d : Draft} (hd : Keyed d)
    (hitem : Body.IsItem d.content) : (a.addStatement d).Sound := by
  have hflush := h.flush
  have hwrap : ∀ name key, KeyedAt (.node d.mark (.placeholder name key) [d] : Draft) →
      Keyed (.node d.mark (.placeholder name key) [d] : Draft) := by
    intro name key hat
    refine keyed_iff.2 ⟨hat, fun k hk => ?_⟩
    rw [Tree.children_node, List.mem_singleton] at hk
    rwa [hk]
  rw [Assembly.addStatement]
  split
  · rename_i expr directives implicit hcontent
    refine ⟨hflush.cons (hwrap _ _ ⟨d, rfl, ?_⟩), hflush.tag⟩
    rw [sharedKey?, hcontent]
    rfl
  · rename_i hprint
    refine ⟨hflush.cons (hwrap _ _ ⟨d, rfl, ?_⟩), hflush.tag⟩
    rw [sharedKey?]
    rcases hitem with hcall | ⟨implicit, text, htext⟩
    · split
      · rename_i hcontent
        exact absurd hcontent (hprint _ _ _)
      · rename_i hcontent
        rw [hcontent] at hcall
        cases hcall
      · rfl
    · obtain ⟨expr, directives, hcontent⟩ := Body.exists_print htext
      exact absurd hcontent (hprint _ _ _)

theorem Sound.addItem (h : a.Sound) {item : Item}
    (hd : ∀ d, item = .statement d → Keyed d ∧ Body.IsItem d.content)
    (hok : a.addItem item = .ok a') : a'.Sound := by
  cases item with
  | text chars line =>
    cases hok
    exact h.addText line chars
  | statement d =>
    obtain ⟨hkeyed, hitem⟩ := hd d rfl
    rw [Assembly.addItem] at hok
    split at hok
    · cases hok
      exact h.addStatement hkeyed hitem
    · rename_i tag htag
      split at hok
      · rename_i hcontent
        cases hok
        refine ⟨h.parts, fun tag' htag' => ?_⟩
        cases htag'
        exact (h.tag tag htag).addPrint hkeyed hcontent
      · cases hok

theorem Sound.finish (h : a.Sound) {parts : List Draft} (hok : a.finish = .ok parts) :
    ∀ p ∈ parts, Keyed p := by
  rw [Assembly.finish] at hok
  split at hok
  · cases hok
  · cases hok
    exact fun p hp => h.flush.parts p (List.mem_reverse.1 hp)

end Assembly

/-- Parts that are assembled from keyed prints and calls are keyed. -/
theorem keyed_of_assemble {before after : Nat} {items : List Item} {parts : List Draft}
    (hitems : ∀ d, .statement d ∈ items → Keyed d ∧ Body.IsItem d.content)
    (h : assemble before items = .ok (parts, after)) : ∀ p ∈ parts, Keyed p := by
  simp only [assemble, bind_eq_ok] at h
  obtain ⟨a, ha, parts', hparts', h⟩ := h
  cases h
  have hstart : Assembly.Sound { calls := before } :=
    ⟨fun _ hp => (nomatch hp), fun _ htag => (nomatch htag)⟩
  have hsound : a.Sound := by
    refine foldlM_keeps (fun item hitem b b' hb hok => hb.addItem (fun d hd => ?_) hok) hstart ha
    exact hitems d (hd ▸ hitem)
  exact hsound.finish hparts'

/-! ### Named bodies -/

mutual

theorem keyed_mapPlaceholder (g : String → PlaceholderKey → String) :
    (part : Tree α) → Keyed part → Keyed (mapPlaceholder (rename g) part)
  | .node mark content children, h => by
    obtain ⟨hat, hchildren⟩ := keyed_iff.1 h
    have hmap := keyed_mapPlaceholders g children hchildren
    cases content with
    | placeholder name key =>
      rw [mapPlaceholder]
      refine keyed_iff.2 ⟨?_, hchildren⟩
      cases key <;> exact hat
    | plural | select | case =>
      rw [mapPlaceholder]
      exact keyed_iff.2 ⟨trivial, hmap⟩
    | _ => exact h

theorem keyed_mapPlaceholders (g : String → PlaceholderKey → String) :
    (body : List (Tree α)) → (∀ p ∈ body, Keyed p) →
      ∀ p ∈ mapPlaceholders (rename g) body, Keyed p
  | [], _ => fun _ hp => (nomatch hp)
  | part :: rest, h => by
    intro p hp
    rw [mapPlaceholders] at hp
    rcases List.mem_cons.1 hp with rfl | hp
    · exact keyed_mapPlaceholder g part (h part List.mem_cons_self)
    · exact keyed_mapPlaceholders g rest (fun q hq => h q (List.mem_cons_of_mem _ hq)) p hp

end

theorem keyed_nameAll {body : List (Tree α)} (h : ∀ p ∈ body, Keyed p) :
    ∀ p ∈ nameAll body, Keyed p := by
  rw [nameAll_eq]
  exact keyed_mapPlaceholders _ body h

end Stencil.Message
