/-
  Stencil/Proofs/Message/Assembled.lean
  =====================================
  **What an assembly adds** to the statements of a message.

  An assembly makes texts, placeholders and tags at the lines of its items, and
  naming changes placeholders and what they stand in.  A property of nodes that asks
  nothing of these but their line holds of everything in a message if it holds of
  everything in its statements.
-/
import Stencil.Message.Assembly
import Stencil.Proofs.Message.PlaceholderNames
import Stencil.Proofs.Outcome
import Stencil.Proofs.Tree.Nodes

namespace Stencil

/-- The contents that an assembly makes, and those in which naming finds placeholders. -/
def Content.isMade : Content → Bool
  | rawText _ | msgText _ | placeholder _ _ | htmlTag _ _ _ => true
  | plural _ _ _ | select _ _ | case _ => true
  | _ => false

theorem forall_reverse {α : Type} {P : α → Prop} {as : List α} (h : ∀ a ∈ as, P a) :
    ∀ a ∈ as.reverse, P a := fun a ha => h a (List.mem_reverse.1 ha)

namespace Message

open Stencil.Tree (Each)

/-- Of what an assembly makes the property `P` of nodes asks nothing but that its line
    has the property `Q`. -/
structure AsksLine (Q : Nat → Prop) (P : Draft → Prop) : Prop where
  made : ∀ n : Draft, n.content.isMade → Q n.mark → P n
  mark : ∀ n : Draft, P n → Q n.mark

variable {P : Draft → Prop} {Q : Nat → Prop}

/-- A property that asks nothing at all of what an assembly makes. -/
theorem asksLine_true (h : ∀ n : Draft, n.content.isMade → P n) : AsksLine (fun _ => True) P :=
  ⟨fun n hn _ => h n hn, fun _ _ => trivial⟩

/-! ### Assemblies -/

/-- The line of an open tag, and the nodes in its parts. -/
structure OpenTag.Each (Q : Nat → Prop) (P : Draft → Prop) (tag : OpenTag) : Prop where
  line : Q tag.line
  parts : ∀ p ∈ tag.parts, Tree.Each P p

/-- The line of the text of an assembly, and the nodes in its parts and in those of its
    open tag. -/
structure Assembly.Each (Q : Nat → Prop) (P : Draft → Prop) (a : Assembly) : Prop where
  parts : ∀ p ∈ a.parts, Tree.Each P p
  text : a.text ≠ [] → Q a.textLine
  tag : ∀ tag, a.tag = some tag → tag.Each Q P

/-- The lines of the texts and the nodes in the statements among items. -/
structure Item.AllEach (Q : Nat → Prop) (P : Draft → Prop) (items : List Item) : Prop where
  text : ∀ chars line, .text chars line ∈ items → Q line
  statement : ∀ d, .statement d ∈ items → Tree.Each P d

section Assembly

variable (hasks : AsksLine Q P)
include hasks

theorem each_textDraft {content : String → Content} (hcontent : ∀ text, (content text).isMade)
    {line : Nat} {backwards : List Char} (hline : backwards ≠ [] → Q line) :
    ∀ p ∈ textDraft content line backwards, Each P p := by
  intro p hp
  rw [textDraft] at hp
  split at hp
  · cases hp
  · rename_i hne
    rw [List.mem_singleton.1 hp]
    exact Tree.each_leaf (hasks.made _ (hcontent _) (hline fun hnil => hne (hnil ▸ rfl)))

namespace OpenTag.Each

variable {tag : OpenTag}

theorem flush (h : tag.Each Q P) : tag.flush.Each Q P :=
  ⟨h.line, List.forall_mem_append.2 ⟨each_textDraft hasks (fun _ => rfl) fun _ => h.line, h.parts⟩⟩

theorem toPlaceholder (h : tag.Each Q P) : Tree.Each P tag.toPlaceholder := by
  refine Tree.each_node (hasks.made _ rfl h.line) (List.forall_mem_singleton.2 ?_)
  exact Tree.each_node (hasks.made _ rfl h.line) (forall_reverse (h.flush hasks).parts)

end OpenTag.Each

namespace Assembly.Each

variable {a : Assembly}

theorem flush (h : a.Each Q P) : a.flush.Each Q P :=
  ⟨List.forall_mem_append.2 ⟨each_textDraft hasks (fun _ => rfl) h.text, h.parts⟩,
    fun hne => absurd rfl hne, h.tag⟩

theorem addChar (h : a.Each Q P) {line : Nat} (hline : Q line) (c : Char) (next : Option Char) :
    (a.addChar line c next).Each Q P := by
  rw [Assembly.addChar]
  split
  · rename_i tag htag
    have hopen : (tag.addChar c).Each Q P := ⟨(h.tag tag htag).line, (h.tag tag htag).parts⟩
    dsimp only
    split
    · exact ⟨List.forall_mem_cons.2 ⟨hopen.toPlaceholder hasks, h.parts⟩, h.text,
        fun _ hnone => (nomatch hnone)⟩
    · refine ⟨h.parts, h.text, ?_⟩
      rintro _ ⟨⟩
      exact hopen
  · split
    · refine ⟨(h.flush hasks).parts, (h.flush hasks).text, ?_⟩
      rintro _ ⟨⟩
      exact ⟨hline, List.forall_mem_nil _⟩
    · refine ⟨h.parts, fun _ => ?_, h.tag⟩
      dsimp only
      split
      · exact hline
      · rename_i hne
        exact h.text fun hnil => hne (hnil ▸ rfl)

theorem addText (h : a.Each Q P) {line : Nat} (hline : Q line) (chars : List Char) :
    (a.addText line chars).Each Q P := by
  induction chars generalizing a with
  | nil => exact h
  | cons c cs ih => exact ih (h.addChar hasks hline c cs.head?)

theorem addStatement (h : a.Each Q P) {d : Draft} (hd : Tree.Each P d) :
    (a.addStatement d).Each Q P := by
  have hflush := h.flush hasks
  have hwrap : ∀ name key, Tree.Each P (.node d.mark (.placeholder name key) [d]) := fun name key =>
    Tree.each_node (hasks.made _ rfl (hasks.mark d hd.root)) (List.forall_mem_singleton.2 hd)
  rw [Assembly.addStatement]
  split
  · exact ⟨List.forall_mem_cons.2 ⟨hwrap _ _, hflush.parts⟩, hflush.text, hflush.tag⟩
  · exact ⟨List.forall_mem_cons.2 ⟨hwrap _ _, hflush.parts⟩, hflush.text, hflush.tag⟩

theorem addItem (h : a.Each Q P) {item : Item}
    (htext : ∀ chars line, item = .text chars line → Q line)
    (hstatement : ∀ d, item = .statement d → Tree.Each P d) :
    Located Q (Assembly.Each Q P) (a.addItem item) := by
  cases item with
  | text chars line => exact located_ok (h.addText hasks (htext chars line rfl) chars)
  | statement d =>
    have hd := hstatement d rfl
    rw [Assembly.addItem]
    split
    · exact located_ok (h.addStatement hasks hd)
    · rename_i tag htag
      split
      · have hflush := (h.tag tag htag).flush hasks
        refine located_ok ⟨h.parts, h.text, ?_⟩
        rintro _ ⟨⟩
        exact ⟨hflush.line, List.forall_mem_cons.2 ⟨hd, hflush.parts⟩⟩
      · exact located_error (hasks.mark d hd.root)

theorem finish (h : a.Each Q P) :
    Located Q (fun parts => ∀ p ∈ parts, Tree.Each P p) a.finish := by
  rw [Assembly.finish]
  split
  · rename_i tag htag
    exact located_error (h.tag tag htag).line
  · exact located_ok (forall_reverse (h.flush hasks).parts)

end Assembly.Each

/-- What holds of every node of the statements holds of every node of the parts, and
    complaints are at lines of the items. -/
theorem each_assemble {items : List Item} (h : Item.AllEach Q P items) (calls : Nat) :
    Located Q (fun p => ∀ part ∈ p.1, Each P part) (assemble calls items) := by
  have hstart : Assembly.Each Q P { calls } :=
    ⟨fun _ hp => (nomatch hp), fun hne => absurd rfl hne, fun _ htag => (nomatch htag)⟩
  refine located_bind (located_foldlM (fun item hitem a ha => ?_) hstart) fun a ha => ?_
  · exact ha.addItem hasks (fun chars line htext => h.text chars line (htext ▸ hitem))
      fun d hd => h.statement d (hd ▸ hitem)
  · exact located_bind (ha.finish hasks) fun parts hparts => located_ok hparts

end Assembly

/-! ### Names -/

mutual

theorem each_mapPlaceholder (hasks : AsksLine Q P) (g : String → PlaceholderKey → String) :
    (part : Draft) → Each P part → Each P (mapPlaceholder (rename g) part)
  | .node line content children, h => by
    have hmap := each_mapPlaceholders hasks g children fun k hk => h.child hk
    have hline : Q line := hasks.mark _ h.root
    cases content with
    | placeholder name key => exact Tree.each_node (hasks.made _ rfl hline) fun k hk => h.child hk
    | plural | select | case => exact Tree.each_node (hasks.made _ rfl hline) hmap
    | _ => exact h

theorem each_mapPlaceholders (hasks : AsksLine Q P) (g : String → PlaceholderKey → String) :
    (body : List Draft) → (∀ p ∈ body, Each P p) →
      ∀ p ∈ mapPlaceholders (rename g) body, Each P p
  | [], _ => fun _ hp => (nomatch hp)
  | part :: rest, h => by
    obtain ⟨hpart, hrest⟩ := List.forall_mem_cons.1 h
    rw [mapPlaceholders]
    exact List.forall_mem_cons.2
      ⟨each_mapPlaceholder hasks g part hpart, each_mapPlaceholders hasks g rest hrest⟩

end

theorem each_nameAll (hasks : AsksLine Q P) {body : List Draft} (h : ∀ p ∈ body, Each P p) :
    ∀ p ∈ nameAll body, Each P p := by
  rw [nameAll_eq]
  exact each_mapPlaceholders hasks _ body h

end Message

end Stencil
