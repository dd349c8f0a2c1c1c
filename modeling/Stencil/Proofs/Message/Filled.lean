/-
  Stencil/Proofs/Message/Filled.lean
  ==================================
  **Nothing in a message is missing or empty.**

  A group has its message and at most one more, a placeholder has one inside and
  a name in capitals, and a tag has no empty texts.  An assembly leaves out empty
  texts and wraps each tag and each statement on its own, and naming changes
  names of placeholders only.
-/
import Stencil.Proofs.Message.Formed

namespace Stencil

/-- What stands in a placeholder: a print, a call or a tag. -/
def Content.isInside : Content → Bool
  | print _ _ _ | call _ _ | htmlTag _ _ _ => true
  | _ => false

@[simp] theorem Content.isInside_form (content : Content) :
    content.form.isInside = content.isInside := by
  cases content <;> rfl

namespace Message

open Body (Reads Role)

variable {α : Type}

/-! ### What groups, placeholders and tags are filled with -/

/-- What a tag is made of: a text that is not empty, or a print. -/
def IsTagPiece (content : Content) : Prop :=
  (∃ text, content = .rawText text ∧ text ≠ "") ∨
    ∃ expr directives implicit, content = .print expr directives implicit

/-- The children of a group, a placeholder or a tag are as many and such as belong
    there, and the name of a placeholder is one. -/
def Fills (content : Content) (children : List Content) : Prop :=
  match content with
  | .msgGroup => (children.length = 1 ∨ children.length = 2) ∧
      ∀ c ∈ children, ∃ desc meaning hidden, c = .msg desc meaning hidden
  | .placeholder name _ => IsCapitalName name ∧ ∃ inside, children = [inside] ∧ inside.isInside
  | .htmlTag _ _ _ => ∀ c ∈ children, IsTagPiece c
  | _ => True

def FilledAt (n : Tree α) : Prop := Fills n.content (n.children.map Tree.content)

/-- All groups, placeholders and tags of a tree are filled. -/
def Filled (t : Tree α) : Prop := Tree.Each FilledAt t

/-! ### What only depends on forms and names -/

theorem isTagPiece_form (content : Content) : IsTagPiece content.form ↔ IsTagPiece content := by
  cases content <;> simp [IsTagPiece, Content.form]

theorem exists_msg_form (content : Content) :
    (∃ desc meaning hidden, content.form = .msg desc meaning hidden) ↔
      ∃ desc meaning hidden, content = .msg desc meaning hidden := by
  cases content <;> simp [Content.form]

/-- Of the children only the forms matter. -/
theorem fills_map_form (content : Content) (children : List Content) :
    Fills content (children.map Content.form) ↔ Fills content children := by
  cases content with
  | msgGroup => simp only [Fills, List.length_map, List.forall_mem_map, exists_msg_form]
  | placeholder name key => simp [Fills, List.map_eq_singleton_iff]
  | htmlTag name isEnd selfEnding => simp [Fills, isTagPiece_form]
  | _ => exact Iff.rfl

section Keep

/-! A change of contents that keeps forms and the names of placeholders. -/

variable {f : Content → Content} (hform : ∀ content, (f content).form = content.form)
  (hname : ∀ name key, ∃ key', f (.placeholder name key) = .placeholder name key')
include hform hname

theorem fills_keep (content : Content) (children : List Content) :
    Fills (f content) (children.map f) ↔ Fills content children := by
  have hforms : (children.map f).map Content.form = children.map Content.form := by
    rw [List.map_map, show Content.form ∘ f = Content.form from funext hform]
  rw [← fills_map_form, hforms, fills_map_form]
  have hcontent := hform content
  cases content with
  | placeholder name key =>
    obtain ⟨key', hkey⟩ := hname name key
    rw [hkey]
    exact Iff.rfl
  | _ => cases hf : f _ <;> rw [hf] at hcontent <;> cases hcontent <;> exact Iff.rfl

end Keep

theorem filledAt_gist (n : Tree α) : FilledAt n.gist ↔ FilledAt n := by
  rw [FilledAt, map_content_children_gist, Tree.content_gist]
  refine fills_keep Content.form_gist (fun name key => ?_) _ _
  cases key <;> exact ⟨_, rfl⟩

/-! ### Tags -/

theorem filled_leaf {mark : α} {content : Content} (h : Fills content []) :
    Filled (.leaf mark content : Tree α) := Tree.each_leaf h

/-- The parts of an open tag. -/
def OpenTag.Filled (tag : OpenTag) : Prop :=
  ∀ p ∈ tag.parts, Message.Filled p ∧ IsTagPiece p.content

namespace OpenTag

variable {tag : OpenTag}

theorem Filled.flush (h : tag.Filled) : tag.flush.Filled := by
  intro p hp
  rcases List.mem_append.1 hp with hp | hp
  · rw [textDraft] at hp
    split at hp
    · cases hp
    · rename_i hempty
      rw [List.mem_singleton] at hp
      subst hp
      refine ⟨filled_leaf trivial, .inl ⟨_, rfl, fun hnil => hempty ?_⟩⟩
      rw [String.ofList_eq_empty_iff, List.reverse_eq_nil_iff] at hnil
      rw [hnil]
      rfl
  · exact h p hp

theorem Filled.addPrint (h : tag.Filled) {d : Draft} {expr : Expr}
    {directives : List PrintDirective} {implicit : Bool} (hd : Message.Filled d)
    (hcontent : d.content = .print expr directives implicit) : (tag.addPrint expr d).Filled :=
  List.forall_mem_cons.2 ⟨⟨hd, .inr ⟨expr, directives, implicit, hcontent⟩⟩, h.flush⟩

theorem Filled.toPlaceholder (h : tag.Filled) : Message.Filled tag.toPlaceholder := by
  have hflush := h.flush
  refine Tree.each_node ⟨?_, _, rfl, rfl⟩ fun k hk => ?_
  · exact isCapitalName_tagName (isAlphanum_of_mem_element _) _ _
  · rw [List.mem_singleton] at hk
    subst hk
    refine Tree.each_node (List.forall_mem_map.2 fun p hp => ?_) fun p hp => ?_
    · exact (hflush p (List.mem_reverse.1 hp)).2
    · exact (hflush p (List.mem_reverse.1 hp)).1

end OpenTag

/-! ### Assemblies -/

/-- The parts of an assembly, and those of its open tag. -/
structure Assembly.Filled (a : Assembly) : Prop where
  parts : ∀ p ∈ a.parts, Message.Filled p
  tag : ∀ tag, a.tag = some tag → tag.Filled

namespace Assembly

variable {a a' : Assembly}

theorem Filled.flush (h : a.Filled) : a.flush.Filled := by
  refine ⟨fun p hp => ?_, h.tag⟩
  rcases List.mem_append.1 hp with hp | hp
  · rw [textDraft] at hp
    split at hp
    · cases hp
    · rw [List.mem_singleton.1 hp]
      exact filled_leaf trivial
  · exact h.parts p hp

theorem Filled.addChar (h : a.Filled) (line : Nat) (c : Char) (next : Option Char) :
    (a.addChar line c next).Filled := by
  rw [Assembly.addChar]
  split
  · rename_i tag htag
    have hadd : (tag.addChar c).Filled := h.tag tag htag
    dsimp only
    split
    · refine ⟨List.forall_mem_cons.2 ⟨hadd.toPlaceholder, h.parts⟩, ?_⟩
      rintro _ ⟨⟩
    · refine ⟨h.parts, ?_⟩
      rintro _ ⟨⟩
      exact hadd
  · split
    · refine ⟨h.flush.parts, ?_⟩
      rintro _ ⟨⟩
      exact List.forall_mem_nil _
    · exact ⟨h.parts, h.tag⟩

theorem Filled.addText (h : a.Filled) (line : Nat) (chars : List Char) :
    (a.addText line chars).Filled := by
  induction chars generalizing a with
  | nil => exact h
  | cons c cs ih => exact ih (h.addChar line c cs.head?)

/-- A statement outside of tags is wrapped in a placeholder. -/
theorem Filled.addStatement (h : a.Filled) {d : Draft} (hd : Message.Filled d)
    (hitem : Body.IsItem d.content) : (a.addStatement d).Filled := by
  have hflush := h.flush
  have hwrap : ∀ name key, IsCapitalName name → d.content.isInside →
      Message.Filled (.node d.mark (.placeholder name key) [d] : Draft) := by
    intro name key hname hinside
    refine Tree.each_node ⟨hname, _, rfl, hinside⟩ fun k hk => ?_
    rwa [List.mem_singleton.1 hk]
  rw [Assembly.addStatement]
  rcases hitem with hcall | ⟨implicit, text, htext⟩
  · cases hcontent : d.content with
    | call target data =>
      refine ⟨List.forall_mem_cons.2 ⟨hwrap _ _ (by decide) ?_, hflush.parts⟩, hflush.tag⟩
      rw [hcontent]
      rfl
    | _ =>
      rw [hcontent] at hcall
      cases hcall
  · obtain ⟨expr, directives, hcontent⟩ := Body.exists_print htext
    rw [hcontent] at htext
    obtain ⟨-, piece, -, -, rfl, -⟩ := Body.exists_pieces_of_isPrint ⟨implicit, text, htext⟩
    rw [hcontent]
    refine ⟨List.forall_mem_cons.2 ⟨hwrap _ _ (isCapitalName_exprName piece) ?_, hflush.parts⟩,
      hflush.tag⟩
    rw [hcontent]
    rfl

theorem Filled.addItem (h : a.Filled) {item : Item}
    (hd : ∀ d, item = .statement d → Message.Filled d ∧ Body.IsItem d.content)
    (hok : a.addItem item = .ok a') : a'.Filled := by
  cases item with
  | text chars line =>
    cases hok
    exact h.addText line chars
  | statement d =>
    obtain ⟨hfilled, hitem⟩ := hd d rfl
    rw [Assembly.addItem] at hok
    split at hok
    · cases hok
      exact h.addStatement hfilled hitem
    · rename_i tag htag
      split at hok
      · rename_i hcontent
        cases hok
        refine ⟨h.parts, fun tag' htag' => ?_⟩
        cases htag'
        exact (h.tag tag htag).addPrint hfilled hcontent
      · cases hok

theorem Filled.finish (h : a.Filled) {parts : List Draft} (hok : a.finish = .ok parts) :
    ∀ p ∈ parts, Message.Filled p := by
  rw [Assembly.finish] at hok
  split at hok
  · cases hok
  · cases hok
    exact fun p hp => h.flush.parts p (List.mem_reverse.1 hp)

end Assembly

/-- Parts that are assembled from filled prints and calls are filled. -/
theorem filled_of_assemble {before after : Nat} {items : List Item} {parts : List Draft}
    (hitems : ∀ d, .statement d ∈ items → Filled d ∧ Body.IsItem d.content)
    (h : assemble before items = .ok (parts, after)) : ∀ p ∈ parts, Filled p := by
  simp only [assemble, bind_eq_ok] at h
  obtain ⟨a, ha, parts', hparts', h⟩ := h
  cases h
  have hstart : Assembly.Filled { calls := before } := by
    refine ⟨List.forall_mem_nil _, ?_⟩
    rintro _ ⟨⟩
  refine Assembly.Filled.finish (foldlM_keeps (fun item hitem b b' hb hok => ?_) hstart ha) hparts'
  exact hb.addItem (fun d hd => hitems d (hd ▸ hitem)) hok

/-! ### Named bodies -/

mutual

theorem filled_mapPlaceholder {g : String → PlaceholderKey → String}
    (hg : ∀ base key, IsCapitalName base → IsCapitalName (g base key)) :
    (part : Tree α) → Filled part → Filled (mapPlaceholder (rename g) part)
  | .node mark content children, h => by
    have hmap := filled_mapPlaceholders hg children fun k hk => h.child hk
    cases content with
    | placeholder name key =>
      exact Tree.each_node ⟨hg name key h.root.1, h.root.2⟩ fun k hk => h.child hk
    | plural | select | case => exact Tree.each_node trivial hmap
    | _ => exact h

theorem filled_mapPlaceholders {g : String → PlaceholderKey → String}
    (hg : ∀ base key, IsCapitalName base → IsCapitalName (g base key)) :
    (body : List (Tree α)) → (∀ p ∈ body, Filled p) →
      ∀ p ∈ mapPlaceholders (rename g) body, Filled p
  | [], _ => fun _ hp => (nomatch hp)
  | part :: rest, h => by
    intro p hp
    rw [mapPlaceholders] at hp
    rcases List.mem_cons.1 hp with rfl | hp
    · exact filled_mapPlaceholder hg part (h part List.mem_cons_self)
    · exact filled_mapPlaceholders hg rest (fun q hq => h q (List.mem_cons_of_mem _ hq)) p hp

end

theorem filled_nameAll {body : List (Tree α)} (h : ∀ p ∈ body, Filled p) :
    ∀ p ∈ nameAll body, Filled p := by
  rw [nameAll_eq]
  exact filled_mapPlaceholders (fun base key hbase => isCapitalName_finalName hbase key) body h

/-! ### What is read is filled -/

theorem filled_of_reads {scope : Scope} {role : Role} {d : Draft} (h : Reads scope role d) :
    Filled d := by
  induction h with
  | text line chars hchars => exact filled_leaf trivial
  | print line hcontent =>
    obtain ⟨expr, directives, rfl⟩ := Body.exists_print hcontent
    exact filled_leaf trivial
  | xid line hcontent =>
    obtain ⟨name, rfl⟩ := Body.exists_xid hcontent
    exact filled_leaf trivial
  | conditional line hbranches ih => exact Tree.each_node trivial ih
  | branch line condition hbody ih => exact Tree.each_node trivial ih
  | @call line content params hcontent hparams hkeys ih =>
    have hcall := Body.isCall_of_isCall hcontent
    cases content with
    | call target data => exact Tree.each_node trivial ih
    | _ => cases hcall
  | valueParam line hparam => exact filled_leaf trivial
  | contentParam line hparam hbody ih => exact Tree.each_node trivial ih
  | group line hmessages hcount ih =>
    refine Tree.each_node ⟨by simpa using hcount, List.forall_mem_map.2 fun m hm => ?_⟩ ih
    have hfits := fits_of_reads (hmessages m hm)
    cases hcontent : m.content <;> rw [hcontent] at hfits <;>
      first | exact ⟨_, _, _, rfl⟩ | cases hfits
  | message line hcontent hitems hkinds hparts ih =>
    obtain ⟨desc, meaning, hidden, rfl⟩ := Body.exists_msg hcontent
    refine Tree.each_node trivial (filled_nameAll (filled_of_assemble ?_ hparts))
    exact fun d hd => ⟨ih d hd, hkinds d hd⟩
  | choiceMessage line hcontent hchoice ih =>
    obtain ⟨desc, meaning, hidden, rfl⟩ := Body.exists_msg hcontent
    refine Tree.each_node trivial (filled_nameAll fun p hp => ?_)
    rwa [List.mem_singleton.1 hp]
  | @choice line command content labelled default hcontent hcases hlabelled hdefault ih =>
    have hchoice := Body.isChoice_of_isChoice hcontent
    cases content with
    | plural expr offset name => exact Tree.each_node trivial ih
    | select expr name => exact Tree.each_node trivial ih
    | _ => cases hchoice
  | case line hlabel hitems hkinds hparts ih =>
    refine Tree.each_node trivial (filled_of_assemble ?_ hparts)
    exact fun d hd => ⟨ih d hd, hkinds d hd⟩

end Message

end Stencil
