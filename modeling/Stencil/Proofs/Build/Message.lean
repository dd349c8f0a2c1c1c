/-
  Stencil/Proofs/Build/Message.lean
  =================================
  **Assembled nodes are placed drafts.**

  An assembly of nodes does to placed statements what an assembly of drafts does to
  the drafts: at every moment its parts are those of the drafts, placed with the
  identities of the statements for what is in them and with drawn ones for what
  wraps them.
-/
import Stencil.Build.Message
import Stencil.Proofs.Build.Names
import Stencil.Proofs.Outcome

namespace Stencil

open Stencil.Tree (place placePart placeParts placePartsBack wrappedAll wrappingAll)

variable (loc : Nat → Location)

namespace Build

variable (inner outer : Nat)

/-! ### Texts -/

section Texts

variable (content : String → Content) (hwraps : ∀ text, (content text).wraps)
include hwraps

theorem wrappedAll_textDraft_append (line : Nat) (backwards : List Char) (parts : List Draft) :
    wrappedAll (Message.textDraft content line backwards ++ parts) = wrappedAll parts := by
  rw [Message.textDraft]
  split
  · rfl
  · rw [List.singleton_append, wrappedAll, Tree.leaf, Tree.wrapped_node (hwraps _), wrappedAll,
      Nat.zero_add]

theorem textNode_eq (line : Nat) (backwards : List Char) (parts : List Draft) :
    textNode loc content (outer + wrappingAll parts) line backwards =
      (((Message.textDraft content line backwards).map
          (placePart loc none (inner + wrappedAll parts) (outer + wrappingAll parts))),
        outer + wrappingAll (Message.textDraft content line backwards ++ parts)) := by
  rw [Message.textDraft, textNode]
  split
  · rfl
  · rw [List.map_singleton, Tree.leaf, Tree.placePart_node _ _ _ _ _ _ (hwraps _),
      Tree.numberParts, Tree.claimKey_nil]
    refine Prod.ext rfl ?_
    change outer + wrappingAll parts + 1 = outer + (Tree.wrapping (.node _ _ []) + wrappingAll parts)
    rw [Tree.wrapping_node (hwraps _), wrappingAll, Nat.zero_add, Nat.add_comm 1, ← Nat.add_assoc]

theorem placePartsBack_textDraft_append (line : Nat) (backwards : List Char)
    (parts : List Draft) :
    placePartsBack loc none inner outer (Message.textDraft content line backwards ++ parts) =
      (textNode loc content (outer + wrappingAll parts) line backwards).1 ++
        placePartsBack loc none inner outer parts := by
  rw [textNode_eq loc inner outer content hwraps, Message.textDraft]
  split
  · rfl
  · rw [List.singleton_append, Tree.placePartsBack_cons]
    rfl

end Texts

/-! ### Open tags -/

namespace OpenTag

/-- The tag with placed parts. -/
def place (tag : Message.OpenTag) : OpenTag :=
  { line := tag.line
    raw := tag.raw
    source := tag.source
    parts := placePartsBack loc none inner outer tag.parts }

variable (tag : Message.OpenTag)

theorem wrappedAll_flush : wrappedAll tag.flush.parts = wrappedAll tag.parts :=
  wrappedAll_textDraft_append .rawText (fun _ => rfl) tag.line tag.raw tag.parts

theorem flush_place :
    (place loc inner outer tag).flush loc (outer + wrappingAll tag.parts) =
      (place loc inner outer tag.flush, outer + wrappingAll tag.flush.parts) := by
  have hparts := placePartsBack_textDraft_append loc inner outer .rawText
    (fun _ => rfl) tag.line tag.raw tag.parts
  have htext := textNode_eq loc inner outer .rawText (fun _ => rfl) tag.line tag.raw
    tag.parts
  refine Prod.ext ?_ ((congrArg Prod.snd htext :))
  change OpenTag.mk _ _ _ _ = OpenTag.mk _ _ _ _
  rw [OpenTag.mk.injEq]
  exact ⟨rfl, rfl, rfl, hparts.symm⟩

theorem addPrint_place (expr : Expr) {d : Draft} (hd : d.content.inOrder) :
    (place loc inner outer tag).addPrint loc (outer + wrappingAll tag.parts) expr
        (Tree.place loc none (inner + wrappedAll tag.parts) d) =
      (place loc inner outer (tag.addPrint expr d),
        outer + wrappingAll (tag.addPrint expr d).parts) := by
  rw [addPrint, flush_place]
  refine Prod.ext ?_ ?_
  · change OpenTag.mk _ _ _ _ = OpenTag.mk _ _ _ _
    rw [OpenTag.mk.injEq]
    refine ⟨rfl, rfl, rfl, ?_⟩
    change _ = placePartsBack loc none inner outer (d :: tag.flush.parts)
    rw [Tree.placePartsBack_cons, Tree.placePart_of_inOrder _ _ _ _ hd, wrappedAll_flush]
    rfl
  · change _ = outer + wrappingAll (d :: tag.flush.parts)
    rw [wrappingAll, Tree.wrapping_of_inOrder hd, Nat.zero_add]

theorem wrappedAll_addPrint (expr : Expr) {d : Draft} (hd : d.content.inOrder) :
    wrappedAll (tag.addPrint expr d).parts = wrappedAll tag.parts + d.size := by
  change wrappedAll (d :: tag.flush.parts) = _
  rw [wrappedAll, wrappedAll_flush, Tree.wrapped_of_inOrder hd, Nat.add_comm]

theorem wrapping_toPlaceholder :
    tag.toPlaceholder.wrapping = wrappingAll tag.flush.parts + 2 := by
  rw [Message.OpenTag.toPlaceholder, Tree.wrapping_node rfl, wrappingAll, Tree.wrapping_node rfl,
    wrappingAll, Nat.add_zero, Tree.wrappingAll_reverse]

theorem wrapped_toPlaceholder : tag.toPlaceholder.wrapped = wrappedAll tag.parts := by
  rw [Message.OpenTag.toPlaceholder, Tree.wrapped_node rfl, wrappedAll, Tree.wrapped_node rfl,
    wrappedAll, Nat.add_zero, Tree.wrappedAll_reverse, wrappedAll_flush]

/-- A closed tag is placed: first what is in it, then the tag, then its placeholder. -/
theorem toPlaceholder_place :
    (place loc inner outer tag).toPlaceholder loc (outer + wrappingAll tag.parts) =
      (placePart loc none inner outer tag.toPlaceholder, outer + tag.toPlaceholder.wrapping) := by
  rw [toPlaceholder, flush_place, wrapping_toPlaceholder]
  refine Prod.ext ?_ rfl
  rw [Message.OpenTag.toPlaceholder, Tree.placePart_node _ _ _ _ _ _ rfl, wrappingAll,
    Tree.wrapping_node rfl, wrappingAll, Nat.add_zero, Tree.wrappingAll_reverse,
    Tree.placeParts_cons, Tree.placePart_node _ _ _ _ _ _ rfl, Tree.wrappingAll_reverse]
  -- the tag gets its parts, and the placeholder the tag
  change Tree.push (Tree.new _ _ _) (Tree.pushAll (Tree.new _ _ _)
    (placePartsBack loc none inner outer tag.flush.parts).reverse) = _
  rw [Tree.reverse_placePartsBack, Tree.new, Tree.leaf, Tree.new, Tree.leaf, Tree.pushAll_node,
    List.nil_append, Tree.adopt_placeParts, Tree.push_node, List.nil_append]
  rfl

end OpenTag

/-! ### Assemblies -/

end Build

namespace Message.Assembly

/-- All that is made so far (backwards): the parts, and those of the open tag. -/
def made (a : Assembly) : List Draft :=
  match a.tag with
  | some tag => tag.parts ++ a.parts
  | none => a.parts

theorem made_of_some {a : Assembly} {tag : OpenTag} (h : a.tag = some tag) :
    a.made = tag.parts ++ a.parts := by
  rw [made, h]

theorem made_of_none {a : Assembly} (h : a.tag = none) : a.made = a.parts := by
  rw [made, h]

end Message.Assembly

namespace Build.Assembly

variable (inner outer : Nat) (a : Message.Assembly)

/-- The assembly with placed parts, from `inner` on for statements and from `outer` on
    for what wraps them. -/
def place : Assembly :=
  { parts := placePartsBack loc none inner outer a.parts
    text := a.text
    textLine := a.textLine
    tag := a.tag.map (OpenTag.place loc (inner + wrappedAll a.parts) (outer + wrappingAll a.parts))
    next := outer + wrappingAll a.made }

variable {a}

theorem flush_place (h : a.tag = none) :
    (place loc inner outer a).flush loc = place loc inner outer a.flush := by
  have hparts := placePartsBack_textDraft_append loc inner outer .msgText
    (fun _ => rfl) a.textLine a.text a.parts
  have htext := textNode_eq loc inner outer .msgText (fun _ => rfl) a.textLine a.text
    a.parts
  have htag : a.flush.tag = none := h
  rw [flush, place, place, Message.Assembly.made_of_none h, Message.Assembly.made_of_none htag, h,
    htag]
  dsimp only
  rw [Assembly.mk.injEq]
  exact ⟨hparts.symm, rfl, rfl, rfl, congrArg Prod.snd htext⟩

theorem wrappedAll_flush : wrappedAll a.flush.parts = wrappedAll a.parts :=
  wrappedAll_textDraft_append .msgText (fun _ => rfl) a.textLine a.text a.parts

theorem tag_place_of_some {tag : Message.OpenTag} (h : a.tag = some tag) :
    (place loc inner outer a).tag =
      some (OpenTag.place loc (inner + wrappedAll a.parts) (outer + wrappingAll a.parts) tag) := by
  rw [place, h]
  rfl

theorem tag_place_of_none (h : a.tag = none) : (place loc inner outer a).tag = none := by
  rw [place, h]
  rfl

theorem next_place_of_some {tag : Message.OpenTag} (h : a.tag = some tag) :
    (place loc inner outer a).next = outer + wrappingAll a.parts + wrappingAll tag.parts := by
  rw [place, Message.Assembly.made_of_some h, Tree.wrappingAll_append]
  dsimp only
  rw [Nat.add_comm (wrappingAll tag.parts), Nat.add_assoc]

/-- Assemblies with the same tag and texts are placed alike if their parts are. -/
theorem place_eq {b : Assembly} (hparts : b.parts = placePartsBack loc none inner outer a.parts)
    (htext : b.text = a.text) (hline : b.textLine = a.textLine)
    (htag : b.tag = (place loc inner outer a).tag) (hnext : b.next = outer + wrappingAll a.made) :
    b = place loc inner outer a := by
  cases b
  rw [place, Assembly.mk.injEq]
  exact ⟨hparts, htext, hline, htag, hnext⟩

/-- A character takes a placed assembly to a placed one. -/
theorem addChar_place (line : Nat) (c : Char) (following : Option Char) :
    (place loc inner outer a).addChar loc line c following =
      place loc inner outer (a.addChar line c following) := by
  rw [addChar, Message.Assembly.addChar]
  cases htag : a.tag with
  | some tag =>
    rw [tag_place_of_some loc inner outer htag, next_place_of_some loc inner outer htag]
    dsimp only
    split
    · -- the tag is closed
      have hclosed : OpenTag.toPlaceholder loc
          (outer + wrappingAll a.parts + wrappingAll tag.parts)
          ((OpenTag.place loc (inner + wrappedAll a.parts) (outer + wrappingAll a.parts) tag).addChar
            c) = _ :=
        OpenTag.toPlaceholder_place loc _ _ (tag.addChar c)
      refine place_eq loc inner outer ?_ rfl rfl rfl ?_
      · dsimp only
        rw [hclosed, Tree.placePartsBack_cons]
        rfl
      · dsimp only
        rw [hclosed, Message.Assembly.made, wrappingAll, Nat.add_comm (Tree.wrapping _),
          ← Nat.add_assoc]
    · refine place_eq loc inner outer rfl rfl rfl rfl ?_
      exact (next_place_of_some (a := { a with tag := some (tag.addChar c) }) loc inner outer
        rfl).symm
  | none =>
    rw [tag_place_of_none loc inner outer htag]
    dsimp only
    split
    · -- a tag opens after the text so far
      rw [flush_place loc inner outer htag]
      have htag' : a.flush.tag = none := htag
      refine place_eq loc inner outer rfl rfl rfl rfl ?_
      rw [place, Message.Assembly.made_of_none htag']
      rfl
    · refine place_eq loc inner outer rfl rfl rfl rfl ?_
      rw [place, Message.Assembly.made_of_none htag]
      rfl

theorem addText_place (line : Nat) (chars : List Char) :
    (place loc inner outer a).addText loc line chars =
      place loc inner outer (a.addText line chars) := by
  induction chars generalizing a with
  | nil => rfl
  | cons c cs ih => rw [addText, addChar_place, ih, Message.Assembly.addText]

/-! ### What is wrapped -/

theorem wrappedAll_made_addChar (line : Nat) (c : Char) (following : Option Char) :
    wrappedAll (a.addChar line c following).made = wrappedAll a.made := by
  rw [Message.Assembly.addChar]
  cases htag : a.tag with
  | some tag =>
    rw [Message.Assembly.made_of_some htag, Tree.wrappedAll_append]
    dsimp only
    split
    · rw [Message.Assembly.made, wrappedAll, OpenTag.wrapped_toPlaceholder]
      rfl
    · rw [Message.Assembly.made, Tree.wrappedAll_append]
      rfl
  | none =>
    rw [Message.Assembly.made_of_none htag]
    dsimp only
    split
    · exact wrappedAll_flush
    · rw [Message.Assembly.made_of_none rfl]

theorem wrappedAll_made_addText (line : Nat) (chars : List Char) :
    wrappedAll (a.addText line chars).made = wrappedAll a.made := by
  induction chars generalizing a with
  | nil => rfl
  | cons c cs ih => rw [Message.Assembly.addText, ih, wrappedAll_made_addChar]

/-! ### Statements -/

variable {d : Draft} (hd : d.content.inOrder)
include hd

/-- A placed statement in a placeholder is the placed placeholder. -/
theorem wrap_place (h : a.tag = none) (name : String) (key : PlaceholderKey) (calls : Nat) :
    { place loc inner outer a with
      parts := (Tree.new (outer + wrappingAll a.parts) (loc d.mark) (.placeholder name
          (match key with
            | .shared text => .shared text
            | .own _ => .own (inner + wrappedAll a.parts)))).push
        (Tree.place loc none (inner + wrappedAll a.parts) d) ::
          (place loc inner outer a).parts
      next := outer + wrappingAll a.parts + 1 } =
    place loc inner outer
      { a with parts := .node d.mark (.placeholder name key) [d] :: a.parts, calls } := by
  refine place_eq loc inner outer ?_ rfl rfl ?_ ?_
  · rw [Tree.placePartsBack_cons, Tree.placePart_placeholder _ _ _ _ _ hd, Tree.new, Tree.leaf,
      Tree.push_node, ← Tree.withParent_place loc (some _)]
    rfl
  · rw [tag_place_of_none loc inner outer (a := { a with parts := _, calls }) h]
    exact tag_place_of_none loc inner outer h
  · rw [Message.Assembly.made_of_none (a := { a with parts := _, calls }) h, wrappingAll,
      Tree.wrapping_node rfl, wrappingAll, Tree.wrapping_of_inOrder hd, wrappingAll,
      Nat.add_comm (0 + 0 + 1), ← Nat.add_assoc]

/-- A placed statement outside of tags becomes a placed placeholder, and a call has its
    identity as its key. -/
theorem addStatement_place (h : a.tag = none) :
    (place loc inner outer a).addStatement loc
        (Tree.place loc none (inner + wrappedAll a.parts) d) =
      place loc inner outer (a.addStatement d) := by
  have htag : a.flush.tag = none := h
  have hwrap := wrap_place loc inner outer hd htag
  rw [wrappedAll_flush] at hwrap
  have hnext : (place loc inner outer a.flush).next = outer + wrappingAll a.flush.parts := by
    rw [place, Message.Assembly.made_of_none htag]
  rw [addStatement, flush_place loc inner outer h, Tree.content_place _ _ _ hd,
    Tree.id_place _ _ _ hd, Tree.loc_place _ _ _ hd, hnext, Message.Assembly.addStatement]
  cases d.content with
  | print expr directives implicit => exact hwrap _ (Message.printKey expr directives) _
  | _ => exact hwrap _ (.own a.flush.calls) _

theorem wrappedAll_made_addStatement (h : a.tag = none) :
    wrappedAll (a.addStatement d).made = wrappedAll a.made + d.size := by
  have htag : a.flush.tag = none := h
  have hplaceholder : ∀ name key,
      wrappedAll (Tree.node d.mark (.placeholder name key) [d] :: a.flush.parts) =
        wrappedAll a.parts + d.size := by
    intro name key
    rw [wrappedAll, Tree.wrapped_node rfl, wrappedAll, Tree.wrapped_of_inOrder hd, wrappedAll,
      Nat.add_zero, wrappedAll_flush, Nat.add_comm]
  rw [Message.Assembly.made_of_none h, Message.Assembly.addStatement]
  split
  · exact (congrArg wrappedAll (Message.Assembly.made_of_none (by exact h))).trans (hplaceholder _ _)
  · exact (congrArg wrappedAll (Message.Assembly.made_of_none (by exact h))).trans (hplaceholder _ _)

/-- A placed statement takes a placed assembly to a placed one, or is refused like the
    draft. -/
theorem addItem_place :
    (place loc inner outer a).addItem loc
        (.statement (Tree.place loc none (inner + wrappedAll a.made) d) d.mark) =
      (a.addItem (.statement d)).map (place loc inner outer) := by
  rw [addItem, Message.Assembly.addItem]
  cases htag : a.tag with
  | none =>
    rw [tag_place_of_none loc inner outer htag, Message.Assembly.made_of_none htag]
    exact congrArg Except.ok (addStatement_place loc inner outer hd htag)
  | some tag =>
    rw [tag_place_of_some loc inner outer htag, next_place_of_some loc inner outer htag,
      Message.Assembly.made_of_some htag, Tree.wrappedAll_append, Nat.add_comm (wrappedAll tag.parts),
      ← Nat.add_assoc, Tree.content_place _ _ _ hd]
    cases d.content with
    | print expr directives implicit =>
      dsimp only
      rw [OpenTag.addPrint_place _ _ _ _ _ hd]
      refine congrArg Except.ok (place_eq loc inner outer rfl rfl rfl rfl ?_)
      exact (next_place_of_some (a := { a with tag := some (tag.addPrint expr d) }) loc inner outer
        rfl).symm
    | _ => rfl

theorem wrappedAll_made_addItem {a' : Message.Assembly} (h : a.addItem (.statement d) = .ok a') :
    wrappedAll a'.made = wrappedAll a.made + d.size := by
  rw [Message.Assembly.addItem] at h
  cases htag : a.tag with
  | none =>
    rw [htag] at h
    cases h
    exact wrappedAll_made_addStatement hd htag
  | some tag =>
    rw [htag] at h
    dsimp only at h
    split at h
    · cases h
      rw [Message.Assembly.made_of_some htag, Message.Assembly.made_of_some rfl,
        Tree.wrappedAll_append, Tree.wrappedAll_append, OpenTag.wrappedAll_addPrint _ _ hd,
        Nat.add_right_comm]
    · cases h

end Build.Assembly

namespace Build

/-! ### Items -/

/-- Items with their statements placed one after the other, from `start` up to the next
    free identity; both lists are kept backwards. -/
inductive ItemsBuilt (start : Nat) : List Message.Item → List Item → Nat → Prop
  | nil : ItemsBuilt start [] [] start
  | text {items : List Message.Item} {built : List Item} {next : Nat} (chars : List Char)
      (line : Nat) (h : ItemsBuilt start items built next) :
      ItemsBuilt start (.text chars line :: items) (.text chars line :: built) next
  | statement {items : List Message.Item} {built : List Item} {next : Nat} {d : Draft}
      (h : ItemsBuilt start items built next) (hd : d.content.inOrder) :
      ItemsBuilt start (.statement d :: items)
        (.statement (Tree.place loc none next d) d.mark :: built) (next + d.size)

variable {loc}

/-- Placed items take an assembly to a placed one, or are refused like the drafts. -/
theorem foldlM_addItem_place {start next : Nat} (outer calls : Nat) {items : List Message.Item}
    {built : List Item} (h : ItemsBuilt loc start items built next) :
    (built.reverse.foldlM (Assembly.addItem loc) { next := outer } =
        (items.reverse.foldlM Message.Assembly.addItem { calls }).map
          (Assembly.place loc start outer)) ∧
      ∀ a, items.reverse.foldlM Message.Assembly.addItem { calls } = .ok a →
        start + wrappedAll a.made = next := by
  induction h with
  | nil =>
    refine ⟨rfl, fun a ha => ?_⟩
    cases ha
    rfl
  | text chars line h ih =>
    obtain ⟨hrun, hnext⟩ := ih
    rw [List.reverse_cons, List.reverse_cons, List.foldlM_append, List.foldlM_append, hrun]
    cases hdrafts : List.foldlM Message.Assembly.addItem { calls } _ with
    | error e => exact ⟨rfl, fun a ha => by cases ha⟩
    | ok a =>
      refine ⟨?_, fun a' ha' => ?_⟩
      · exact congrArg Except.ok (Assembly.addText_place loc start outer line chars)
      · cases ha'
        rw [Assembly.wrappedAll_made_addText]
        exact hnext a hdrafts
  | statement h hd ih =>
    obtain ⟨hrun, hnext⟩ := ih
    rw [List.reverse_cons, List.reverse_cons, List.foldlM_append, List.foldlM_append, hrun]
    cases hdrafts : List.foldlM Message.Assembly.addItem { calls } _ with
    | error e => exact ⟨rfl, fun a ha => by cases ha⟩
    | ok a =>
      have hstep := Assembly.addItem_place loc start outer hd (a := a)
      rw [hnext a hdrafts] at hstep
      refine ⟨?_, fun a' ha' => ?_⟩
      · change (Assembly.addItem loc _ _ >>= pure) = ((Message.Assembly.addItem _ _ >>= pure).map _)
        rw [bind_pure, bind_pure, hstep]
      · change (Message.Assembly.addItem _ _ >>= pure) = _ at ha'
        rw [bind_pure] at ha'
        rw [Assembly.wrappedAll_made_addItem hd ha', ← Nat.add_assoc, hnext a hdrafts]

theorem finish_place (inner outer : Nat) (a : Message.Assembly) :
    (Assembly.place loc inner outer a).finish loc =
      a.finish.map fun parts =>
        (placeParts loc none inner outer parts, outer + wrappingAll parts) := by
  rw [Assembly.finish, Message.Assembly.finish]
  cases htag : a.tag with
  | some tag =>
    rw [Assembly.tag_place_of_some loc inner outer htag]
    rfl
  | none =>
    have htag' : a.flush.tag = none := htag
    rw [Assembly.tag_place_of_none loc inner outer htag, Assembly.flush_place loc inner outer htag,
      Assembly.place, Message.Assembly.made_of_none htag', ← Tree.wrappingAll_reverse]
    refine congrArg Except.ok (Prod.ext ?_ rfl)
    exact Tree.reverse_placePartsBack loc none inner outer a.flush.parts

theorem wrappedAll_of_finish {a : Message.Assembly} {parts : List Draft}
    (h : a.finish = .ok parts) : wrappedAll parts = wrappedAll a.made := by
  rw [Message.Assembly.finish] at h
  cases htag : a.tag with
  | some tag =>
    rw [htag] at h
    cases h
  | none =>
    rw [htag] at h
    cases h
    rw [Tree.wrappedAll_reverse, Assembly.wrappedAll_flush, Message.Assembly.made_of_none htag]

/-- The parts that placed items make are the placed parts of the drafts, and what wraps
    the statements comes after them all. -/
theorem assemble_eq {start next : Nat} (outer calls : Nat) {items : List Message.Item}
    {built : List Item} (h : ItemsBuilt loc start items built next) :
    assemble loc outer built.reverse =
      (Message.assemble calls items.reverse).map fun (parts, _) =>
        (placeParts loc none start outer parts, outer + wrappingAll parts) := by
  rw [assemble, Message.assemble, (foldlM_addItem_place outer calls h).1]
  cases List.foldlM Message.Assembly.addItem { calls } items.reverse with
  | error e => rfl
  | ok a =>
    change Assembly.finish loc _ = _
    rw [finish_place]
    cases hfinish : a.finish with
    | error e =>
      change _ = Except.map _ (a.finish >>= _)
      rw [hfinish]
      rfl
    | ok parts =>
      change _ = Except.map _ (a.finish >>= _)
      rw [hfinish]
      rfl

theorem wrappedAll_of_assemble {start next calls calls' : Nat} {items : List Message.Item}
    {built : List Item} (h : ItemsBuilt loc start items built next) {parts : List Draft}
    (hparts : Message.assemble calls items.reverse = .ok (parts, calls')) :
    start + wrappedAll parts = next := by
  rw [Message.assemble, bind_eq_ok] at hparts
  obtain ⟨a, ha, hparts⟩ := hparts
  obtain ⟨parts', hfinish, hparts⟩ := bind_eq_ok.1 hparts
  cases hparts
  rw [wrappedAll_of_finish hfinish]
  exact (foldlM_addItem_place 0 calls h).2 a ha

/-! ### Calls in the order of the text -/

open Message (claims)

/-- The calls among parts (backwards), placed from `start` and `outer` on, are in order: they
    have the numbers from `lo` up to `calls`. -/
structure CallsInOrder (lo start outer calls : Nat) (parts : List Draft) : Prop where
  le : lo ≤ calls
  inOrder : Message.InOrder lo calls start (start + wrappedAll parts)
    (claims (Tree.numberParts start outer parts.reverse).1)

namespace CallsInOrder

variable {lo start outer calls : Nat} {parts : List Draft}

theorem nil (calls start outer : Nat) : CallsInOrder calls start outer calls [] :=
  ⟨Nat.le_refl _, .nil⟩

theorem cons {calls' : Nat} {part : Draft} (h : CallsInOrder lo start outer calls parts)
    (hle : calls ≤ calls')
    (hpart : Message.InOrder calls calls' (start + wrappedAll parts)
      (start + wrappedAll parts + part.wrapped)
      (claims [(Tree.numberPart (start + wrappedAll parts) (outer + wrappingAll parts) part).1])) :
    CallsInOrder lo start outer calls' (part :: parts) := by
  refine ⟨Nat.le_trans h.le hle, ?_⟩
  rw [List.reverse_cons, Tree.numberParts_append, Message.claims_append, Tree.wrappedAll_reverse,
    Tree.wrappingAll_reverse, wrappedAll, Nat.add_comm part.wrapped, ← Nat.add_assoc]
  exact h.inOrder.append hpart h.le hle (Nat.le_add_right _ _) (Nat.le_add_right _ _)

/-- What has a shared key or none is no call. -/
theorem consShared {line : Nat} {name text : String} {inside : List Draft}
    (h : CallsInOrder lo start outer calls parts) :
    CallsInOrder lo start outer calls (.node line (.placeholder name (.shared text)) inside :: parts) :=
  h.cons (Nat.le_refl _) (.shared name text)

theorem flush {line : Nat} {text : List Char} (h : CallsInOrder lo start outer calls parts) :
    CallsInOrder lo start outer calls (Message.textDraft .msgText line text ++ parts) := by
  rw [Message.textDraft]
  split
  · exact h
  · exact h.cons (Nat.le_refl _) .nil

theorem consOwn {name : String} {d : Draft} (h : CallsInOrder lo start outer calls parts)
    (hd : d.content.inOrder) :
    CallsInOrder lo start outer (calls + 1)
      (.node d.mark (.placeholder name (.own calls)) [d] :: parts) := by
  refine h.cons (Nat.le_succ _) ?_
  have hwrapped : (Tree.node d.mark (.placeholder name (.own calls)) [d]).wrapped = d.size := by
    rw [Tree.wrapped_node rfl, wrappedAll, wrappedAll, Tree.wrapped_of_inOrder hd, Nat.add_zero]
  have hsize : 0 < d.size := by
    rw [Tree.size_eq]
    exact Nat.succ_pos _
  rw [Message.claims_own hd, hwrapped]
  exact .own name (by omega)

variable {a : Message.Assembly}

theorem addChar (h : CallsInOrder lo start outer a.calls a.parts) (line : Nat) (c : Char)
    (following : Option Char) :
    CallsInOrder lo start outer (a.addChar line c following).calls
      (a.addChar line c following).parts := by
  rw [Message.Assembly.addChar]
  split
  · dsimp only
    split
    · exact h.consShared
    · exact h
  · split
    · exact h.flush
    · exact h

theorem addText (h : CallsInOrder lo start outer a.calls a.parts) (line : Nat)
    (chars : List Char) :
    CallsInOrder lo start outer (a.addText line chars).calls (a.addText line chars).parts := by
  induction chars generalizing a with
  | nil => exact h
  | cons c cs ih => exact ih (h.addChar line c cs.head?)

theorem addStatement (h : CallsInOrder lo start outer a.calls a.parts) {d : Draft}
    (hd : d.content.inOrder) :
    CallsInOrder lo start outer (a.addStatement d).calls (a.addStatement d).parts := by
  have hflush : CallsInOrder lo start outer a.flush.calls a.flush.parts := h.flush
  rw [Message.Assembly.addStatement]
  split
  · exact hflush.consShared
  · exact hflush.consOwn hd

theorem addItem (h : CallsInOrder lo start outer a.calls a.parts) {d : Draft}
    (hd : d.content.inOrder) {a' : Message.Assembly} (hok : a.addItem (.statement d) = .ok a') :
    CallsInOrder lo start outer a'.calls a'.parts := by
  rw [Message.Assembly.addItem] at hok
  split at hok
  · cases hok
    exact h.addStatement hd
  · split at hok
    · cases hok
      exact h
    · cases hok

end CallsInOrder

theorem callsInOrder_foldlM {start next : Nat} (outer calls : Nat) {items : List Message.Item}
    {built : List Item} (h : ItemsBuilt loc start items built next) (a : Message.Assembly)
    (ha : items.reverse.foldlM Message.Assembly.addItem { calls } = .ok a) :
    CallsInOrder calls start outer a.calls a.parts := by
  induction h generalizing a with
  | nil =>
    cases ha
    exact .nil calls start outer
  | text chars line h ih =>
    rw [List.reverse_cons, List.foldlM_append] at ha
    obtain ⟨a₀, ha₀, ha⟩ := bind_eq_ok.1 ha
    cases ha
    exact (ih a₀ ha₀).addText line chars
  | statement h hd ih =>
    rw [List.reverse_cons, List.foldlM_append] at ha
    obtain ⟨a₀, ha₀, ha⟩ := bind_eq_ok.1 ha
    obtain ⟨a₁, ha₁, ha⟩ := bind_eq_ok.1 ha
    cases ha
    exact (ih a₀ ha₀).addItem hd ha₁

/-- The calls of placed parts are in order, whatever wraps them. -/
theorem inOrder_of_assemble {start next calls calls' : Nat} (outer : Nat)
    {items : List Message.Item} {built : List Item} (h : ItemsBuilt loc start items built next)
    {parts : List Draft} (hparts : Message.assemble calls items.reverse = .ok (parts, calls')) :
    calls ≤ calls' ∧
      Message.InOrder calls calls' start next (claims (Tree.numberParts start outer parts).1) := by
  have hnext := wrappedAll_of_assemble h hparts
  rw [Message.assemble, bind_eq_ok] at hparts
  obtain ⟨a, ha, hparts⟩ := hparts
  obtain ⟨parts', hfinish, hparts⟩ := bind_eq_ok.1 hparts
  cases hparts
  have hcalls := callsInOrder_foldlM outer calls h a ha
  rw [Message.Assembly.finish] at hfinish
  split at hfinish
  · cases hfinish
  · cases hfinish
    have hflush : CallsInOrder calls start outer a.calls a.flush.parts := hcalls.flush
    rw [Tree.wrappedAll_reverse] at hnext
    rw [← hnext]
    exact ⟨hflush.le, hflush.inOrder⟩

end Build

end Stencil
