/-
  Stencil/Proofs/Message/Inlined.lean
  ===================================
  **A message from its source puts out what its content does.**

  An assembly keeps what its items put out, and what stands between the tags of a
  plain message is read where the message is not.  So a group that is replaced by
  the statements of its first message puts out what would be put out without the
  tags of that message.
-/
import Stencil.Proofs.Body.Unwrapped
import Stencil.Proofs.Compiler.Reading
import Stencil.Proofs.Message.Canonical
import Stencil.Proofs.Message.Identity
import Stencil.Proofs.Message.WellMade

namespace Stencil

namespace Message

variable {α : Type}

theorem isPiece_bare (content : Content) : IsPiece content.bare ↔ IsPiece content := by
  rw [← isPiece_form, Content.form_bare, isPiece_form]

theorem forall_isPiece_map_bare {parts : List (Tree α)} :
    (∀ part ∈ parts.map Tree.bare, IsPiece part.content) ↔
      ∀ part ∈ parts, IsPiece part.content := by
  simp only [List.forall_mem_map, Tree.content_bare, isPiece_bare]

end Message

open Message

/-! ### Messages of a source without their tags -/

namespace Source

/-- A message of a source, its identities and places left out, and the statements
    that the text between its tags is read as wherever no message is open. -/
def Unwraps (source : Source) (msg : Tree Unit) (ds : List Draft) : Prop :=
  ∃ raw line scope draft text,
    ⟨.template raw, line⟩ ∈ (File.scan source.text.toList).1 ∧ msg = draft.bare ∧
    ∃ (m : Body.MsgSpan) (header : List Body.Placed) (endLine : Nat),
      Body.scan raw.body = .ok ⟨header ++ m.tokens, endLine⟩ ∧
      (Header.splitParamTags none (header ++ m.tokens)).2 = m.tokens ∧
      m.Spells header raw.body text ∧ m.Gives scope draft ∧ m.Unwraps scope ds

/-- The content of a plain message of a source puts out what the message does. -/
theorem HasMessage.exists_unwraps {source : Source} {msg : Node} (h : source.HasMessage msg)
    (hplain : ∀ part ∈ msg.children, IsPiece part.content) :
    ∃ ds, source.Unwraps msg.bare ds ∧
      written (msg.children.map Tree.bare) = written (ds.map Tree.bare) := by
  obtain ⟨text, raw, line, scope, draft, hitem, hcontent, hbare⟩ := h.exists_writes
  obtain ⟨m, header, endLine, hscan, hheader, hspells, hgives⟩ := hcontent
  have hchildren : msg.children.map Tree.bare = draft.children.map Tree.bare :=
    (Tree.bare_eq_iff.1 hbare).2
  have hdraft : ∀ part ∈ draft.children, IsPiece part.content := by
    rw [← forall_isPiece_map_bare, ← hchildren, forall_isPiece_map_bare]
    exact hplain
  obtain ⟨ds, hds, hwritten⟩ := hgives.exists_unwraps hdraft
  refine ⟨ds, ⟨raw, line, scope, draft, text, hitem, hbare, m, header, endLine, hscan, hheader,
    hspells, hgives, hds⟩, ?_⟩
  rw [hchildren, written_map_bare, written_map_bare, hwritten]

end Source

namespace FileSet

variable {c : Compiler} {sources : List Source} {set : FileSet}

/-- A group of a file set that is read has a message. -/
theorem exists_primary_of_mem_msgGroups (hparse : (c.parse sources).1 = .ok set) {group : Node}
    (hgroup : group ∈ set.msgGroups) : ∃ primary rest, group.children = primary :: rest := by
  rw [msgGroups_eq_flatMap hparse] at hgroup
  obtain ⟨t, ht, hgroup⟩ := List.mem_flatMap.1 hgroup
  obtain ⟨hgroup, hcontent⟩ := Tree.mem_groups.1 hgroup
  obtain ⟨root, hroot, hgroup⟩ := Tree.mem_preorderAll.1 hgroup
  have hmade := wellMade_of_isPlacedBody (Compiler.isPlacedBody_of_parse hparse t ht) root hroot
  have hfills := (hmade group hgroup).filled
  rw [Content.eq_msgGroup_of_isMsgGroup hcontent] at hfills
  cases hchildren : group.children with
  | nil =>
    rw [hchildren] at hfills
    rcases hfills.1 with hlength | hlength <;> cases hlength
  | cons primary rest => exact ⟨primary, rest, rfl⟩

/-- A message of a group without plurals and selects is plain. -/
theorem isPiece_of_not_hasChoice (hparse : (c.parse sources).1 = .ok set) {group : Node}
    (hgroup : group ∈ set.msgGroups) (hchoice : ¬ hasChoice group) {msg : Node}
    (hmsg : msg ∈ group.children) : ∀ part ∈ msg.children, IsPiece part.content := by
  obtain ⟨hformed, hcontent⟩ := formed_of_mem_messages hparse
    (List.mem_flatMap.2 ⟨group, hgroup, hmsg⟩)
  rcases outline_cases hformed hcontent with ⟨hplain, -⟩ | ⟨choice, hchildren, hkind, -⟩
  · exact hplain.isPiece
  · refine absurd (List.any_eq_true.2 ⟨msg, hmsg, ?_⟩) hchoice
    rw [hchildren]
    exact hkind

/-- **Messages lose, repeat and move nothing.**  What is assembled from items puts
    out what the items do.  A group without plurals and selects that has no
    translation is replaced by statements that put out, identities and places left
    out, what the text between the tags of its first message does where the
    message is not. -/
theorem joined_outputsAll :
    (∀ {calls after : Nat} {items : List Item} {parts : List Draft},
      assemble calls items = .ok (parts, after) →
        joined (outputsAll parts) = joined (items.flatMap Item.outputs)) ∧
    ∀ {c : Compiler} {sources : List Source} {set : FileSet}, (c.parse sources).1 = .ok set →
      ∀ group ∈ set.msgGroups, ¬ hasChoice group →
      ∀ (ins : Insertion) (progress : Progress),
        (ins.bundle.bind fun bundle => translation? bundle group.children) = none →
        ∃ nodes, ins.replacement progress group = (.ok (some nodes), progress) ∧
          ∃ primary source ds, group.children.head? = some primary ∧ source ∈ sources ∧
            source.Unwraps primary.bare ds ∧
            joined (outputsAll (nodes.map Tree.bare)) = joined (outputsAll (ds.map Tree.bare)) := by
  constructor
  · intro calls after items parts h
    exact joined_eq_iff.2 (symbols_of_assemble h)
  · intro c sources set hparse group hgroup hchoice ins progress hnone
    obtain ⟨primary, rest, hmsgs⟩ := exists_primary_of_mem_msgGroups hparse hgroup
    have hprimary : primary ∈ group.children := by
      rw [hmsgs]
      exact List.mem_cons_self
    have hplain := isPiece_of_not_hasChoice hparse hgroup hchoice hprimary
    obtain ⟨source, hsource, hmessage⟩ := Compiler.exists_hasMessage_of_parse hparse
      (List.mem_flatMap.2 ⟨group, hgroup, hprimary⟩)
    obtain ⟨ds, hds, hwritten⟩ := hmessage.exists_unwraps hplain
    refine ⟨sourceStatements primary, ?_, primary, source, ds, ?_, hsource, hds, ?_⟩
    · exact ins.replacement_of_untranslated hchoice hmsgs hnone progress
    · rw [hmsgs]
      rfl
    · rw [joined_eq_iff]
      change written _ = written _
      rw [← hwritten, written_map_bare, written_map_bare, written,
        outputsAll_sourceStatements hplain]
      rfl

/-- The URL that a link goes to. -/
def linkUrl : Draft := .leaf 1 (.print ⟨"$url", .ref ⟨false, "url", []⟩, none⟩ [] true)

/-- What the link says. -/
def linkLabel : Draft := .leaf 2 (.call (.basic "n.f" ".f") .nothing)

/-- A link in pieces: its tag is cut by the end of a text and by a print. -/
def linkItems : List Item :=
  [.text "Go <".toList 1, .text "a href='".toList 1, .statement linkUrl, .text "'>".toList 2,
   .text [] 2, .statement linkLabel, .text "</a".toList 3, .text ">!".toList 3]

/-- A message with such a link, whose label is given a message. -/
def linkedMessage : Source :=
  fileOf "n" ("\x7bmsg desc=\"\"\x7dGo <\x7bnil\x7da href='\x7b$url\x7d'>\x7bcall .f\x7d" ++
    "\x7bparam p kind=\"text\"\x7d\x7bmsg desc=\"\"\x7da\x7b/msg\x7d\x7b/param\x7d\x7b/call\x7d" ++
    "</a>!\x7b/msg\x7d")

/-- The tag of the link and its print come out as they went in, from the items and
    from the source. -/
theorem joined_outputsAll_linkedMessage :
    (∃ parts, assemble 0 linkItems = .ok (parts, 1) ∧ parts.length = 5 ∧
      joined (outputsAll parts) = [.text "Go <a href='".toList, .statement linkUrl,
        .text "'>".toList, .statement linkLabel, .text "</a>!".toList]) ∧
    ∃ set group nodes, (Compiler.parse {} [linkedMessage]).1 = .ok set ∧
      group ∈ set.msgGroups ∧ ¬ hasChoice group ∧
      Insertion.replacement { bundle := none, mode := .strict } { next := set.next } group =
        (.ok (some nodes), { next := set.next }) ∧ nodes.length = 7 ∧
      ∃ primary ds, group.children.head? = some primary ∧ linkedMessage.Unwraps primary.bare ds ∧
        joined (outputsAll (nodes.map Tree.bare)) = joined (outputsAll (ds.map Tree.bare)) := by
  constructor
  · have hcheck : (assemble 0 linkItems).toOption.any fun result =>
        result.2 = 1 ∧ result.1.length = 5 := by decide +kernel
    obtain ⟨⟨parts, calls⟩, hparts, h⟩ := any_toOption.1 hcheck
    obtain ⟨rfl, hlength⟩ := of_decide_eq_true h
    refine ⟨parts, hparts, hlength, (joined_outputsAll.1 hparts).trans ?_⟩
    decide +kernel
  · have hcheck : (Compiler.parse {} [linkedMessage]).1.toOption.any fun set =>
        set.msgGroups.any fun group => ¬ hasChoice group ∧
          (Insertion.replacement { bundle := none, mode := .strict } { next := set.next }
            group).1.toOption.any fun nodes => nodes.any fun nodes => nodes.length = 7 := by
      have hread := Compiler.readSource_of_toList linkedMessage (by
        simp only [linkedMessage, fileOf, String.toList_append, String.reduceToList]
        rfl)
      rw [Compiler.parse_eq, List.mapM_cons, List.mapM_nil, hread]
      decide +kernel
    obtain ⟨set, hparse, h⟩ := any_toOption.1 hcheck
    obtain ⟨group, hgroup, h⟩ := List.any_eq_true.1 h
    obtain ⟨hchoice, h⟩ := of_decide_eq_true h
    obtain ⟨nodes, hnodes, primary, source, ds, hprimary, hsource, hds, hjoined⟩ :=
      joined_outputsAll.2 hparse group hgroup hchoice { bundle := none, mode := .strict }
        { next := set.next } rfl
    obtain ⟨nodes', hnodes', h⟩ := any_toOption.1 h
    rw [hnodes] at hnodes'
    cases hnodes'
    cases List.mem_singleton.1 hsource
    exact ⟨set, group, nodes, hparse, hgroup, hchoice, hnodes, of_decide_eq_true h, primary, ds,
      hprimary, hds, hjoined⟩

end FileSet

end Stencil
