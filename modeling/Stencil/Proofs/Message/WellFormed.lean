/-
  Stencil/Proofs/Message/WellFormed.lean
  ======================================
  **Insertion keeps file sets well-formed.**

  Each step of an insertion is given linked nodes and gives linked nodes, with
  identities that were there before and drawn ones, none of them more often than
  before.  A step that fails leaves its group alone, so this holds of it as
  well.  Hence every pass over a file set that is read leaves it well-formed,
  whatever the passes before it did (`wellFormed_passes`).
-/
import Stencil.Proofs.Compiler.FileSets
import Stencil.Proofs.Message.Replacement

namespace Stencil

open Stencil.Tree (Linked ListedBy idsAll Renewed)

namespace Message

/-! ### Replacing one group -/

theorem madeOf_sourceStatements {msg : Node} (h : Linked msg) (next : Nat) :
    MadeOf (idsAll msg.children) next next (sourceStatements msg) := by
  refine ⟨linked_of_mem_sourceStatements h, Nat.le_refl _, fun i => ?_⟩
  exact Nat.le_trans ((idsAll_sourceStatements_sublist msg).count_le i) (Nat.le_add_right _ _)

/-- The identities of the inside of a message are among those of its group. -/
theorem idsAll_children_sublist_of_mem {msg : Node} {msgs : List Node} (h : msg ∈ msgs) :
    (idsAll msg.children).Sublist (idsAll msgs) :=
  (idsAll_children_sublist msg).trans (ids_sublist_of_mem h)

/-- What replaces a group is made of parts of its messages. -/
theorem Insertion.madeOf_replacement (ins : Insertion) (progress : Progress) {group : Node}
    (h : Linked group) : progress.next ≤ (ins.replacement progress group).2.next ∧
      ∀ ns, (ins.replacement progress group).1 = .ok (some ns) →
        MadeOf (idsAll group.children) progress.next (ins.replacement progress group).2.next ns := by
  rw [replacement]
  split
  · split
    · exact ⟨Nat.le_refl _, fun _ hns => (nomatch hns)⟩
    · exact ⟨Nat.le_refl _, fun _ hns => (nomatch hns)⟩
  · split
    · rename_i msg t htranslation
      obtain ⟨bundle, -, hfind⟩ := Option.bind_eq_some_iff.1 htranslation
      obtain ⟨msg', hmsg', hget⟩ := List.exists_of_findSome?_eq_some hfind
      obtain ⟨t', -, heq⟩ := Option.map_eq_some_iff.1 hget
      cases heq
      obtain ⟨hle, hmade⟩ := madeOf_translatedStatements (h.child hmsg') t.id [] progress.next t.parts
      refine ⟨hle, fun ns hns => ?_⟩
      obtain ⟨ns', hns', hsome⟩ := map_eq_ok.1 hns
      cases hsome
      refine (hmade ns hns').mono fun i => ?_
      rw [unused_nil]
      exact ((idsAll_placeholders_sublist _).trans (idsAll_children_sublist_of_mem hmsg')).count_le i
    · refine ⟨Nat.le_refl _, fun ns hns => ?_⟩
      cases hns
      split
      · exact MadeOf.nil _ _
      · rename_i primary rest hmsgs
        have hprimary : primary ∈ group.children := by
          rw [hmsgs]
          exact List.mem_cons_self
        refine (madeOf_sourceStatements (h.child hprimary) _).mono fun i => ?_
        exact (idsAll_children_sublist_of_mem hprimary).count_le i

/-! ### Visits -/

/-- A visit keeps the mark and the links of a node, and the identities in it are
    those before and drawn ones. -/
structure KeepsNode (progress : Progress) (n : Node) (v : Visit Node) : Prop where
  mark_eq : v.result.mark = n.mark
  linked : Linked v.result
  renewed : Renewed n.ids progress.next v.progress.next v.result.ids

/-- A visit gives linked nodes for those of a list, with the identities before
    and drawn ones. -/
structure KeepsList (holder : NodeId) (progress : Progress) (ns : List Node)
    (v : Visit (List Node)) : Prop where
  listed : ListedBy holder v.result
  renewed : Renewed (idsAll ns) progress.next v.progress.next (idsAll v.result)

theorem KeepsList.withChildren {progress : Progress} {n : Node} {v : Visit (List Node)}
    (h : KeepsList n.id progress n.children v) (howner : n.owner = n.id) :
    KeepsNode progress n (v.map n.withChildren) := by
  refine ⟨Tree.mark_withChildren n v.result, Tree.linked_iff.2 ?_, ?_⟩
  · rw [Visit.map, Tree.owner_withChildren, Tree.id_withChildren, Tree.children_withChildren]
    exact ⟨howner, h.listed⟩
  · rw [Visit.map, Tree.ids_eq, Tree.ids_eq, Tree.id_withChildren, Tree.children_withChildren]
    exact h.renewed.cons n.id

namespace Insertion

variable {inside : Progress → Node → Visit Node}

theorem madeOf_visitEach (hinside : ∀ progress n, Linked n → KeepsNode progress n (inside progress n))
    (progress : Progress) {ns : List Node} (h : ∀ n ∈ ns, Linked n) :
    MadeOf (idsAll ns) progress.next (visitEach inside progress ns).progress.next
      (visitEach inside progress ns).result := by
  induction ns generalizing progress with
  | nil => exact MadeOf.nil _ _
  | cons n rest ih =>
    have hrest : ∀ k ∈ rest, Linked k := fun k hk => h k (List.mem_cons_of_mem _ hk)
    have hn := hinside progress n (h n List.mem_cons_self)
    have hfirst : MadeOf n.ids progress.next (inside progress n).progress.next
        [(inside progress n).result] := by
      refine ⟨fun k hk => ?_, ?_⟩
      · rw [List.mem_singleton.1 hk]
        exact hn.linked
      · rw [Tree.idsAll_singleton]
        exact hn.renewed
    rw [Tree.idsAll_cons, visitEach]
    split
    · exact hfirst.append ⟨hrest, Renewed.refl _ _⟩
    · exact hfirst.append (ih _ hrest)

theorem ids_adopt (owner : NodeId) (ns : List Node) :
    idsAll (ChildList.adopt owner ns) = idsAll ns := by
  rw [ChildList.adopt, idsAll_eq, idsAll_eq, List.map_map]
  exact congrArg List.flatten (List.map_congr_left fun n _ => Tree.ids_withParent n _)

theorem listedBy_adopt {owner : NodeId} {ns : List Node} (h : ∀ n ∈ ns, Linked n) :
    ListedBy owner (ChildList.adopt owner ns) := by
  intro n hn
  obtain ⟨k, hk, rfl⟩ := List.mem_map.1 hn
  exact ⟨Tree.parent_withParent k _, Tree.linked_withParent (h k hk) _⟩

variable (ins : Insertion)

theorem keeps_visitStatement
    (hinside : ∀ progress n, Linked n → KeepsNode progress n (inside progress n))
    {owner : NodeId} (progress : Progress) {n : Node} (hparent : n.parent = some owner)
    (h : Linked n) : KeepsList owner progress [n] (ins.visitStatement inside owner progress n) := by
  have hvisit : ∀ progress' : Progress, progress.next ≤ progress'.next →
      KeepsList owner progress [n] ((inside progress' n).map ([·])) := by
    intro progress' hle
    have hn := hinside progress' n h
    refine ⟨fun k hk => ?_, ?_⟩
    · rw [Visit.map, List.mem_singleton] at hk
      rw [hk]
      refine ⟨?_, hn.linked⟩
      rw [Tree.parent, hn.mark_eq]
      exact hparent
    · rw [Visit.map, Tree.idsAll_singleton, Tree.idsAll_singleton]
      exact (Renewed.of_le _ hle).trans hn.renewed
  -- a group that is left as it is, whatever was drawn meanwhile
  have hstay : ∀ (progress' : Progress) (error : Option InsertionError),
      progress.next ≤ progress'.next → KeepsList owner progress [n] ⟨[n], progress', error⟩ := by
    intro progress' error hle
    refine ⟨fun k hk => ?_, Renewed.of_le _ hle⟩
    rw [List.mem_singleton.1 hk]
    exact ⟨hparent, h⟩
  obtain ⟨hle, hmade⟩ := ins.madeOf_replacement progress h
  rw [visitStatement]
  split
  · split
    · rename_i e progress' hreplacement
      rw [hreplacement] at hle
      exact hstay progress' (some e) hle
    · rename_i progress' hreplacement
      rw [hreplacement] at hle
      exact hvisit progress' hle
    · rename_i nodes progress' hreplacement
      rw [hreplacement] at hle hmade
      have hnodes := hmade nodes rfl
      have heach := madeOf_visitEach hinside progress' hnodes.linked
      dsimp only
      split
      · exact hstay _ _ (Nat.le_trans hle heach.renewed.le)
      · refine ⟨listedBy_adopt heach.linked, ?_⟩
        rw [ids_adopt, Tree.idsAll_singleton]
        exact (hnodes.renewed.trans heach.renewed).mono
          fun i => (idsAll_children_sublist n).count_le i
  · exact hvisit progress (Nat.le_refl _)

theorem keeps_visitBlock
    (hinside : ∀ progress n, Linked n → KeepsNode progress n (inside progress n))
    {owner : NodeId} (progress : Progress) {ns : List Node} (h : ListedBy owner ns) :
    KeepsList owner progress ns (ins.visitBlock inside owner progress ns) := by
  induction ns generalizing progress with
  | nil => exact ⟨h, Renewed.refl _ _⟩
  | cons n rest ih =>
    obtain ⟨hparent, hlinked⟩ := h n List.mem_cons_self
    have hrest : ListedBy owner rest := fun k hk => h k (List.mem_cons_of_mem _ hk)
    have hn := ins.keeps_visitStatement hinside progress hparent hlinked
    have hns := ih (ins.visitStatement inside owner progress n).progress hrest
    have happend : ∀ {ns : List Node}, ListedBy owner ns →
        ListedBy owner ((ins.visitStatement inside owner progress n).result ++ ns) := by
      intro ns hns k hk
      rcases List.mem_append.1 hk with hk | hk
      · exact hn.listed k hk
      · exact hns k hk
    have hfirst := hn.renewed
    rw [Tree.idsAll_singleton] at hfirst
    rw [visitBlock]
    split
    · refine ⟨happend hrest, ?_⟩
      rw [Tree.idsAll_cons, Tree.idsAll_append]
      exact hfirst.append (Renewed.refl _ _)
    · refine ⟨happend hns.listed, ?_⟩
      rw [Visit.map, Tree.idsAll_cons, Tree.idsAll_append]
      exact hfirst.append hns.renewed

/-- The visit of the inside of a linked node keeps it linked. -/
theorem keeps_visitInside (height : Nat) (progress : Progress) {n : Node} (h : Linked n) :
    KeepsNode progress n (ins.visitInside height progress n) := by
  induction height generalizing progress n with
  | zero => exact ⟨rfl, h, Renewed.refl _ _⟩
  | succ height ih =>
    obtain ⟨howner, hlisted⟩ := Tree.linked_iff.1 h
    have hblock := ins.keeps_visitBlock (fun progress n hn => ih progress hn) progress hlisted
    rw [visitInside, howner]
    exact hblock.withChildren howner

/-! ### Templates, files and file sets -/

theorem keeps_visitTemplate (progress : Progress) {holder : NodeId} {t : Template Mark}
    (h : t.LinkedIn holder) : (ins.visitTemplate progress t).result.LinkedIn holder ∧
      Renewed t.ids progress.next (ins.visitTemplate progress t).progress.next
        (ins.visitTemplate progress t).result.ids := by
  obtain ⟨hparent, howner, hbody⟩ := h
  have hblock := ins.keeps_visitBlock
    (fun progress n hn => ins.keeps_visitInside (Tree.heightAll t.body) progress hn) progress hbody
  rw [visitTemplate, howner]
  exact ⟨⟨hparent, howner, hblock.listed⟩, hblock.renewed.cons t.mark.id⟩

theorem keeps_visitTemplates (progress : Progress) {holder : NodeId} {ts : List (Template Mark)}
    (h : ∀ t ∈ ts, t.LinkedIn holder) :
    (∀ t ∈ (ins.visitTemplates progress ts).result, t.LinkedIn holder) ∧
      Renewed (ts.flatMap Template.ids) progress.next (ins.visitTemplates progress ts).progress.next
        ((ins.visitTemplates progress ts).result.flatMap Template.ids) := by
  induction ts generalizing progress with
  | nil => exact ⟨h, Renewed.refl _ _⟩
  | cons t rest ih =>
    have hrest : ∀ u ∈ rest, u.LinkedIn holder := fun u hu => h u (List.mem_cons_of_mem _ hu)
    obtain ⟨hlinked, hrenewed⟩ := ins.keeps_visitTemplate progress (h t List.mem_cons_self)
    rw [visitTemplates, List.flatMap_cons]
    split
    · exact ⟨List.forall_mem_cons.2 ⟨hlinked, hrest⟩, hrenewed.append (Renewed.refl _ _)⟩
    · obtain ⟨hlinkeds, hreneweds⟩ := ih (ins.visitTemplate progress t).progress hrest
      exact ⟨List.forall_mem_cons.2 ⟨hlinked, hlinkeds⟩, hrenewed.append hreneweds⟩

theorem keeps_visitFiles (progress : Progress) {holder : NodeId} {files : List (SourceFile Mark)}
    (h : ∀ file ∈ files, file.LinkedIn holder) :
    (∀ file ∈ (ins.visitFiles progress files).result, file.LinkedIn holder) ∧
      Renewed (files.flatMap SourceFile.ids) progress.next (ins.visitFiles progress files).progress.next
        ((ins.visitFiles progress files).result.flatMap SourceFile.ids) := by
  induction files generalizing progress with
  | nil => exact ⟨h, Renewed.refl _ _⟩
  | cons file rest ih =>
    have hrest : ∀ f ∈ rest, f.LinkedIn holder := fun f hf => h f (List.mem_cons_of_mem _ hf)
    obtain ⟨hparent, howner, htemplates⟩ := h file List.mem_cons_self
    obtain ⟨hlinked, hrenewed⟩ := ins.keeps_visitTemplates progress htemplates
    have hfile : SourceFile.LinkedIn holder
        { file with templates := (ins.visitTemplates progress file.templates).result } :=
      ⟨hparent, howner, hlinked⟩
    have hids := hrenewed.cons file.mark.id
    rw [visitFiles, List.flatMap_cons]
    split
    · exact ⟨List.forall_mem_cons.2 ⟨hfile, hrest⟩, hids.append (Renewed.refl _ _)⟩
    · obtain ⟨hlinkeds, hreneweds⟩ := ih (ins.visitTemplates progress file.templates).progress hrest
      exact ⟨List.forall_mem_cons.2 ⟨hfile, hlinkeds⟩, hids.append hreneweds⟩

end Insertion

end Message

/-- A pass over a well-formed file set leaves it well-formed, also if it fails. -/
theorem FileSet.WellFormed.insertMsgs {set : FileSet} (h : set.WellFormed)
    (ins : Message.Insertion) : (set.insertMsgs ins).2.WellFormed := by
  obtain ⟨hlinked, hrenewed⟩ := ins.keeps_visitFiles { next := set.next } h.files
  obtain ⟨hnodup, hlt⟩ := (hrenewed.cons set.id).distinct h.ids_nodup h.ids_lt
  rw [FileSet.insertMsgs]
  split
  · exact ⟨hnodup, hlt, h.owner_eq, hlinked⟩
  · exact ⟨hnodup, hlt, h.owner_eq, hlinked⟩

/-- However many passes go over a file set that is read, with whatever bundles
    and modes and whether or not they fail: the identities in it stay distinct
    and below the next free one, and every list of children stays with the node
    that owns it and is the parent of each child on it. -/
theorem FileSet.wellFormed_passes {c : Compiler} {sources : List Source} {set : FileSet}
    (hparse : (c.parse sources).1 = .ok set) (passes : List Message.Insertion) :
    (passes.foldl (fun set ins => (set.insertMsgs ins).2) set).WellFormed := by
  have hset := Compiler.wellFormed_of_parse hparse
  clear hparse
  induction passes generalizing set with
  | nil => exact hset
  | cons ins rest ih => exact ih (hset.insertMsgs ins)

/-- A message that prints a name, and one with a plural. -/
def greeting : Source :=
  { path := "t.soy"
    text := "\x7bnamespace n\x7d\n\x7btemplate .t\x7d\n" ++
      "\x7bmsg desc=\"\"\x7dHello \x7b$name\x7d\x7b/msg\x7d" ++
      "\x7bmsg desc=\"\"\x7d\x7bplural $n\x7d\x7bdefault\x7dmany\x7b/plural\x7d\x7b/msg\x7d\n" ++
      "\x7b/template\x7d\n" }

/-- A pass with a translation that prints the name twice, and one that fails at
    the plural. -/
def greetingPasses : List Message.Insertion :=
  [{ bundle := some (Bundle.ofList none [{
        id := 8802964239554849504
        parts := [.placeholder "NAME", .text ", ", .placeholder "NAME"] }])
     mode := .tolerant },
   { bundle := none, mode := .strict }]

/-- The two passes draw identities for the text and for the copy of the print. -/
theorem FileSet.wellFormed_passes_greeting : ∃ set, (Compiler.parse {} [greeting]).1 = .ok set ∧
    (greetingPasses.foldl (fun set ins => (set.insertMsgs ins).2) set).WellFormed ∧
    (greetingPasses.foldl (fun set ins => (set.insertMsgs ins).2) set).next = set.next + 2 := by
  have hcheck : (Compiler.parse {} [greeting]).1.toOption.any fun set =>
      (greetingPasses.foldl (fun set ins => (set.insertMsgs ins).2) set).next = set.next + 2 := by
    decide +kernel
  obtain ⟨set, hparse, hnext⟩ := any_toOption.1 hcheck
  exact ⟨set, hparse, wellFormed_passes hparse greetingPasses, of_decide_eq_true hnext⟩

end Stencil
