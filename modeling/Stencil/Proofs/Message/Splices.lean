/-
  Stencil/Proofs/Message/Splices.lean
  ===================================
  **What an insertion does not touch.**

  An insertion changes lists of statements and nothing else.  Every statement on
  a list is kept, with the lists below it changed in the same way, or it is a
  group that is replaced, and what replaces it stands in its place.  A failure
  ends a pass early: the rest of every list that it is in stays as it was.

  Identities are distinct before and after a pass.  So the nodes that are not in
  a replaced group, before it, are those that are not in the place of one, after
  it: the same nodes in the same order (`insertMsgs_splices`).
-/
import Stencil.Proofs.Message.WellFormed

namespace Stencil

namespace Tree

/-! ### Faces -/

/-- What a node shows of itself: everything but its children. -/
def face (n : Node) : Mark × Content := (n.mark, n.content)

/-- The faces of the nodes of several trees whose identities are not among those
    given, each before those below it. -/
def facesOutside (ids : List NodeId) (ns : List Node) : List (Mark × Content) :=
  ((preorderAll ns).filter (·.id ∉ ids)).map face

theorem preorderAll_append (ns ns' : List Node) :
    preorderAll (ns ++ ns') = preorderAll ns ++ preorderAll ns' := by
  rw [preorderAll_eq_flatMap, List.flatMap_append, preorderAll_eq_flatMap, preorderAll_eq_flatMap]

theorem id_mem_idsAll {n : Node} {ns : List Node} (h : n ∈ preorderAll ns) : n.id ∈ idsAll ns :=
  List.mem_map_of_mem h

theorem facesOutside_idsAll (ns : List Node) : facesOutside (idsAll ns) ns = [] := by
  rw [facesOutside, List.map_eq_nil_iff, List.filter_eq_nil_iff]
  intro n hn
  simpa using id_mem_idsAll hn

/-- Identities that no node has do not matter. -/
theorem facesOutside_congr {ids ids' : List NodeId} {ns : List Node}
    (h : ∀ id ∈ idsAll ns, id ∈ ids ↔ id ∈ ids') : facesOutside ids ns = facesOutside ids' ns := by
  rw [facesOutside, facesOutside]
  refine congrArg _ (List.filter_congr fun n hn => ?_)
  simp [h n.id (id_mem_idsAll hn)]

theorem facesOutside_append {ids ids' : List NodeId} {ns ns' : List Node}
    (hnodup : (idsAll (ns ++ ns')).Nodup) (hids : ids ⊆ idsAll ns) (hids' : ids' ⊆ idsAll ns') :
    facesOutside (ids ++ ids') (ns ++ ns') = facesOutside ids ns ++ facesOutside ids' ns' := by
  rw [idsAll_append] at hnodup
  have hdisjoint : List.Disjoint (idsAll ns) (idsAll ns') := List.disjoint_of_nodup_append hnodup
  have hleft : facesOutside (ids ++ ids') ns = facesOutside ids ns := by
    apply facesOutside_congr
    intro id hid
    rw [List.mem_append, or_iff_left fun h => hdisjoint hid (hids' h)]
  have hright : facesOutside (ids ++ ids') ns' = facesOutside ids' ns' := by
    apply facesOutside_congr
    intro id hid
    rw [List.mem_append, or_iff_right fun h => hdisjoint (hids h) hid]
  rw [← hleft, ← hright, facesOutside, preorderAll_append, List.filter_append, List.map_append]
  rfl

/-- Trees whose identities are all given show nothing. -/
theorem facesOutside_idsAll_append {ids : List NodeId} {ns ns' : List Node}
    (hnodup : (idsAll (ns ++ ns')).Nodup) (hids : ids ⊆ idsAll ns') :
    facesOutside (idsAll ns ++ ids) (ns ++ ns') = facesOutside ids ns' := by
  rw [facesOutside_append hnodup (List.Subset.refl _) hids, facesOutside_idsAll, List.nil_append]

theorem facesOutside_singleton {ids : List NodeId} {n : Node} (h : n.id ∉ ids) :
    facesOutside ids [n] = face n :: facesOutside ids n.children := by
  obtain ⟨mark, content, children⟩ := n
  rw [facesOutside, preorderAll, preorderAll, List.append_nil, preorder,
    List.filter_cons_of_pos (by simpa using h), List.map_cons]
  rfl

theorem nodup_idsAll_cons {n : Node} {rest : List Node} (h : (idsAll (n :: rest)).Nodup) :
    n.id ∉ idsAll n.children ∧ (idsAll n.children).Nodup ∧ (idsAll rest).Nodup := by
  rw [idsAll_cons, List.nodup_append, ids_eq, List.nodup_cons] at h
  exact ⟨h.1.1, h.1.2, h.2.1⟩

/-- A node above those whose identities are given shows its face. -/
theorem facesOutside_cons {ids ids' : List NodeId} {n : Node} {rest : List Node}
    (hnodup : (idsAll (n :: rest)).Nodup) (hids : ids ⊆ idsAll n.children)
    (hids' : ids' ⊆ idsAll rest) : facesOutside (ids ++ ids') (n :: rest) =
      face n :: (facesOutside ids n.children ++ facesOutside ids' rest) := by
  have hbelow : ids ⊆ idsAll [n] := by
    intro id hid
    rw [idsAll_singleton, ids_eq]
    exact List.mem_cons_of_mem _ (hids hid)
  have hid : n.id ∉ ids := fun hid => (nodup_idsAll_cons hnodup).1 (hids hid)
  calc facesOutside (ids ++ ids') (n :: rest)
      = facesOutside ids [n] ++ facesOutside ids' rest := facesOutside_append hnodup hbelow hids'
    _ = face n :: (facesOutside ids n.children ++ facesOutside ids' rest) := by
      rw [facesOutside_singleton hid, List.cons_append]

end Tree

open Stencil.Tree (Linked ListedBy idsAll face facesOutside)

namespace Message

/-! ### Spliced lists -/

namespace Insertion

/-- What an insertion makes of statements.  A statement is kept, and the list
    below it is spliced, or it is a group that is replaced; in its place stand
    its statements, themselves spliced, with the parent of the group.  The third
    list has the groups that are replaced, each with what stands in its place. -/
inductive Spliced (ins : Insertion) : List Node → List Node → List (Node × List Node) → Prop where
  | nil : Spliced ins [] [] []
  | keep {n n' : Node} {rest rest' : List Node} {below after : List (Node × List Node)}
      (mark_eq : n'.mark = n.mark) (content_eq : n'.content = n.content)
      (children : Spliced ins n.children n'.children below)
      (others : Spliced ins rest rest' after) :
      Spliced ins (n :: rest) (n' :: rest') (below ++ after)
  | replace {group : Node} {progress : Progress} {statements placed rest rest' : List Node}
      {inner after : List (Node × List Node)} (isGroup : group.content.isMsgGroup)
      (replacement : (ins.replacement progress group).1 = .ok (some statements))
      (inside : Spliced ins statements placed inner) (others : Spliced ins rest rest' after) :
      Spliced ins (group :: rest) (placed.map (·.withParent group.parent) ++ rest')
        ((group, placed.map (·.withParent group.parent)) :: after)

variable {ins : Insertion} {n n' : Node} {before after rest rest' : List Node}
  {places places' : List (Node × List Node)}

mutual

theorem spliced_children (ins : Insertion) : (n : Node) → ins.Spliced n.children n.children []
  | .node _ _ children => spliced_refl ins children

/-- A list that is left as it is. -/
theorem spliced_refl (ins : Insertion) : (ns : List Node) → ins.Spliced ns ns []
  | [] => .nil
  | n :: rest => .keep rfl rfl (spliced_children ins n) (spliced_refl ins rest)

end

namespace Spliced

theorem append (h : ins.Spliced before after places) (h' : ins.Spliced rest rest' places') :
    ins.Spliced (before ++ rest) (after ++ rest') (places ++ places') := by
  induction h with
  | nil => exact h'
  | keep hmark hcontent hchildren _ _ ih =>
    rw [List.append_assoc]
    exact .keep hmark hcontent hchildren ih
  | replace hgroup hreplacement hinside _ _ ih =>
    rw [List.cons_append, List.append_assoc]
    exact .replace hgroup hreplacement hinside ih

theorem single (hmark : n'.mark = n.mark) (hcontent : n'.content = n.content)
    (h : ins.Spliced n.children n'.children places) : ins.Spliced [n] [n'] places := by
  have hsingle := keep hmark hcontent h .nil
  rwa [List.append_nil] at hsingle

/-- The replaced groups are among the nodes before, and what stands in their
    places among those after. -/
theorem idsAll_subset (h : ins.Spliced before after places) :
    idsAll (places.map (·.1)) ⊆ idsAll before ∧ idsAll (places.flatMap (·.2)) ⊆ idsAll after := by
  induction h with
  | nil => exact ⟨List.Subset.refl _, List.Subset.refl _⟩
  | @keep n n' _ _ _ _ _ _ _ _ hchildren hothers =>
    have hbelow := List.Subset.trans hchildren.1 (idsAll_children_sublist n).subset
    have hbelow' := List.Subset.trans hchildren.2 (idsAll_children_sublist n').subset
    rw [List.map_append, List.flatMap_append, Tree.idsAll_append, Tree.idsAll_append,
      Tree.idsAll_cons, Tree.idsAll_cons]
    exact ⟨by grind, by grind⟩
  | replace _ _ _ _ _ hothers =>
    rw [List.map_cons, List.flatMap_cons, Tree.idsAll_append, Tree.idsAll_cons, Tree.idsAll_cons,
      Tree.idsAll_append]
    exact ⟨by grind, by grind⟩

/-- Outside of the replaced groups before, and of what stands in their places
    after, are the same nodes in the same order. -/
theorem facesOutside_eq (h : ins.Spliced before after places) (hbefore : (idsAll before).Nodup)
    (hafter : (idsAll after).Nodup) : facesOutside (idsAll (places.map (·.1))) before =
      facesOutside (idsAll (places.flatMap (·.2))) after := by
  induction h with
  | nil => rfl
  | @keep n n' rest rest' below after hmark hcontent hchildren hothers ihchildren ihothers =>
    obtain ⟨-, hdown, hrest⟩ := Tree.nodup_idsAll_cons hbefore
    obtain ⟨-, hdown', hrest'⟩ := Tree.nodup_idsAll_cons hafter
    obtain ⟨hgroups, hplaces⟩ := hchildren.idsAll_subset
    obtain ⟨hgroups', hplaces'⟩ := hothers.idsAll_subset
    have hface : face n = face n' := by rw [face, face, hmark, hcontent]
    rw [List.map_append, List.flatMap_append, Tree.idsAll_append, Tree.idsAll_append,
      Tree.facesOutside_cons hbefore hgroups hgroups',
      Tree.facesOutside_cons hafter hplaces hplaces', hface, ihchildren hdown hdown',
      ihothers hrest hrest']
  | @replace group progress statements placed rest rest' inner after _ _ _ hothers _ ihothers =>
    obtain ⟨hgroups, hplaces⟩ := hothers.idsAll_subset
    obtain ⟨-, -, hrest⟩ := Tree.nodup_idsAll_cons hbefore
    have hrest' : (idsAll rest').Nodup := by
      rw [Tree.idsAll_append] at hafter
      exact (List.nodup_append.1 hafter).2.1
    have hgroup : facesOutside (idsAll (group :: after.map (·.1))) (group :: rest) =
        facesOutside (idsAll (after.map (·.1))) rest := by
      rw [Tree.idsAll_cons, ← Tree.idsAll_singleton]
      exact Tree.facesOutside_idsAll_append hbefore hgroups
    rw [List.map_cons, List.flatMap_cons, Tree.idsAll_append, hgroup,
      Tree.facesOutside_idsAll_append hafter hplaces, ihothers hrest hrest']

end Spliced

/-! ### Visits -/

/-- A visit keeps a node and splices the list below it. -/
structure SplicesNode (ins : Insertion) (n : Node) (v : Visit Node) : Prop where
  mark_eq : v.result.mark = n.mark
  content_eq : v.result.content = n.content
  children : ∃ places, ins.Spliced n.children v.result.children places

/-- A visit splices a list. -/
def SplicesList (ins : Insertion) (ns : List Node) (v : Visit (List Node)) : Prop :=
  ∃ places, ins.Spliced ns v.result places

theorem SplicesList.withChildren {v : Visit (List Node)} (h : ins.SplicesList n.children v) :
    ins.SplicesNode n (v.map n.withChildren) := by
  refine ⟨Tree.mark_withChildren n _, Tree.content_withChildren n _, ?_⟩
  rw [Visit.map, Tree.children_withChildren]
  exact h

variable {inside : Progress → Node → Visit Node}

theorem splices_visitEach
    (hinside : ∀ progress n, Linked n → ins.SplicesNode n (inside progress n))
    (progress : Progress) {ns : List Node} (h : ∀ n ∈ ns, Linked n) :
    ins.SplicesList ns (visitEach inside progress ns) := by
  induction ns generalizing progress with
  | nil => exact ⟨[], .nil⟩
  | cons n rest ih =>
    obtain ⟨hmark, hcontent, places, hchildren⟩ := hinside progress n (h n List.mem_cons_self)
    rw [visitEach]
    split
    · exact ⟨_, .keep hmark hcontent hchildren (spliced_refl ins rest)⟩
    · obtain ⟨places', hrest⟩ := ih (inside progress n).progress
        fun k hk => h k (List.mem_cons_of_mem _ hk)
      exact ⟨_, .keep hmark hcontent hchildren hrest⟩

theorem splices_visitStatement
    (hinside : ∀ progress n, Linked n → ins.SplicesNode n (inside progress n))
    {owner : NodeId} (progress : Progress) (hparent : n.parent = some owner) (h : Linked n) :
    ins.SplicesList [n] (ins.visitStatement inside owner progress n) := by
  have hvisit : ∀ progress : Progress, ins.SplicesList [n] ((inside progress n).map ([·])) := by
    intro progress
    obtain ⟨hmark, hcontent, places, hchildren⟩ := hinside progress n h
    exact ⟨places, .single hmark hcontent hchildren⟩
  rw [visitStatement]
  split
  · rename_i hgroup
    split
    · exact ⟨[], spliced_refl ins [n]⟩
    · exact hvisit _
    · rename_i statements progress' hreplacement
      have hlinked : ∀ s ∈ statements, Linked s :=
        ((ins.madeOf_replacement progress h).2 statements (congrArg Prod.fst hreplacement)).linked
      obtain ⟨inner, hstatements⟩ := splices_visitEach hinside progress' hlinked
      dsimp only
      split
      · exact ⟨[], spliced_refl ins [n]⟩
      · have hreplace :=
          Spliced.replace hgroup (congrArg Prod.fst hreplacement) hstatements .nil
        rw [List.append_nil, hparent] at hreplace
        exact ⟨_, hreplace⟩
  · exact hvisit progress

theorem splices_visitBlock
    (hinside : ∀ progress n, Linked n → ins.SplicesNode n (inside progress n))
    {owner : NodeId} (progress : Progress) {ns : List Node} (h : ListedBy owner ns) :
    ins.SplicesList ns (ins.visitBlock inside owner progress ns) := by
  induction ns generalizing progress with
  | nil => exact ⟨[], .nil⟩
  | cons n rest ih =>
    obtain ⟨hparent, hlinked⟩ := h n List.mem_cons_self
    obtain ⟨places, hn⟩ := splices_visitStatement hinside progress hparent hlinked
    rw [visitBlock]
    split
    · exact ⟨_, hn.append (spliced_refl ins rest)⟩
    · obtain ⟨places', hrest⟩ := ih (ins.visitStatement inside owner progress n).progress
        fun k hk => h k (List.mem_cons_of_mem _ hk)
      exact ⟨_, hn.append hrest⟩

theorem splices_visitInside (height : Nat) (progress : Progress) (h : Linked n) :
    ins.SplicesNode n (ins.visitInside height progress n) := by
  induction height generalizing progress n with
  | zero => exact ⟨rfl, rfl, [], spliced_children ins n⟩
  | succ height ih =>
    obtain ⟨howner, hlisted⟩ := Tree.linked_iff.1 h
    have hblock := splices_visitBlock (fun progress n hn => ih progress hn) progress hlisted
    rw [visitInside, howner]
    exact hblock.withChildren

/-! ### Templates and files -/

/-- A template after an insertion.  What it declares is kept, and its body is
    spliced; the nodes outside of the replaced groups are those outside of what
    stands in their places, with their marks and contents and in their order. -/
structure FramesTemplate (ins : Insertion) (t t' : Template Mark) : Prop where
  mark_eq : t'.mark = t.mark
  info_eq : t'.info = t.info
  body : ∃ places, ins.Spliced t.body t'.body places ∧
    facesOutside (idsAll (places.map (·.1))) t.body =
      facesOutside (idsAll (places.flatMap (·.2))) t'.body

/-- A file after an insertion: what it declares is kept, and so are its templates
    one by one. -/
structure FramesFile (ins : Insertion) (file file' : SourceFile Mark) : Prop where
  mark_eq : file'.mark = file.mark
  info_eq : file'.info = file.info
  templates : List.Forall₂ ins.FramesTemplate file.templates file'.templates

theorem framesTemplate_refl (ins : Insertion) (t : Template Mark) : ins.FramesTemplate t t :=
  ⟨rfl, rfl, [], spliced_refl ins t.body, rfl⟩

theorem framesFile_refl (ins : Insertion) (file : SourceFile Mark) : ins.FramesFile file file :=
  ⟨rfl, rfl, List.forall₂_same.2 fun t _ => framesTemplate_refl ins t⟩

variable (ins)

theorem frames_visitTemplate (progress : Progress) {holder : NodeId} {t : Template Mark}
    (hlinked : t.LinkedIn holder) (hnodup : t.ids.Nodup)
    (hlt : ∀ id ∈ t.ids, id < progress.next) :
    ins.FramesTemplate t (ins.visitTemplate progress t).result := by
  obtain ⟨-, hrenewed⟩ := ins.keeps_visitTemplate progress hlinked
  have hafter := (hrenewed.distinct hnodup hlt).1
  obtain ⟨-, howner, hbody⟩ := hlinked
  obtain ⟨places, hspliced⟩ := splices_visitBlock
    (fun progress n hn => (splices_visitInside _ progress hn : ins.SplicesNode n _))
    progress hbody
  rw [visitTemplate, howner] at hafter ⊢
  exact ⟨rfl, rfl, places, hspliced,
    hspliced.facesOutside_eq (List.nodup_cons.1 hnodup).2 (List.nodup_cons.1 hafter).2⟩

theorem frames_visitTemplates (progress : Progress) {holder : NodeId} {ts : List (Template Mark)}
    (hlinked : ∀ t ∈ ts, t.LinkedIn holder) (hnodup : ∀ t ∈ ts, t.ids.Nodup)
    (hlt : ∀ t ∈ ts, ∀ id ∈ t.ids, id < progress.next) :
    List.Forall₂ ins.FramesTemplate ts (ins.visitTemplates progress ts).result := by
  induction ts generalizing progress with
  | nil => exact .nil
  | cons t rest ih =>
    rw [List.forall_mem_cons] at hlinked hnodup hlt
    have ht := ins.frames_visitTemplate progress hlinked.1 hnodup.1 hlt.1
    have hle := (ins.keeps_visitTemplate progress hlinked.1).2.le
    rw [visitTemplates]
    split
    · exact .cons ht (List.forall₂_same.2 fun u _ => framesTemplate_refl ins u)
    · exact .cons ht (ih _ hlinked.2 hnodup.2
        fun u hu id hid => Nat.lt_of_lt_of_le (hlt.2 u hu id hid) hle)

theorem frames_visitFiles (progress : Progress) {holder : NodeId} {files : List (SourceFile Mark)}
    (hlinked : ∀ file ∈ files, file.LinkedIn holder) (hnodup : ∀ file ∈ files, file.ids.Nodup)
    (hlt : ∀ file ∈ files, ∀ id ∈ file.ids, id < progress.next) :
    List.Forall₂ ins.FramesFile files (ins.visitFiles progress files).result := by
  induction files generalizing progress with
  | nil => exact .nil
  | cons file rest ih =>
    rw [List.forall_mem_cons] at hlinked hnodup hlt
    obtain ⟨-, -, htemplates⟩ := hlinked.1
    have hids : ∀ t ∈ file.templates, t.ids.Sublist file.ids := fun t ht =>
      (List.sublist_flatten_of_mem (List.mem_map_of_mem ht)).cons _
    have hfile : ins.FramesFile file
        { file with templates := (ins.visitTemplates progress file.templates).result } := by
      refine ⟨rfl, rfl, ins.frames_visitTemplates progress htemplates ?_ ?_⟩
      · exact fun t ht => hnodup.1.sublist (hids t ht)
      · exact fun t ht id hid => hlt.1 id ((hids t ht).subset hid)
    have hle := (ins.keeps_visitTemplates progress htemplates).2.le
    rw [visitFiles]
    split
    · exact .cons hfile (List.forall₂_same.2 fun f _ => framesFile_refl ins f)
    · exact .cons hfile (ih _ hlinked.2 hnodup.2
        fun f hf id hid => Nat.lt_of_lt_of_le (hlt.2 f hf id hid) hle)

end Insertion

end Message

/-! ### File sets -/

/-- A pass over a well-formed file set changes nothing outside of the groups that
    it replaces, also if it fails. -/
theorem FileSet.WellFormed.framed {set : FileSet} (h : set.WellFormed) (ins : Message.Insertion) :
    (set.insertMsgs ins).2.id = set.id ∧ (set.insertMsgs ins).2.owner = set.owner ∧
      List.Forall₂ ins.FramesFile set.files (set.insertMsgs ins).2.files := by
  have hids : ∀ file ∈ set.files, file.ids.Sublist set.ids := fun file hfile =>
    (List.sublist_flatten_of_mem (List.mem_map_of_mem hfile)).cons _
  have hfiles := ins.frames_visitFiles { next := set.next } h.files
    (fun file hfile => h.ids_nodup.sublist (hids file hfile))
    fun file hfile id hid => h.ids_lt id ((hids file hfile).subset hid)
  rw [FileSet.insertMsgs]
  split
  · exact ⟨rfl, rfl, hfiles⟩
  · exact ⟨rfl, rfl, hfiles⟩

/-- A pass over a file set that is read touches only message groups, whatever the
    bundle and the mode and whether or not it fails.  The files and templates
    stay what they are.  In every body, a group is replaced by its statements or
    kept like any other statement; the nodes that are not in replaced groups are,
    afterwards, the nodes that are not in the places of these groups, with the
    same identities, owners, parents, places and contents and in the same
    order. -/
theorem FileSet.insertMsgs_splices {c : Compiler} {sources : List Source} {set : FileSet}
    (hparse : (c.parse sources).1 = .ok set) (ins : Message.Insertion) :
    (set.insertMsgs ins).2.id = set.id ∧ (set.insertMsgs ins).2.owner = set.owner ∧
      List.Forall₂ ins.FramesFile set.files (set.insertMsgs ins).2.files :=
  (Compiler.wellFormed_of_parse hparse).framed ins

/-- Messages between other statements, and one with a plural before the last. -/
def mixedBody : Source :=
  { path := "t.soy"
    text := "\x7bnamespace n\x7d\n\x7btemplate .t\x7d\n" ++
      "a\x7bmsg desc=\"\"\x7dHello \x7b$name\x7d\x7b/msg\x7d" ++
      "\x7bif $c\x7db\x7bmsg desc=\"\"\x7dnone\x7b/msg\x7d\x7b/if\x7d" ++
      "\x7bmsg desc=\"\"\x7d\x7bplural $n\x7d\x7bdefault\x7dmany\x7b/plural\x7d\x7b/msg\x7d" ++
      "\x7bmsg desc=\"\"\x7dlast\x7b/msg\x7d\n" ++
      "\x7b/template\x7d\n" }

/-- A strict pass replaces the two groups before the plural, which have five
    nodes more than their statements, and fails. -/
theorem FileSet.insertMsgs_splices_mixedBody :
    ∃ set, (Compiler.parse {} [mixedBody]).1 = .ok set ∧
      (set.insertMsgs ⟨none, .strict⟩).1.isOk = false ∧
      (set.insertMsgs ⟨none, .strict⟩).2.ids.length + 5 = set.ids.length ∧
      List.Forall₂ (Message.Insertion.FramesFile ⟨none, .strict⟩) set.files
        (set.insertMsgs ⟨none, .strict⟩).2.files := by
  have hcheck : (Compiler.parse {} [mixedBody]).1.toOption.any fun set =>
      (set.insertMsgs ⟨none, .strict⟩).1.isOk = false ∧
        (set.insertMsgs ⟨none, .strict⟩).2.ids.length + 5 = set.ids.length := by
    decide +kernel
  obtain ⟨set, hparse, hset⟩ := any_toOption.1 hcheck
  obtain ⟨herror, hlength⟩ := of_decide_eq_true hset
  obtain ⟨-, -, hfiles⟩ := insertMsgs_splices hparse ⟨none, .strict⟩
  exact ⟨set, hparse, herror, hlength, hfiles⟩

end Stencil
