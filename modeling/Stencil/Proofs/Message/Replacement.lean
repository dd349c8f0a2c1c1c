/-
  Stencil/Proofs/Message/Replacement.lean
  =======================================
  **The statements that a group is replaced by.**

  They are statements from inside the placeholders of one message, copies of
  such statements, and texts.  Statements that are not copies come from
  different placeholders, since a translation gets those of a placeholder only
  where it uses the name for the first time.  So no identity is used twice.
-/
import Mathlib.Data.List.Sublists
import Stencil.Proofs.Message.Lookup
import Stencil.Proofs.Message.SharedKeys
import Stencil.Proofs.Tree.Bare
import Stencil.Proofs.Tree.Links

namespace Stencil.Message

open Stencil.Tree (Linked ListedBy idsAll Drawn Renewed)

/-! ### Identities of parts of a tree -/

theorem idsAll_eq (ns : List Node) : idsAll ns = (ns.map Tree.ids).flatten := by
  induction ns with
  | nil => rfl
  | cons n rest ih => rw [Tree.idsAll_cons, ih, List.map_cons, List.flatten_cons]

theorem idsAll_sublist {ns ns' : List Node} (h : ns.Sublist ns') :
    (idsAll ns).Sublist (idsAll ns') := by
  induction h with
  | slnil => exact List.Sublist.refl _
  | cons n _ ih =>
    rw [Tree.idsAll_cons]
    exact ih.trans (List.sublist_append_right _ _)
  | cons_cons n _ ih =>
    rw [Tree.idsAll_cons, Tree.idsAll_cons]
    exact ih.append_left _

theorem ids_sublist_of_mem {n : Node} {ns : List Node} (h : n ∈ ns) :
    n.ids.Sublist (idsAll ns) := by
  rw [idsAll_eq]
  exact List.sublist_flatten_of_mem (List.mem_map_of_mem h)

theorem idsAll_children_sublist (n : Node) : (idsAll n.children).Sublist n.ids := by
  rw [Tree.ids_eq]
  exact List.sublist_cons_self _ _

/-- Nodes made of parts of others one by one have no new identities. -/
theorem idsAll_flatMap_sublist {f : Node → List Node} {ns : List Node}
    (h : ∀ n ∈ ns, (idsAll (f n)).Sublist n.ids) : (idsAll (ns.flatMap f)).Sublist (idsAll ns) := by
  induction ns with
  | nil => exact List.Sublist.refl _
  | cons n rest ih =>
    rw [List.flatMap_cons, Tree.idsAll_append, Tree.idsAll_cons]
    exact (h n List.mem_cons_self).append (ih fun k hk => h k (List.mem_cons_of_mem _ hk))

/-! ### Statements inside placeholders -/

mutual

theorem mem_preorder_of_mem_flatten {s : Node} : (n : Node) → s ∈ flatten n → s ∈ n.preorder
  | .node mark content children, hs => by
    rw [flatten.eq_def] at hs
    dsimp only at hs
    split at hs
    · exact Tree.mem_preorder_iff.2 (.inr (mem_preorderAll_of_mem_flattenAll children hs))
    · rw [List.mem_singleton.1 hs]
      exact Tree.mem_preorder_self _

theorem mem_preorderAll_of_mem_flattenAll {s : Node} :
    (ns : List Node) → s ∈ flattenAll ns → s ∈ Tree.preorderAll ns
  | n :: rest, hs => by
    rw [flattenAll, List.mem_append] at hs
    rw [Tree.preorderAll, List.mem_append]
    rcases hs with hs | hs
    · exact .inl (mem_preorder_of_mem_flatten n hs)
    · exact .inr (mem_preorderAll_of_mem_flattenAll rest hs)

end

mutual

theorem idsAll_flatten_sublist : (n : Node) → (idsAll (flatten n)).Sublist n.ids
  | .node mark content children => by
    rw [flatten.eq_def]
    dsimp only
    split
    · exact (idsAll_flattenAll_sublist children).trans (idsAll_children_sublist (.node _ _ children))
    · rw [Tree.idsAll_singleton]

theorem idsAll_flattenAll_sublist : (ns : List Node) → (idsAll (flattenAll ns)).Sublist (idsAll ns)
  | [] => List.Sublist.refl _
  | n :: rest => by
    rw [flattenAll, Tree.idsAll_append, Tree.idsAll_cons]
    exact (idsAll_flatten_sublist n).append (idsAll_flattenAll_sublist rest)

end

mutual

theorem idsAll_partPlaceholders_sublist :
    (part : Node) → (idsAll (partPlaceholders part)).Sublist part.ids
  | .node mark content children => by
    have hchildren := (idsAll_placeholders_sublist children).trans
      (idsAll_children_sublist (.node mark content children))
    cases content with
    | placeholder name key => rw [partPlaceholders, Tree.idsAll_singleton]
    | plural | select | case => exact hchildren
    | _ => exact List.nil_sublist _

theorem idsAll_placeholders_sublist :
    (body : List Node) → (idsAll (placeholders body)).Sublist (idsAll body)
  | [] => List.Sublist.refl _
  | part :: rest => by
    rw [placeholders, Tree.idsAll_append, Tree.idsAll_cons]
    exact (idsAll_partPlaceholders_sublist part).append (idsAll_placeholders_sublist rest)

end

/-- What holds of every node of a tree holds of every node of the statements inside. -/
theorem each_of_mem_flattenAll {P : Node → Prop} {ns : List Node} (h : ∀ n ∈ ns, Tree.Each P n)
    {s : Node} (hs : s ∈ flattenAll ns) : Tree.Each P s := by
  obtain ⟨n, hn, hs⟩ := Tree.mem_preorderAll.1 (mem_preorderAll_of_mem_flattenAll ns hs)
  exact (h n hn).below hs

/-! ### Copies -/

theorem linked_of_mem_copyAll {next : NodeId} {ns : List Node} :
    ∀ s ∈ (copyAll next ns).1, Linked s := by
  induction ns generalizing next with
  | nil => exact fun _ hs => (nomatch hs)
  | cons n rest ih =>
    intro s hs
    rw [copyAll] at hs
    rcases List.mem_cons.1 hs with rfl | hs
    · exact Tree.linked_renumber n.parent next n
    · exact ih s hs

theorem drawn_copyAll (next : NodeId) (ns : List Node) :
    Drawn next (copyAll next ns).2 (idsAll (copyAll next ns).1) := by
  induction ns generalizing next with
  | nil => exact Drawn.nil next
  | cons n rest ih =>
    rw [copyAll, Tree.idsAll_cons]
    exact (Tree.drawn_renumber n.parent next n).append (ih _)

/-! ### Statements of a message -/

/-- What holds of every node of a message holds of every node of its statements, if
    a text may take the place of any node. -/
theorem each_of_mem_sourceStatements {P : Node → Prop}
    (hleaf : ∀ part text, P part → P (.leaf part.mark (.rawText text))) {msg : Node}
    (h : Tree.Each P msg) : ∀ s ∈ sourceStatements msg, Tree.Each P s := by
  intro s hs
  obtain ⟨part, hpart, hs⟩ := List.mem_flatMap.1 hs
  split at hs
  · rw [List.mem_singleton.1 hs]
    exact Tree.each_leaf (hleaf part _ (h.child hpart).root)
  · exact each_of_mem_flattenAll (fun n hn => (h.child hpart).child hn) hs
  · cases hs

theorem linked_of_mem_sourceStatements {msg : Node} (h : Linked msg) :
    ∀ s ∈ sourceStatements msg, Linked s :=
  each_of_mem_sourceStatements (fun _ _ hpart => ⟨hpart.1, fun _ hk => (nomatch hk)⟩) h

theorem idsAll_sourceStatements_sublist (msg : Node) :
    (idsAll (sourceStatements msg)).Sublist (idsAll msg.children) := by
  apply idsAll_flatMap_sublist
  intro part _
  split
  · rw [Tree.idsAll_singleton, Tree.ids_leaf, Tree.ids_eq]
    exact (List.nil_sublist _).cons_cons _
  · exact (idsAll_flattenAll_sublist _).trans (idsAll_children_sublist part)
  · exact List.nil_sublist _

/-! ### Statements of a translation -/

/-- A placeholder whose name is not used yet. -/
def isUnused (used : List String) (p : Node) : Bool := (placeholderName? p).all (!used.contains ·)

/-- The placeholders of a message whose names are not used yet. -/
def unused (msg : Node) (used : List String) : List Node :=
  (placeholders msg.children).filter (isUnused used)

theorem unused_nil (msg : Node) : unused msg [] = placeholders msg.children := by
  apply List.filter_eq_self.2
  intro p _
  rw [isUnused]
  cases placeholderName? p <;> rfl

theorem isUnused_of_cons {used : List String} {name : String} {p : Node}
    (h : isUnused (name :: used) p) : isUnused used p := by
  rw [isUnused] at h ⊢
  cases hname : placeholderName? p with
  | none => rfl
  | some other =>
    rw [hname] at h
    simp only [Option.all_some, List.contains_cons, Bool.not_or, Bool.and_eq_true] at h ⊢
    exact h.2

theorem count_unused_cons_le (msg : Node) (used : List String) (name : String) (i : Nat) :
    (idsAll (unused msg (name :: used))).count i ≤ (idsAll (unused msg used)).count i := by
  apply List.Sublist.count_le
  exact idsAll_sublist (List.monotone_filter_right _ fun _ => isUnused_of_cons)

/-- The first placeholder with a name that is not used is not among the unused
    ones once the name is used. -/
theorem count_ids_add_count_unused_le {msg p : Node} {used : List String} {name : String}
    (hp : placeholder? msg.children name = some p) (hname : ¬ used.contains name) (i : Nat) :
    p.ids.count i + (idsAll (unused msg (name :: used))).count i ≤
      (idsAll (unused msg used)).count i := by
  rw [placeholder?_eq_find?, List.find?_eq_some_iff_append] at hp
  obtain ⟨hpname, before, after, happend, -⟩ := hp
  rw [beq_iff_eq] at hpname
  have hkept : isUnused used p := by
    rw [isUnused, hpname]
    simpa using hname
  have hdropped : ¬ isUnused (name :: used) p := by
    rw [isUnused, hpname]
    simp
  have hsub : ∀ ns : List Node, (idsAll (ns.filter (isUnused (name :: used)))).count i ≤
      (idsAll (ns.filter (isUnused used))).count i := by
    intro ns
    apply List.Sublist.count_le
    exact idsAll_sublist (List.monotone_filter_right ns fun _ => isUnused_of_cons)
  have hbefore := hsub before
  have hafter := hsub after
  rw [unused, unused, happend, List.filter_append, List.filter_append,
    List.filter_cons_of_pos hkept, List.filter_cons_of_neg hdropped, Tree.idsAll_append,
    Tree.idsAll_append, Tree.idsAll_cons, List.count_append, List.count_append, List.count_append]
  omega

theorem linked_of_placeholder? {msg p : Node} {name : String} (h : Linked msg)
    (hp : placeholder? msg.children name = some p) : Linked p := by
  have hmem := mem_preorderAll_of_mem_placeholders msg.children (mem_placeholders_of_placeholder? hp)
  exact h.below (Tree.mem_preorder_iff.2 (.inr hmem))

/-- Linked nodes whose identities are some of those before and drawn ones. -/
structure MadeOf (before : List Nat) (next free : Nat) (ns : List Node) : Prop where
  linked : ∀ n ∈ ns, Linked n
  renewed : Renewed before next free (idsAll ns)

theorem MadeOf.nil (before : List Nat) (next : Nat) : MadeOf before next next [] := by
  refine ⟨fun _ hn => (nomatch hn), (Renewed.refl [] next).mono fun i => ?_⟩
  exact Nat.zero_le _

theorem MadeOf.append {before before' : List Nat} {next mid free : Nat} {ns ns' : List Node}
    (h : MadeOf before next mid ns) (h' : MadeOf before' mid free ns') :
    MadeOf (before ++ before') next free (ns ++ ns') := by
  refine ⟨fun n hn => ?_, ?_⟩
  · rcases List.mem_append.1 hn with hn | hn
    · exact h.linked n hn
    · exact h'.linked n hn
  · rw [Tree.idsAll_append]
    exact h.renewed.append h'.renewed

theorem MadeOf.mono {before before' : List Nat} {next free : Nat} {ns : List Node}
    (h : MadeOf before next free ns) (hle : ∀ i, before.count i ≤ before'.count i) :
    MadeOf before' next free ns := ⟨h.linked, h.renewed.mono hle⟩

/-- A placeholder gives its own statements where its name is used for the first
    time, and copies after that. -/
theorem madeOf_placeholderStatements {p : Node} (h : Linked p) (used : Bool) (next : NodeId) :
    MadeOf (if used then [] else p.ids) next (placeholderStatements used next p).2
      (placeholderStatements used next p).1 := by
  cases used with
  | true =>
    exact ⟨linked_of_mem_copyAll, Renewed.of_drawn (drawn_copyAll next (flattenAll p.children))⟩
  | false =>
    refine ⟨fun s hs => each_of_mem_flattenAll (fun n hn => h.child hn) hs, ?_⟩
    have hsub := (idsAll_flattenAll_sublist p.children).trans (idsAll_children_sublist p)
    exact ⟨Nat.le_refl _, fun i => Nat.le_trans (hsub.count_le i) (Nat.le_add_right _ _)⟩

/-- The statements of a translation are those of unused placeholders, copies and
    texts. -/
theorem madeOf_translatedStatements {msg : Node} (h : Linked msg) (id : MsgId)
    (used : List String) (next : NodeId) (parts : List TranslationPart) :
    next ≤ (translatedStatements msg id used next parts).2 ∧
      ∀ ns, (translatedStatements msg id used next parts).1 = .ok ns →
        MadeOf (idsAll (unused msg used)) next (translatedStatements msg id used next parts).2 ns := by
  induction parts generalizing used next with
  | nil =>
    refine ⟨Nat.le_refl _, fun ns hns => ?_⟩
    cases hns
    exact MadeOf.nil _ next
  | cons part rest ih =>
    cases part with
    | text text =>
      obtain ⟨hle, hrest⟩ := ih used (next + 1)
      rw [translatedStatements]
      refine ⟨Nat.le_of_succ_le hle, fun ns hns => ?_⟩
      obtain ⟨ns', hns', rfl⟩ := map_eq_ok.1 hns
      have htext : MadeOf [] next (next + 1) [.leaf ⟨next, none, msg.loc⟩ (.rawText text)] := by
        refine ⟨fun n hn => ?_, Renewed.of_drawn (Drawn.nil (next + 1)).cons⟩
        rw [List.mem_singleton.1 hn]
        exact Tree.linked_leaf _ _ _ _
      exact htext.append (hrest ns' hns')
    | placeholder name =>
      rw [translatedStatements]
      cases hp : placeholder? msg.children name with
      | none =>
        refine ⟨Nat.le_refl _, fun ns hns => ?_⟩
        cases hns
      | some p =>
        have hnodes := madeOf_placeholderStatements (linked_of_placeholder? h hp)
          (used.contains name) next
        obtain ⟨hle, hrest⟩ := ih (name :: used) (placeholderStatements (used.contains name) next p).2
        refine ⟨Nat.le_trans hnodes.renewed.le hle, fun ns hns => ?_⟩
        obtain ⟨ns', hns', rfl⟩ := map_eq_ok.1 hns
        refine (hnodes.append (hrest ns' hns')).mono fun i => ?_
        rw [List.count_append]
        split
        · rw [List.count_nil, Nat.zero_add]
          exact count_unused_cons_le msg used name i
        · rename_i hname
          exact count_ids_add_count_unused_le hp hname i

/-! ### What the statements are -/

/-- The contents of the statements that a message is replaced by. -/
def isInline : Content → Bool
  | .rawText _ | .print _ _ _ | .call _ _ => true
  | _ => false

theorem isInline_form (content : Content) : isInline content.form = isInline content := by
  cases content <;> rfl

theorem isStatement_of_isInline {content : Content} (h : isInline content) :
    content.isStatement := by
  cases content <;> first | rfl | cases h

theorem not_isMsgGroup_of_isInline {content : Content} (h : isInline content) :
    ¬ content.isMsgGroup := by
  cases content <;> simp [isInline, Content.isMsgGroup] at h ⊢

/-- A text, print or call of the shape of a body, of at most so many levels. -/
structure Stands {α : Type} (height : Nat) (s : Tree α) : Prop where
  inline : isInline s.content
  shaped : Tree.Shaped s
  height_le : s.height ≤ height

theorem stands_bare {α : Type} {height : Nat} {s : Tree α} :
    Stands height s.bare ↔ Stands height s := by
  have hinline : isInline s.bare.content = isInline s.content := by
    rw [Tree.content_bare, ← isInline_form, Content.form_bare, isInline_form]
  have hshaped := Tree.shaped_bare s
  have hheight := Tree.height_bare s
  exact ⟨fun h => ⟨hinline ▸ h.inline, hshaped.1 h.shaped, hheight ▸ h.height_le⟩,
    fun h => ⟨hinline ▸ h.inline, hshaped.2 h.shaped, hheight ▸ h.height_le⟩⟩

theorem stands_of_bare_eq {α β : Type} {height : Nat} {s : Tree α} {s' : Tree β}
    (h : s.bare = s'.bare) : Stands height s ↔ Stands height s' := by
  rw [← stands_bare, h, stands_bare]

/-- Copies are the same up to identities. -/
theorem map_bare_copyAll (next : NodeId) (ns : List Node) :
    (copyAll next ns).1.map Tree.bare = ns.map Tree.bare := by
  induction ns generalizing next with
  | nil => rfl
  | cons n rest ih => rw [copyAll, List.map_cons, List.map_cons, Tree.bare_copy, ih]

mutual

/-- What stands in a placeholder flattens to texts, prints and calls. -/
theorem isInline_of_mem_flatten {s : Node} : (n : Node) → Tree.Shaped n →
    (isInline n.content ∨ ∃ name isEnd selfEnding, n.content = .htmlTag name isEnd selfEnding) →
      s ∈ flatten n → isInline s.content
  | .node mark content children, h, hcontent, hs => by
    have hall := isInline_of_mem_flattenAll (s := s) children fun k hk => h.child hk
    cases content with
    | htmlTag name isEnd selfEnding =>
      refine hall (fun k hk => ?_) hs
      have hholds := h.root k hk
      rw [Tree.content_node] at hholds
      cases hk : k.content <;> rw [hk] at hholds <;>
        first | exact .inl rfl | cases hholds
    | rawText | print | call =>
      rw [flatten, List.mem_singleton] at hs
      · rw [hs]
        rfl
      · exact fun _ _ _ heq => (nomatch heq)
    | _ =>
      rcases hcontent with hinline | ⟨_, _, _, heq⟩
      · cases hinline
      · cases heq

theorem isInline_of_mem_flattenAll {s : Node} : (ns : List Node) → (∀ n ∈ ns, Tree.Shaped n) →
    (∀ n ∈ ns, isInline n.content ∨
      ∃ name isEnd selfEnding, n.content = .htmlTag name isEnd selfEnding) →
      s ∈ flattenAll ns → isInline s.content
  | n :: rest, h, hcontent, hs => by
    rw [flattenAll, List.mem_append] at hs
    rcases hs with hs | hs
    · exact isInline_of_mem_flatten n (h n List.mem_cons_self) (hcontent n List.mem_cons_self) hs
    · exact isInline_of_mem_flattenAll rest (fun k hk => h k (List.mem_cons_of_mem _ hk))
        (fun k hk => hcontent k (List.mem_cons_of_mem _ hk)) hs

end

/-- The statements in a placeholder. -/
theorem stands_of_mem_flattenAll {p s : Node} {name : String} {key : PlaceholderKey}
    (h : Tree.Shaped p) (hcontent : p.content = .placeholder name key)
    (hs : s ∈ flattenAll p.children) : Stands p.height s := by
  refine ⟨isInline_of_mem_flattenAll p.children (fun k hk => h.child hk) (fun k hk => ?_) hs,
    each_of_mem_flattenAll (fun k hk => h.child hk) hs, ?_⟩
  · have hholds := h.root k hk
    rw [hcontent] at hholds
    cases hkind : k.content <;> rw [hkind] at hholds <;>
      first | exact .inl rfl | exact .inr ⟨_, _, _, rfl⟩ | cases hholds
  · exact Tree.height_le_of_mem_preorder p
      (Tree.mem_preorder_iff.2 (.inr (mem_preorderAll_of_mem_flattenAll p.children hs)))

theorem stands_leaf {α : Type} (mark : α) (text : String) {height : Nat} (h : 0 < height) :
    Stands height (.leaf mark (.rawText text)) :=
  ⟨rfl, Tree.each_leaf fun _ hk => (nomatch hk), h⟩

theorem Stands.mono {α : Type} {height height' : Nat} {s : Tree α} (h : Stands height s)
    (hle : height ≤ height') : Stands height' s :=
  ⟨h.inline, h.shaped, Nat.le_trans h.height_le hle⟩

theorem height_pos {α : Type} (t : Tree α) : 0 < t.height := by
  rw [Tree.height_eq]
  exact Nat.succ_pos _

theorem stands_of_mem_sourceStatements {msg : Node} (h : Tree.Shaped msg) :
    ∀ s ∈ sourceStatements msg, Stands msg.height s := by
  intro s hs
  obtain ⟨part, hpart, hs⟩ := List.mem_flatMap.1 hs
  have hle := Tree.height_le_of_mem_preorder msg (Tree.mem_preorder_of_mem_children hpart)
  split at hs
  · rw [List.mem_singleton.1 hs]
    exact stands_leaf _ _ (height_pos msg)
  · rename_i name key hcontent
    exact (stands_of_mem_flattenAll (h.child hpart) hcontent hs).mono hle
  · cases hs

theorem stands_of_mem_placeholderStatements {p : Node} {name : String} {key : PlaceholderKey}
    (h : Tree.Shaped p) (hcontent : p.content = .placeholder name key) (used : Bool)
    (next : NodeId) : ∀ s ∈ (placeholderStatements used next p).1, Stands p.height s := by
  intro s hs
  have hbare : (placeholderStatements used next p).1.map Tree.bare =
      (flattenAll p.children).map Tree.bare := by
    cases used with
    | true => exact map_bare_copyAll next _
    | false => rfl
  have hmem : s.bare ∈ (flattenAll p.children).map Tree.bare := by
    rw [← hbare]
    exact List.mem_map_of_mem hs
  obtain ⟨s', hs', heq⟩ := List.mem_map.1 hmem
  exact (stands_of_bare_eq heq).1 (stands_of_mem_flattenAll h hcontent hs')

theorem stands_of_mem_translatedStatements {msg : Node} (h : Tree.Shaped msg) {id : MsgId}
    {used : List String} {next : NodeId} {parts : List TranslationPart} {ns : List Node}
    (hns : (translatedStatements msg id used next parts).1 = .ok ns) :
    ∀ s ∈ ns, Stands msg.height s := by
  induction parts generalizing used next ns with
  | nil =>
    cases hns
    exact fun _ hs => (nomatch hs)
  | cons part rest ih =>
    cases part with
    | text text =>
      rw [translatedStatements] at hns
      obtain ⟨ns', hns', rfl⟩ := map_eq_ok.1 hns
      exact List.forall_mem_cons.2 ⟨stands_leaf _ _ (height_pos msg), ih hns'⟩
    | placeholder name =>
      rw [translatedStatements] at hns
      cases hp : placeholder? msg.children name with
      | none =>
        rw [hp] at hns
        cases hns
      | some p =>
        rw [hp] at hns
        obtain ⟨ns', hns', rfl⟩ := map_eq_ok.1 hns
        have hmem := mem_placeholders_of_placeholder? hp
        obtain ⟨name', key, hcontent⟩ := exists_key_of_mem_placeholders hmem
        have hbelow : p ∈ msg.preorder :=
          Tree.mem_preorder_iff.2 (.inr (mem_preorderAll_of_mem_placeholders _ hmem))
        intro s hs
        rcases List.mem_append.1 hs with hs | hs
        · exact (stands_of_mem_placeholderStatements (h.below hbelow) hcontent _ _ s hs).mono
            (Tree.height_le_of_mem_preorder msg hbelow)
        · exact ih hns' s hs

end Stencil.Message
