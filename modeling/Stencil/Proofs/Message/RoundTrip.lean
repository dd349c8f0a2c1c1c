/-
  Stencil/Proofs/Message/RoundTrip.lean
  =====================================
  **Inserting the messages that were extracted is inserting none.**

  The bundle that is extracted from a file set translates every message by its
  own pieces.  If the placeholders that share a name say the same, and messages
  that share an identity have one canonical text, then those pieces give the
  statements of the message as it is written, up to identities and places.  So
  both insertions go the same way through the whole tree
  (`insertMsgs_extractMsgs`).
-/
import Stencil.Proofs.Message.Bare
import Stencil.Proofs.Message.Canonical
import Stencil.Proofs.Message.Remaining

namespace Stencil

/-! ### Looking up translations -/

namespace Bundle

/-- The bundle has a translation for the identity of each of these, and it has no
    others. -/
structure Covers (bundle : Bundle) (ts : List Translation) : Prop where
  mem : ∀ u ∈ bundle.msgs, u ∈ ts
  exists_mem : ∀ t ∈ ts, ∃ u ∈ bundle.msgs, u.id = t.id

theorem exists_mem_insertInto {t s : Translation} {msgs : List Translation}
    (h : s ∈ msgs ∨ s = t) : ∃ u ∈ insertInto t msgs, u.id = s.id := by
  induction msgs with
  | nil =>
    rcases h with h | rfl
    · cases h
    · exact ⟨s, List.mem_cons_self, rfl⟩
  | cons first rest ih =>
    rw [insertInto]
    split
    · refine ⟨s, ?_, rfl⟩
      rcases h with h | rfl
      · exact List.mem_cons_of_mem _ h
      · exact List.mem_cons_self
    · split
      · rename_i heq
        rcases h with h | rfl
        · rcases List.mem_cons.1 h with rfl | h
          · exact ⟨t, List.mem_cons_self, heq⟩
          · exact ⟨s, List.mem_cons_of_mem _ h, rfl⟩
        · exact ⟨s, List.mem_cons_self, rfl⟩
      · have hrest : s ∈ rest ∨ s = t → ∃ u ∈ first :: insertInto t rest, u.id = s.id := by
          intro h
          obtain ⟨u, hu, hid⟩ := ih h
          exact ⟨u, List.mem_cons_of_mem _ hu, hid⟩
        rcases h with h | h
        · rcases List.mem_cons.1 h with rfl | h
          · exact ⟨s, List.mem_cons_self, rfl⟩
          · exact hrest (.inl h)
        · exact hrest (.inr h)

theorem Covers.insert {bundle : Bundle} {ts : List Translation} (h : bundle.Covers ts)
    (t : Translation) : (bundle.insert t).Covers (ts ++ [t]) := by
  constructor
  · intro u hu
    rcases mem_insertInto hu with rfl | hu
    · exact List.mem_append_right _ List.mem_cons_self
    · exact List.mem_append_left _ (h.mem u hu)
  · intro s hs
    rcases List.mem_append.1 hs with hs | hs
    · obtain ⟨u, hu, hid⟩ := h.exists_mem s hs
      obtain ⟨v, hv, hvid⟩ := exists_mem_insertInto (.inl hu)
      exact ⟨v, hv, hvid.trans hid⟩
    · exact exists_mem_insertInto (.inr (List.mem_singleton.1 hs))

theorem Covers.foldl_insert {bundle : Bundle} {ts : List Translation} (h : bundle.Covers ts)
    (ts' : List Translation) : (ts'.foldl Bundle.insert bundle).Covers (ts ++ ts') := by
  induction ts' generalizing bundle ts with
  | nil => rwa [List.append_nil]
  | cons t rest ih =>
    rw [List.foldl_cons, List.append_cons]
    exact ih (h.insert t)

/-- A bundle of some translations finds one of them for the identity of each. -/
theorem exists_get?_ofList (locale : Option String) {ts : List Translation} {t : Translation}
    (ht : t ∈ ts) : ∃ u ∈ ts, (ofList locale ts).get? t.id = some u ∧ u.id = t.id := by
  have hempty : ({ locale } : Bundle).Covers [] :=
    ⟨fun _ hu => (nomatch hu), fun _ hs => (nomatch hs)⟩
  have hcovers : (ofList locale ts).Covers ts := hempty.foldl_insert ts
  obtain ⟨u, hu, hid⟩ := hcovers.exists_mem t ht
  have hsome : ((ofList locale ts).get? t.id).isSome :=
    List.find?_isSome.2 ⟨u, hu, beq_iff_eq.2 hid⟩
  obtain ⟨v, hv⟩ := Option.isSome_iff_exists.1 hsome
  have hvid := List.find?_some hv
  exact ⟨v, hcovers.mem v (List.mem_of_find?_eq_some hv), hv, beq_iff_eq.1 hvid⟩

end Bundle

namespace Message

variable {α : Type}

/-! ### Pieces of plain messages -/

theorem IsPlain.tail {part : Content} {rest : List Content} (h : IsPlain (part :: rest)) :
    IsPlain rest :=
  ⟨fun p hp => h.pieces p (List.mem_cons_of_mem _ hp), h.apart.tail⟩

/-- After a text of a plain body there is no other one that it could join. -/
theorem sourcePieces_cons_of_msgText {part : Tree α} {rest : List (Tree α)} {text : String}
    (h : IsPlain ((part :: rest).map Tree.content)) (hcontent : part.content = .msgText text) :
    sourcePieces (part :: rest) = .text text :: sourcePieces rest := by
  rw [sourcePieces_cons, consPiece_of_msgText hcontent]
  cases rest with
  | nil => rfl
  | cons next rest =>
    have hapart := (List.isChain_cons_cons.1 h.apart).1
    rcases h.tail.isPiece next List.mem_cons_self with ⟨text', hnext, -⟩ | ⟨name, key, hnext⟩
    · rw [hcontent, hnext] at hapart
      exact absurd ⟨rfl, rfl⟩ hapart
    · rw [sourcePieces_cons, consPiece_of_placeholder hnext]
      rfl

/-- A text of a message with a null character. -/
def holdsNull : Content → Bool
  | .msgText text => text.toList.contains '\x00'
  | _ => false

theorem textShows_of_mem_sourcePieces {body : List (Tree α)}
    (h : IsPlain (body.map Tree.content)) (hnull : ∀ part ∈ body, ¬ holdsNull part.content) :
    ∀ piece ∈ sourcePieces body, TextShows piece := by
  induction body with
  | nil => exact fun _ hpiece => (nomatch hpiece)
  | cons part rest ih =>
    have hrest := ih h.tail fun p hp => hnull p (List.mem_cons_of_mem _ hp)
    rcases h.isPiece part List.mem_cons_self with ⟨text, hcontent, -⟩ | ⟨name, key, hcontent⟩
    · have htext := hnull part List.mem_cons_self
      rw [hcontent, holdsNull, List.contains_iff_mem] at htext
      rw [sourcePieces_cons_of_msgText h hcontent]
      exact List.forall_mem_cons.2 ⟨htext, hrest⟩
    · rw [sourcePieces_cons, consPiece_of_placeholder hcontent]
      exact List.forall_mem_cons.2 ⟨trivial, hrest⟩

/-! ### Messages that a bundle restores -/

/-- The placeholders of a message that share a name say the same. -/
def NamesAgree (msg : Tree α) : Prop :=
  ∀ p ∈ placeholders msg.children, ∀ q ∈ placeholders msg.children,
    placeholderName? p = placeholderName? q → p.children.map Tree.bare = q.children.map Tree.bare

/-- A plain message that a bundle translates by its own pieces. -/
structure Restores (bundle : Bundle) (msg : Tree α) : Prop where
  plain : IsPlain (msg.children.map Tree.content)
  agree : NamesAgree msg
  kept : ∃ t, bundle.get? (fingerprint msg) = some t ∧ t.parts = sourcePieces msg.children

/-- A node whose messages the bundle restores, if it is a group. -/
def RestorableAt (bundle : Bundle) (n : Tree α) : Prop :=
  n.content.isMsgGroup → ∀ msg ∈ n.children, ¬ isChoiceBody msg.children → Restores bundle msg

/-- A tree whose messages the bundle restores, apart from plurals and selects. -/
def Restorable (bundle : Bundle) (t : Tree α) : Prop := Tree.Each (RestorableAt bundle) t

instance (msg : Tree α) : Decidable (NamesAgree msg) :=
  inferInstanceAs (Decidable (∀ p ∈ placeholders msg.children, ∀ q ∈ placeholders msg.children,
    placeholderName? p = placeholderName? q → p.children.map Tree.bare = q.children.map Tree.bare))

theorem namesAgree_bare (msg : Tree α) : NamesAgree msg.bare ↔ NamesAgree msg := by
  simp only [NamesAgree, Tree.children_bare, placeholders_map_bare, List.forall_mem_map,
    placeholderName?_bare, Tree.map_bare_map_bare]

theorem restores_bare (bundle : Bundle) (msg : Tree α) :
    Restores bundle msg.bare ↔ Restores bundle msg := by
  have hplain : IsPlain (msg.bare.children.map Tree.content) ↔
      IsPlain (msg.children.map Tree.content) := by
    rw [← isPlain_map_bare (msg.children.map Tree.content), Tree.children_bare, List.map_map,
      List.map_map]
    have hcomp : Tree.content ∘ Tree.bare = Content.bare ∘ Tree.content (α := α) :=
      funext Tree.content_bare
    rw [hcomp]
  have hpieces : sourcePieces msg.bare.children = sourcePieces msg.children := by
    rw [Tree.children_bare, sourcePieces_map_bare]
  constructor
  · rintro ⟨h, hagree, t, ht, hparts⟩
    rw [fingerprint_bare] at ht
    exact ⟨hplain.1 h, (namesAgree_bare msg).1 hagree, t, ht, hparts.trans hpieces⟩
  · rintro ⟨h, hagree, t, ht, hparts⟩
    rw [← fingerprint_bare] at ht
    exact ⟨hplain.2 h, (namesAgree_bare msg).2 hagree, t, ht, hparts.trans hpieces.symm⟩

theorem restorable_bare (bundle : Bundle) (t : Tree α) :
    Restorable bundle t.bare ↔ Restorable bundle t := by
  refine Tree.each_bare (fun n => ?_) t
  simp only [RestorableAt, Tree.content_bare, Content.isMsgGroup_bare, Tree.children_bare,
    List.forall_mem_map, isChoiceBody_map_bare, restores_bare]

theorem Restorable.of_bare_eq {bundle : Bundle} {t t' : Tree α} (h : Restorable bundle t)
    (heq : t.bare = t'.bare) : Restorable bundle t' := by
  rwa [← restorable_bare, ← heq, restorable_bare]

/-! ### Statements from the pieces of a message -/

theorem mem_placeholders_of_mem {body : List (Tree α)} {part : Tree α} (hpart : part ∈ body)
    {name : String} {key : PlaceholderKey} (hcontent : part.content = .placeholder name key) :
    part ∈ placeholders body := by
  induction body with
  | nil => cases hpart
  | cons first rest ih =>
    rw [placeholders, List.mem_append]
    rcases List.mem_cons.1 hpart with rfl | hpart
    · left
      obtain ⟨mark, content, children⟩ := part
      rw [Tree.content_node] at hcontent
      rw [hcontent, partPlaceholders]
      exact List.mem_cons_self
    · exact .inr (ih hpart)

/-- The first placeholder with the name of another one says the same. -/
theorem NamesAgree.exists_placeholder? {msg part : Tree α} (h : NamesAgree msg)
    (hpart : part ∈ msg.children) {name : String} {key : PlaceholderKey}
    (hcontent : part.content = .placeholder name key) :
    ∃ p, placeholder? msg.children name = some p ∧
      p.children.map Tree.bare = part.children.map Tree.bare := by
  have hmem := mem_placeholders_of_mem hpart hcontent
  have hname : placeholderName? part = some name := by
    rw [placeholderName?, hcontent]
  have hsome : (placeholder? msg.children name).isSome :=
    isSome_placeholder?_iff.2 (List.mem_filterMap.2 ⟨part, hmem, hname⟩)
  obtain ⟨p, hp⟩ := Option.isSome_iff_exists.1 hsome
  have hpname := placeholderName?_of_placeholder? hp
  exact ⟨p, hp, h p (mem_placeholders_of_placeholder? hp) part hmem (hpname.trans hname.symm)⟩

theorem map_bare_placeholderStatements {p part : Node}
    (h : p.children.map Tree.bare = part.children.map Tree.bare) (used : Bool) (next : NodeId) :
    (placeholderStatements used next p).1.map Tree.bare =
      (flattenAll part.children).map Tree.bare := by
  have hall := map_bare_flattenAll p.children part.children h
  cases used with
  | true => exact (map_bare_copyAll next _).trans hall
  | false => exact hall

/-- The pieces of a message give its statements. -/
theorem exists_translatedStatements_sourcePieces {msg : Node} (h : NamesAgree msg) (id : MsgId)
    (used : List String) (next : NodeId) {parts : List Node}
    (hparts : ∀ part ∈ parts, part ∈ msg.children) (hplain : IsPlain (parts.map Tree.content)) :
    ∃ ns, (translatedStatements msg id used next (sourcePieces parts)).1 = .ok ns ∧
      ns.map Tree.bare = (parts.flatMap partStatements).map Tree.bare := by
  induction parts generalizing used next with
  | nil => exact ⟨[], rfl, rfl⟩
  | cons part rest ih =>
    have ih := fun used next => ih used next (fun p hp => hparts p (List.mem_cons_of_mem _ hp))
      hplain.tail
    rw [List.flatMap_cons, List.map_append]
    rcases hplain.isPiece part List.mem_cons_self with ⟨text, hcontent, -⟩ | ⟨name, key, hcontent⟩
    · -- what follows a text is no text, so the text is a piece of its own
      obtain ⟨ns, hns, hbare⟩ := ih used (next + 1)
      rw [sourcePieces_cons_of_msgText hplain hcontent, translatedStatements]
      refine ⟨.leaf ⟨next, none, msg.loc⟩ (.rawText text) :: ns, map_eq_ok.2 ⟨ns, hns, rfl⟩, ?_⟩
      have hleaf : (partStatements part).map Tree.bare = [.leaf () (.rawText text)] := by
        rw [map_bare_partStatements_eq, hcontent]
        rfl
      rw [List.map_cons, hbare, hleaf, Tree.bare_leaf]
      rfl
    · -- the placeholder found by its name may be an earlier one that says the same
      obtain ⟨p, hp, hsame⟩ := h.exists_placeholder? (hparts part List.mem_cons_self) hcontent
      rw [sourcePieces_cons, consPiece_of_placeholder hcontent, translatedStatements, hp]
      obtain ⟨ns, hns, hbare⟩ := ih (name :: used)
        (placeholderStatements (used.contains name) next p).2
      refine ⟨(placeholderStatements (used.contains name) next p).1 ++ ns,
        map_eq_ok.2 ⟨ns, hns, rfl⟩, ?_⟩
      rw [List.map_append, hbare, map_bare_placeholderStatements hsame, partStatements, hcontent]

/-! ### Visits that end alike -/

/-- Two visits both fail, or both succeed with results that look the same. -/
inductive EndAlike {β γ : Type} (look : β → γ) (v v' : Visit β) : Prop where
  | fail {e e' : InsertionError} (h : v.error = some e) (h' : v'.error = some e')
  | succeed (h : v.error = none) (h' : v'.error = none) (same : look v.result = look v'.result)

theorem EndAlike.map {β β' γ γ' : Type} {look : β → γ} {look' : β' → γ'} {v v' : Visit β}
    {f f' : β → β'} (h : EndAlike look v v')
    (hf : look v.result = look v'.result → look' (f v.result) = look' (f' v'.result)) :
    EndAlike look' (v.map f) (v'.map f') := by
  cases h with
  | fail h h' => exact .fail h h'
  | succeed h h' same => exact .succeed h h' (hf same)

theorem EndAlike.single {v v' : Visit Node} (h : EndAlike Tree.bare v v') :
    EndAlike (List.map Tree.bare) (v.map ([·])) (v'.map ([·])) :=
  h.map fun same => congrArg ([·]) same

namespace Insertion

variable {bundle : Bundle} (mode : ChoiceMode)

/-- Two ways to visit the inside of a node that end alike on nodes that only
    differ in identities and places. -/
def InsideAlike (bundle : Bundle) (inside inside' : Progress → Node → Visit Node) : Prop :=
  ∀ progress progress' n n', n.bare = n'.bare → Restorable bundle n →
    EndAlike Tree.bare (inside progress n) (inside' progress' n')

/-- What the two insertions do with a group. -/
inductive ReplaceAlike (bundle : Bundle) :
    Except InsertionError (Option (List Node)) → Except InsertionError (Option (List Node)) → Prop
  | fail (e e' : InsertionError) : ReplaceAlike bundle (.error e) (.error e')
  | leave : ReplaceAlike bundle (.ok none) (.ok none)
  | replace {ns ns' : List Node} (same : ns.map Tree.bare = ns'.map Tree.bare)
      (restorable : ∀ n ∈ ns, Restorable bundle n) :
      ReplaceAlike bundle (.ok (some ns)) (.ok (some ns'))

theorem hasChoice_of_bare_eq {g g' : Node} (h : g.bare = g'.bare) : hasChoice g = hasChoice g' := by
  have hbare : ∀ g : Node, hasChoice g.bare = hasChoice g := by
    intro g
    simp only [hasChoice, Tree.children_bare, List.any_map, Function.comp_def,
      isChoiceBody_map_bare]
  rw [← hbare, h, hbare]

theorem restorable_of_mem_sourceStatements {msg : Node} (h : Restorable bundle msg) :
    ∀ s ∈ sourceStatements msg, Restorable bundle s :=
  each_of_mem_sourceStatements (fun _ _ _ hgroup => (nomatch hgroup)) h

theorem replaceAlike_of_hasChoice {g g' : Node} (hchoice : hasChoice g) (hchoice' : hasChoice g')
    (progress progress' : Progress) :
    ReplaceAlike bundle (replacement { bundle := some bundle, mode } progress g).1
      (replacement { bundle := none, mode } progress' g').1 := by
  rcases replacement_of_hasChoice { bundle := some bundle, mode } hchoice progress with
    ⟨e, hmode, heq⟩ | ⟨hmode, heq⟩ <;>
    rcases replacement_of_hasChoice { bundle := none, mode } hchoice' progress' with
      ⟨e', hmode', heq'⟩ | ⟨hmode', heq'⟩
  · rw [heq, heq']
    exact .fail e e'
  · exact absurd (hmode.symm.trans hmode') (by simp)
  · exact absurd (hmode.symm.trans hmode') (by simp)
  · rw [heq, heq']
    exact .leave

/-- A group whose first message the bundle restores is replaced by its statements. -/
theorem exists_replacement_of_restores {g primary : Node} {rest : List Node}
    (hchoice : ¬ hasChoice g) (hmsgs : g.children = primary :: rest)
    (h : Restores bundle primary) (progress : Progress) :
    ∃ ns, (replacement { bundle := some bundle, mode } progress g).1 = .ok (some ns) ∧
      ns.map Tree.bare = (sourceStatements primary).map Tree.bare := by
  obtain ⟨t, ht, hparts⟩ := h.kept
  obtain ⟨ns, hns, hbare⟩ := exists_translatedStatements_sourcePieces h.agree t.id []
    progress.next (fun _ hpart => hpart) h.plain
  refine ⟨ns, ?_, hbare⟩
  have htranslation : translation? bundle g.children = some (primary, t) := by
    rw [hmsgs, translation?, List.findSome?_cons, ht]
    rfl
  rw [replacement, find?_eq_none_iff.2 hchoice]
  dsimp only
  rw [Option.bind_some, htranslation]
  dsimp only
  rw [hparts, hns]
  rfl

/-- A group is left by both insertions, or both replace it by the same statements. -/
theorem replaceAlike_replacement {g g' : Node} (hbare : g.bare = g'.bare)
    (hgroup : g.content.isMsgGroup) (h : Restorable bundle g) (progress progress' : Progress) :
    ReplaceAlike bundle (replacement { bundle := some bundle, mode } progress g).1
      (replacement { bundle := none, mode } progress' g').1 := by
  have hsame := hasChoice_of_bare_eq hbare
  by_cases hchoice : hasChoice g
  · exact replaceAlike_of_hasChoice mode hchoice (hsame ▸ hchoice) progress progress'
  have hchoice' : ¬ hasChoice g' := hsame ▸ hchoice
  cases hmsgs : g.children with
  | nil =>
    have hmsgs' : g'.children = [] := by
      have hchildren := (Tree.bare_eq_iff.1 hbare).2
      rwa [hmsgs, List.map_nil, eq_comm, List.map_eq_nil_iff] at hchildren
    rw [replacement, find?_eq_none_iff.2 hchoice, replacement, find?_eq_none_iff.2 hchoice', hmsgs,
      hmsgs']
    exact .replace rfl (List.forall_mem_nil _)
  | cons primary rest =>
    obtain ⟨primary', rest', hmsgs', hprimary, -⟩ : ∃ primary' rest',
        g'.children = primary' :: rest' ∧ primary'.bare = primary.bare ∧
          rest'.map Tree.bare = rest.map Tree.bare := by
      have hchildren := (Tree.bare_eq_iff.1 hbare).2
      rwa [hmsgs, List.map_cons, eq_comm, List.map_eq_cons_iff] at hchildren
    have hmem : primary ∈ g.children := by
      rw [hmsgs]
      exact List.mem_cons_self
    have hplain : ¬ isChoiceBody primary.children := fun hbody =>
      hchoice (List.any_eq_true.2 ⟨primary, hmem, hbody⟩)
    obtain ⟨ns, hns, hstatements⟩ := exists_replacement_of_restores mode hchoice hmsgs
      (h.root hgroup primary hmem hplain) progress
    rw [hns, replacement_of_untranslated _ hchoice' hmsgs' rfl]
    -- the statements come from inside the message, so their groups can be restored too
    refine .replace (hstatements.trans (map_bare_sourceStatements hprimary.symm)) fun n hn => ?_
    have hn' : n.bare ∈ (sourceStatements primary).map Tree.bare := by
      rw [← hstatements]
      exact List.mem_map_of_mem hn
    obtain ⟨s, hs, heq⟩ := List.mem_map.1 hn'
    exact (restorable_of_mem_sourceStatements (h.child hmem) s hs).of_bare_eq heq

variable {inside inside' : Progress → Node → Visit Node}

theorem endAlike_visitEach (hinside : InsideAlike bundle inside inside')
    (progress progress' : Progress) {ns ns' : List Node}
    (hbare : ns.map Tree.bare = ns'.map Tree.bare) (h : ∀ n ∈ ns, Restorable bundle n) :
    EndAlike (List.map Tree.bare) (visitEach inside progress ns)
      (visitEach inside' progress' ns') := by
  induction Tree.map_bare_eq_iff.1 hbare generalizing progress progress' with
  | nil => exact .succeed rfl rfl rfl
  | @cons n n' rest rest' hn hrest ih =>
    have ih := fun progress progress' => ih progress progress' (Tree.map_bare_eq_iff.2 hrest)
      fun k hk => h k (List.mem_cons_of_mem _ hk)
    cases hinside progress progress' n n' hn (h n List.mem_cons_self) with
    | fail herror herror' =>
      simp only [visitEach, herror, herror']
      exact .fail rfl rfl
    | succeed hok hok' same =>
      simp only [visitEach, hok, hok']
      exact (ih _ _).map fun hsame => by rw [List.map_cons, List.map_cons, same, hsame]

theorem map_bare_adopt (owner : NodeId) (ns : List Node) :
    (ChildList.adopt owner ns).map Tree.bare = ns.map Tree.bare := by
  rw [ChildList.adopt, List.map_map]
  exact List.map_congr_left fun n _ => Tree.bare_withParent n _

theorem endAlike_visitStatement (hinside : InsideAlike bundle inside inside')
    (owner owner' : NodeId) (progress progress' : Progress) {n n' : Node}
    (hbare : n.bare = n'.bare) (h : Restorable bundle n) :
    EndAlike (List.map Tree.bare)
      (visitStatement { bundle := some bundle, mode } inside owner progress n)
      (visitStatement { bundle := none, mode } inside' owner' progress' n') := by
  have hcontent : n.content.isMsgGroup = n'.content.isMsgGroup := by
    rw [← Content.isMsgGroup_bare, (Tree.bare_eq_iff.1 hbare).1, Content.isMsgGroup_bare]
  rw [visitStatement, visitStatement]
  by_cases hgroup : n.content.isMsgGroup
  · rw [if_pos hgroup, if_pos (hcontent ▸ hgroup)]
    have halike := replaceAlike_replacement mode hbare hgroup h progress progress'
    rcases hresult : replacement { bundle := some bundle, mode } progress n with ⟨result, mid⟩
    rcases hresult' : replacement { bundle := none, mode } progress' n' with ⟨result', mid'⟩
    rw [hresult, hresult'] at halike
    cases halike with
    | fail e e' => exact .fail rfl rfl
    | leave => exact (hinside mid mid' n n' hbare h).single
    | replace same restorable =>
      dsimp only
      cases endAlike_visitEach hinside mid mid' same restorable with
      | fail herror herror' =>
        rw [herror, herror']
        exact .fail rfl rfl
      | succeed hok hok' same =>
        rw [hok, hok']
        exact .succeed rfl rfl (by rw [map_bare_adopt, map_bare_adopt, same])
  · rw [if_neg hgroup, if_neg (hcontent ▸ hgroup)]
    exact (hinside progress progress' n n' hbare h).single

theorem endAlike_visitBlock (hinside : InsideAlike bundle inside inside')
    (owner owner' : NodeId) (progress progress' : Progress) {ns ns' : List Node}
    (hbare : ns.map Tree.bare = ns'.map Tree.bare) (h : ∀ n ∈ ns, Restorable bundle n) :
    EndAlike (List.map Tree.bare)
      (visitBlock { bundle := some bundle, mode } inside owner progress ns)
      (visitBlock { bundle := none, mode } inside' owner' progress' ns') := by
  induction Tree.map_bare_eq_iff.1 hbare generalizing progress progress' with
  | nil => exact .succeed rfl rfl rfl
  | @cons n n' rest rest' hn hrest ih =>
    have ih := fun progress progress' => ih progress progress' (Tree.map_bare_eq_iff.2 hrest)
      fun k hk => h k (List.mem_cons_of_mem _ hk)
    cases endAlike_visitStatement mode hinside owner owner' progress progress' hn
        (h n List.mem_cons_self) with
    | fail herror herror' =>
      simp only [visitBlock, herror, herror']
      exact .fail rfl rfl
    | succeed hok hok' same =>
      simp only [visitBlock, hok, hok']
      exact (ih _ _).map fun hsame => by rw [List.map_append, List.map_append, same, hsame]

/-- At every height both insertions visit the inside of a node alike. -/
theorem insideAlike_visitInside (height : Nat) :
    InsideAlike bundle (visitInside { bundle := some bundle, mode } height)
      (visitInside { bundle := none, mode } height) := by
  induction height with
  | zero => exact fun _ _ _ _ hbare _ => .succeed rfl rfl hbare
  | succ height ih =>
    intro progress progress' n n' hbare h
    obtain ⟨hcontent, hchildren⟩ := Tree.bare_eq_iff.1 hbare
    rw [visitInside, visitInside]
    refine (endAlike_visitBlock mode ih n.owner n'.owner progress progress' hchildren
      fun k hk => h.child hk).map fun hsame => ?_
    rw [Tree.bare_eq_iff, Tree.content_withChildren, Tree.content_withChildren,
      Tree.children_withChildren, Tree.children_withChildren]
    exact ⟨hcontent, hsame⟩

end Insertion

end Message

/-! ### Files up to identities and places -/

/-- The template without marks and identities. -/
def Template.bare {α : Type} (t : Template α) : Template Unit :=
  { mark := (), info := t.info, body := t.body.map Tree.bare }

/-- The file without marks and identities. -/
def SourceFile.bare {α : Type} (file : SourceFile α) : SourceFile Unit :=
  { mark := (), info := file.info, templates := file.templates.map Template.bare }

namespace Message.Insertion

variable {bundle : Bundle} (mode : ChoiceMode)

theorem endAlike_visitTemplate (progress progress' : Progress) {t : Template Mark}
    (h : ∀ n ∈ t.body, Restorable bundle n) :
    EndAlike Template.bare (visitTemplate { bundle := some bundle, mode } progress t)
      (visitTemplate { bundle := none, mode } progress' t) := by
  rw [visitTemplate, visitTemplate]
  refine (endAlike_visitBlock mode (insideAlike_visitInside mode _) _ _ progress progress' rfl h).map
    fun hsame => ?_
  rw [Template.bare, Template.bare, hsame]

theorem endAlike_visitTemplates (progress progress' : Progress) {ts : List (Template Mark)}
    (h : ∀ t ∈ ts, ∀ n ∈ t.body, Restorable bundle n) :
    EndAlike (List.map Template.bare) (visitTemplates { bundle := some bundle, mode } progress ts)
      (visitTemplates { bundle := none, mode } progress' ts) := by
  induction ts generalizing progress progress' with
  | nil => exact .succeed rfl rfl rfl
  | cons t rest ih =>
    have hrest := fun progress progress' => ih progress progress'
      fun s hs => h s (List.mem_cons_of_mem _ hs)
    cases endAlike_visitTemplate mode progress progress' (h t List.mem_cons_self) with
    | fail herror herror' =>
      simp only [visitTemplates, herror, herror']
      exact .fail rfl rfl
    | succeed hok hok' same =>
      simp only [visitTemplates, hok, hok']
      exact (hrest _ _).map fun hsame => by rw [List.map_cons, List.map_cons, same, hsame]

theorem endAlike_visitFiles (progress progress' : Progress) {files : List (SourceFile Mark)}
    (h : ∀ file ∈ files, ∀ t ∈ file.templates, ∀ n ∈ t.body, Restorable bundle n) :
    EndAlike (List.map SourceFile.bare) (visitFiles { bundle := some bundle, mode } progress files)
      (visitFiles { bundle := none, mode } progress' files) := by
  induction files generalizing progress progress' with
  | nil => exact .succeed rfl rfl rfl
  | cons file rest ih =>
    have hrest := fun progress progress' => ih progress progress'
      fun f hf => h f (List.mem_cons_of_mem _ hf)
    cases endAlike_visitTemplates mode progress progress' (h file List.mem_cons_self) with
    | fail herror herror' =>
      simp only [visitFiles, Visit.map, herror, herror']
      exact .fail rfl rfl
    | succeed hok hok' same =>
      have hfile : ∀ ts ts' : List (Template Mark), ts.map Template.bare = ts'.map Template.bare →
          { file with templates := ts }.bare = { file with templates := ts' }.bare := by
        intro ts ts' hts
        rw [SourceFile.bare, SourceFile.bare, hts]
      simp only [visitFiles, Visit.map, hok, hok']
      exact (hrest _ _).map fun hsame => by
        rw [List.map_cons, List.map_cons, hfile _ _ same, hsame]

end Message.Insertion

/-! ### The round trip -/

namespace FileSet

open Message

/-- The files without marks and identities. -/
def bare (set : FileSet) : List (SourceFile Unit) := set.files.map SourceFile.bare

variable {c : Compiler} {sources : List Source} {set : FileSet}

/-- A plain message without null characters. -/
theorem unambiguous_of_not_isChoiceBody (hparse : (c.parse sources).1 = .ok set) {msg : Node}
    (hmsg : msg ∈ set.messages) (hplain : ¬ isChoiceBody msg.children)
    (hnull : ∀ part ∈ msg.children, ¬ holdsNull part.content) :
    IsPlain (msg.children.map Tree.content) ∧ outline msg = .plain (sourcePieces msg.children) ∧
      (outline msg).Unambiguous := by
  obtain ⟨hformed, hcontent⟩ := formed_of_mem_messages hparse hmsg
  rcases outline_cases hformed hcontent with ⟨h, houtline⟩ | ⟨choice, hchildren, hchoice, -⟩
  · refine ⟨h, houtline, ?_⟩
    rw [houtline]
    exact textShows_of_mem_sourcePieces h hnull
  · refine absurd ?_ hplain
    rw [hchildren]
    exact hchoice

/-- The extracted bundle translates every plain message by its own pieces. -/
theorem restores_extractMsgs (hparse : (c.parse sources).1 = .ok set)
    (hagree : ∀ msg ∈ set.messages, NamesAgree msg)
    (hnull : ∀ msg ∈ set.messages, ∀ part ∈ msg.children, ¬ holdsNull part.content)
    (hhash : ∀ msg ∈ set.messages, ∀ msg' ∈ set.messages, fingerprint msg = fingerprint msg' →
      canonical msg = canonical msg') {msg : Node} (hmsg : msg ∈ set.messages)
    (hplain : ¬ isChoiceBody msg.children) : Restores set.extractMsgs msg := by
  obtain ⟨h, houtline, hshow⟩ := unambiguous_of_not_isChoiceBody hparse hmsg hplain (hnull msg hmsg)
  refine ⟨h, hagree msg hmsg, ?_⟩
  have hmem : toTranslation msg ∈ (set.msgGroups.flatMap translatable).map toTranslation := by
    obtain ⟨group, hgroup, hmsg⟩ := List.mem_flatMap.1 hmsg
    refine List.mem_map_of_mem (List.mem_flatMap.2 ⟨group, hgroup, List.mem_filter.2 ⟨hmsg, ?_⟩⟩)
    rw [Bool.not_eq_true] at hplain
    rw [hplain]
    rfl
  obtain ⟨u, hu, hget, hid⟩ := Bundle.exists_get?_ofList none hmem
  refine ⟨u, hget, ?_⟩
  -- the translation found may be that of another message, but that says the same
  obtain ⟨msg', hmsg', rfl⟩ := List.mem_map.1 hu
  obtain ⟨group, hgroup, htranslatable⟩ := List.mem_flatMap.1 hmsg'
  obtain ⟨hchild, hplain'⟩ := List.mem_filter.1 htranslatable
  have hmsg' : msg' ∈ set.messages := List.mem_flatMap.2 ⟨group, hgroup, hchild⟩
  have hplain' : ¬ isChoiceBody msg'.children := by
    intro hbody
    rw [hbody] at hplain'
    cases hplain'
  obtain ⟨-, houtline', hshow'⟩ := unambiguous_of_not_isChoiceBody hparse hmsg' hplain'
    (hnull msg' hmsg')
  have heq := (outline_eq_of_canonical_eq hparse hparse hmsg' hmsg hshow' hshow
    (hhash msg' hmsg' msg hmsg hid)).2
  rw [houtline', houtline] at heq
  exact Outline.plain.inj heq

/-- The extracted bundle restores the bodies of all templates. -/
theorem restorable_extractMsgs (hparse : (c.parse sources).1 = .ok set)
    (hrestores : ∀ msg ∈ set.messages, ¬ isChoiceBody msg.children →
      Restores set.extractMsgs msg) {t : Template Mark} (ht : t ∈ set.templates) :
    ∀ n ∈ t.body, Restorable set.extractMsgs n := by
  intro n hn g hg hgroup msg hmsg hplain
  refine hrestores msg ?_ hplain
  rw [messages_eq_flatMap hparse]
  refine List.mem_flatMap.2 ⟨g, List.mem_flatMap.2 ⟨t, ht, ?_⟩, hmsg⟩
  exact Tree.mem_groups.2 ⟨Tree.mem_preorderAll.2 ⟨n, hn, hg⟩, hgroup⟩

/-- Inserting the messages that were extracted from a file set that is read
    succeeds just in case inserting none does, and gives the same files up to
    identities and places, if the placeholders of a message that share a name say
    the same, no text of a message holds a null character, and messages that share
    an identity have one canonical text. -/
theorem insertMsgs_extractMsgs (hparse : (c.parse sources).1 = .ok set) (mode : ChoiceMode)
    (hagree : ∀ msg ∈ set.messages, NamesAgree msg)
    (hnull : ∀ msg ∈ set.messages, ∀ part ∈ msg.children, ¬ holdsNull part.content)
    (hhash : ∀ msg ∈ set.messages, ∀ msg' ∈ set.messages, fingerprint msg = fingerprint msg' →
      canonical msg = canonical msg') :
    ((∃ summary, (set.insertMsgs { bundle := some set.extractMsgs, mode }).1 = .ok summary) ↔
        ∃ summary, (set.insertMsgs { bundle := none, mode }).1 = .ok summary) ∧
      ∀ summary, (set.insertMsgs { bundle := some set.extractMsgs, mode }).1 = .ok summary →
        (set.insertMsgs { bundle := some set.extractMsgs, mode }).2.bare =
          (set.insertMsgs { bundle := none, mode }).2.bare := by
  have hrestorable : ∀ file ∈ set.files, ∀ t ∈ file.templates, ∀ n ∈ t.body,
      Restorable set.extractMsgs n := fun file hfile t ht =>
    restorable_extractMsgs hparse
      (fun _ hmsg hplain => restores_extractMsgs hparse hagree hnull hhash hmsg hplain)
      (List.mem_flatMap.2 ⟨file, hfile, ht⟩)
  rw [insertMsgs, insertMsgs]
  cases Insertion.endAlike_visitFiles mode { next := set.next } { next := set.next }
      hrestorable with
  | fail herror herror' =>
    rw [herror, herror']
    refine ⟨⟨?_, ?_⟩, fun _ h => (by cases h)⟩ <;>
      · rintro ⟨_, h⟩
        cases h
  | succeed hok hok' same =>
    rw [hok, hok']
    exact ⟨⟨fun _ => ⟨_, rfl⟩, fun _ => ⟨_, rfl⟩⟩, fun _ _ => same⟩

/-- A message with a print that is repeated and a call that is given a message, and
    a plural. -/
def repeatedName : Source :=
  fileOf "n" ("\x7bmsg desc=\"\"\x7d\x7b$x\x7d, \x7b$x\x7d\x7bcall .f\x7d\x7bparam p kind=\"text\"\x7d" ++
    "\x7bmsg desc=\"\"\x7da\x7b/msg\x7d\x7b/param\x7d\x7b/call\x7d\x7b/msg\x7d" ++
    "\x7bmsg desc=\"\"\x7d\x7bplural $n\x7d\x7bdefault\x7db\x7b/plural\x7d\x7b/msg\x7d")

/-- The two messages are replaced by their own translations, and the plural is
    left: the result is that of an insertion without translations. -/
theorem insertMsgs_extractMsgs_repeatedName : ∃ set summary,
    (Compiler.parse {} [repeatedName]).1 = .ok set ∧ set.extractMsgs.size = 2 ∧
      (set.insertMsgs { bundle := some set.extractMsgs, mode := .tolerant }).1 = .ok summary ∧
      summary.replaced = 2 ∧
      (set.insertMsgs { bundle := some set.extractMsgs, mode := .tolerant }).2.bare =
        (set.insertMsgs { bundle := none, mode := .tolerant }).2.bare := by
  have hcheck : (Compiler.parse {} [repeatedName]).1.toOption.any fun set =>
      let messages := (set.templates.flatMap fun t => Tree.groups t.body).flatMap Tree.children
      (set.insertMsgs { bundle := some set.extractMsgs, mode := .tolerant }).1.toOption.any
        fun summary => set.extractMsgs.size = 2 ∧ summary.replaced = 2 ∧
          (∀ msg ∈ messages, NamesAgree msg) ∧
          (∀ msg ∈ messages, ∀ part ∈ msg.children, ¬ holdsNull part.content) ∧
          ∀ msg ∈ messages, ∀ msg' ∈ messages, fingerprint msg = fingerprint msg' →
            canonical msg = canonical msg' := by decide +kernel
  obtain ⟨set, hparse, hset⟩ := any_toOption.1 hcheck
  obtain ⟨summary, hsummary, hfacts⟩ := any_toOption.1 hset
  rw [← messages_eq_flatMap hparse] at hfacts
  obtain ⟨hsize, hreplaced, hagree, hnull, hhash⟩ := of_decide_eq_true hfacts
  exact ⟨set, summary, hparse, hsize, hsummary, hreplaced,
    (insertMsgs_extractMsgs hparse .tolerant hagree hnull hhash).2 summary hsummary⟩

end FileSet

end Stencil
