/-
  Stencil/Proofs/Message/WellMade.lean
  ====================================
  **Trees of messages are well made, and stay so** (`wellMadeBody_of_parse_and_insert`).

  Messages, plurals, selects and cases are arranged as `Formed` says, and groups,
  placeholders and tags are filled.  A node about which this says anything has no
  group among its children, so an insertion leaves the contents below it alone;
  what it puts in the place of a group comes from inside the group.
-/
import Stencil.Proofs.Compiler.Bodies
import Stencil.Proofs.Message.Filled
import Stencil.Proofs.Message.Remaining

namespace Stencil

namespace Message

variable {α : Type}

/-! ### What is read is well made -/

/-- What belongs to the tree of a message.  A group has one or two messages.  A
    message has a plural or select and nothing else, or plain parts; a plural or
    select has cases, the last of which is the default, and these have plain
    parts.  A placeholder has a name in capitals and one print, call or tag, and a
    tag has texts that are not empty and prints. -/
structure WellMadeAt (n : Tree α) : Prop where
  arranged : Arranged n.content (n.children.map Tree.content)
  filled : Fills n.content (n.children.map Tree.content)

/-- All nodes of a tree are well made. -/
def WellMade (t : Tree α) : Prop := Tree.Each WellMadeAt t

theorem wellMadeAt_gist (n : Tree α) : WellMadeAt n.gist ↔ WellMadeAt n := by
  have harranged := arranged_map Content.form_gist n.content (n.children.map Tree.content)
  rw [← map_content_children_gist, ← Tree.content_gist] at harranged
  have hfilled := filledAt_gist n
  exact ⟨fun h => ⟨harranged.1 h.arranged, hfilled.1 h.filled⟩,
    fun h => ⟨harranged.2 h.arranged, hfilled.2 h.filled⟩⟩

theorem wellMade_of_reads {scope : Scope} {role : Body.Role} {d : Draft}
    (h : Body.Reads scope role d) : WellMade d :=
  fun n hn => ⟨(formed_of_reads h n hn).arranged, filled_of_reads h n hn⟩

theorem wellMade_of_isPlacedBody {body : List Node} (h : IsPlacedBody body) :
    ∀ n ∈ body, WellMade n := by
  obtain ⟨-, loc, parent, next, ⟨scope, tokens, endLine, drafts, line, hread, rfl⟩, rfl⟩ := h
  have hgists : Tree.gistAll drafts = Tree.gistAll
      (Tree.linkAll loc parent (Tree.numberAll next (Tree.mapAll (· + line) drafts)).1) := by
    rw [Tree.gistAll_placed, Tree.gistAll_mapAll]
  exact Tree.each_of_gistAll_eq wellMadeAt_gist wellMadeAt_gist hgists
    fun d hd => wellMade_of_reads (Body.read_reads hread d hd)

/-! ### Other children -/

theorem not_isMsgGroup_of_isPiece {content : Content} (h : IsPiece content) :
    ¬ content.isMsgGroup := by
  rcases h with ⟨text, rfl, -⟩ | ⟨name, key, rfl⟩ <;> simp [Content.isMsgGroup]

theorem DefaultLast.exists_label {cases : List Content} (h : DefaultLast cases) {case : Content}
    (hcase : case ∈ cases) : ∃ label, case = .case label := by
  obtain ⟨labelled, rfl, hlabelled⟩ := h
  rcases List.mem_append.1 hcase with hcase | hcase
  · obtain ⟨label, rfl, -⟩ := hlabelled case hcase
    exact ⟨label, rfl⟩
  · exact ⟨.default, List.mem_singleton.1 hcase⟩

/-- Where a group stands nothing else is asked of the children. -/
theorem arranged_and_fills_of_mem {content child : Content} {children : List Content}
    (harranged : Arranged content children) (hfills : Fills content children)
    (hchild : child ∈ children) (hgroup : child.isMsgGroup) (others : List Content) :
    Arranged content others ∧ Fills content others := by
  cases content with
  | msgGroup =>
    obtain ⟨desc, meaning, hidden, rfl⟩ := hfills.2 child hchild
    cases hgroup
  | msg desc meaning hidden =>
    rcases harranged with hplain | ⟨choice, rfl, hchoice⟩
    · exact absurd hgroup (not_isMsgGroup_of_isPiece (hplain.pieces child hchild))
    · rw [List.mem_singleton.1 hchild] at hgroup
      cases choice with
      | msgGroup => cases hchoice
      | _ => cases hgroup
  | plural | select =>
    obtain ⟨label, rfl⟩ := DefaultLast.exists_label harranged hchild
    cases hgroup
  | case label => exact absurd hgroup (not_isMsgGroup_of_isPiece (harranged.pieces child hchild))
  | placeholder name key =>
    obtain ⟨-, inside, rfl, hinside⟩ := hfills
    rw [List.mem_singleton.1 hchild] at hgroup
    cases inside with
    | msgGroup => cases hinside
    | _ => cases hgroup
  | htmlTag name isEnd selfEnding =>
    rcases hfills child hchild with ⟨text, rfl, -⟩ | ⟨expr, directives, implicit, rfl⟩ <;>
      cases hgroup
  | _ => exact ⟨trivial, trivial⟩

/-- A node stays well made with other children, if their contents are the same
    where no group is among them. -/
theorem WellMadeAt.withChildren {n : Tree α} (h : WellMadeAt n) {children : List (Tree α)}
    (hcontents : (∀ k ∈ n.children, ¬ k.content.isMsgGroup) →
      children.map Tree.content = n.children.map Tree.content) :
    WellMadeAt (n.withChildren children) := by
  by_cases hgroup : ∀ k ∈ n.children, ¬ k.content.isMsgGroup
  · constructor <;> rw [Tree.content_withChildren, Tree.children_withChildren, hcontents hgroup]
    · exact h.arranged
    · exact h.filled
  · obtain ⟨k, hk, hgroup⟩ : ∃ k ∈ n.children, k.content.isMsgGroup := by simpa using hgroup
    obtain ⟨harranged, hfills⟩ := arranged_and_fills_of_mem h.arranged h.filled
      (List.mem_map_of_mem hk) hgroup (children.map Tree.content)
    constructor <;> rw [Tree.content_withChildren, Tree.children_withChildren]
    · exact harranged
    · exact hfills

/-! ### Replacements -/

theorem wellMadeAt_rawText (mark : α) (text : String) :
    WellMadeAt (.leaf mark (.rawText text) : Tree α) := ⟨trivial, trivial⟩

theorem wellMade_of_mem_copyAll {next : NodeId} {ns : List Node} (h : ∀ n ∈ ns, WellMade n) :
    ∀ s ∈ (copyAll next ns).1, WellMade s := by
  intro s hs
  have hmem : s.bare ∈ ns.map Tree.bare := by
    rw [← map_bare_copyAll next]
    exact List.mem_map_of_mem hs
  obtain ⟨n, hn, hbare⟩ := List.mem_map.1 hmem
  have hgist : s.gist = n.gist := by rw [← Tree.gist_bare, ← hbare, Tree.gist_bare]
  rw [WellMade, ← Tree.each_gist wellMadeAt_gist, hgist, Tree.each_gist wellMadeAt_gist]
  exact h n hn

theorem wellMade_of_mem_placeholderStatements {p : Node} (h : WellMade p) (used : Bool)
    (next : NodeId) : ∀ s ∈ (placeholderStatements used next p).1, WellMade s := by
  have hinside : ∀ s ∈ flattenAll p.children, WellMade s :=
    fun s hs => each_of_mem_flattenAll (fun k hk => h.child hk) hs
  cases used with
  | true => exact wellMade_of_mem_copyAll hinside
  | false => exact hinside

theorem wellMade_of_mem_translatedStatements {msg : Node} (h : WellMade msg) {id : MsgId}
    {used : List String} {next : NodeId} {parts : List TranslationPart} {ns : List Node}
    (hns : (translatedStatements msg id used next parts).1 = .ok ns) : ∀ s ∈ ns, WellMade s := by
  induction parts generalizing used next ns with
  | nil =>
    cases hns
    exact fun _ hs => (nomatch hs)
  | cons part rest ih =>
    cases part with
    | text text =>
      rw [translatedStatements] at hns
      obtain ⟨ns', hns', rfl⟩ := map_eq_ok.1 hns
      exact List.forall_mem_cons.2 ⟨Tree.each_leaf (wellMadeAt_rawText _ _), ih hns'⟩
    | placeholder name =>
      rw [translatedStatements] at hns
      cases hp : placeholder? msg.children name with
      | none =>
        rw [hp] at hns
        cases hns
      | some p =>
        rw [hp] at hns
        obtain ⟨ns', hns', rfl⟩ := map_eq_ok.1 hns
        have hmem := mem_preorderAll_of_mem_placeholders _ (mem_placeholders_of_placeholder? hp)
        have hbelow : p ∈ msg.preorder := Tree.mem_preorder_iff.2 (.inr hmem)
        exact List.forall_mem_append.2
          ⟨wellMade_of_mem_placeholderStatements (h.below hbelow) _ _, ih hns'⟩

namespace Insertion

variable (ins : Insertion)

theorem wellMade_replacement {group : Node} (h : WellMade group) {progress : Progress}
    {ns : List Node} (hns : (ins.replacement progress group).1 = .ok (some ns)) :
    ∀ s ∈ ns, WellMade s := by
  rw [replacement] at hns
  split at hns
  · split at hns <;> cases hns
  · split at hns
    · rename_i msg t htranslation
      obtain ⟨bundle, -, hfind⟩ := Option.bind_eq_some_iff.1 htranslation
      obtain ⟨msg', hmsg, hget⟩ := List.exists_of_findSome?_eq_some hfind
      obtain ⟨t', -, heq⟩ := Option.map_eq_some_iff.1 hget
      cases heq
      obtain ⟨ns', hns', heq⟩ := map_eq_ok.1 hns
      cases heq
      exact wellMade_of_mem_translatedStatements (h.child hmsg) hns'
    · cases hns
      split
      · exact List.forall_mem_nil _
      · rename_i primary rest hchildren
        have hprimary : primary ∈ group.children := hchildren ▸ List.mem_cons_self
        exact each_of_mem_sourceStatements (fun _ _ _ => wellMadeAt_rawText _ _) (h.child hprimary)

/-! ### Visits -/

variable {inside : Progress → Node → Visit Node}
  (hinside : ∀ progress n, WellMade n → WellMade (inside progress n).result)
include hinside

theorem wellMade_visitEach (progress : Progress) {ns : List Node} (h : ∀ n ∈ ns, WellMade n) :
    ∀ n ∈ (visitEach inside progress ns).result, WellMade n := by
  induction ns generalizing progress with
  | nil => exact h
  | cons n rest ih =>
    have hn := hinside progress n (h n List.mem_cons_self)
    have hrest : ∀ k ∈ rest, WellMade k := fun k hk => h k (List.mem_cons_of_mem _ hk)
    rw [visitEach]
    split
    · exact List.forall_mem_cons.2 ⟨hn, hrest⟩
    · exact List.forall_mem_cons.2 ⟨hn, ih _ hrest⟩

theorem wellMade_visitStatement (owner : NodeId) (progress : Progress) {n : Node}
    (h : WellMade n) : ∀ k ∈ (ins.visitStatement inside owner progress n).result, WellMade k := by
  have hstays : ∀ progress, ∀ k ∈ ((inside progress n).map ([·])).result, WellMade k := by
    intro progress k hk
    rw [List.mem_singleton.1 hk]
    exact hinside progress n h
  have hleft : ∀ k ∈ [n], WellMade k := List.forall_mem_singleton.2 h
  rw [visitStatement]
  split
  · rcases hreplacement : ins.replacement progress n with ⟨e | _ | nodes, progress'⟩
    · exact hleft
    · exact hstays progress'
    · have hnodes := ins.wellMade_replacement h (congrArg Prod.fst hreplacement)
      have heach := wellMade_visitEach hinside progress' hnodes
      dsimp only
      split
      · exact hleft
      · intro k hk
        obtain ⟨s, hs, rfl⟩ := List.mem_map.1 hk
        have hgist : (s.withParent (some owner)).gist = s.gist := by
          cases s
          rfl
        rw [WellMade, ← Tree.each_gist wellMadeAt_gist, hgist, Tree.each_gist wellMadeAt_gist]
        exact heach s hs
  · exact hstays progress

theorem wellMade_visitBlock (owner : NodeId) (progress : Progress) {ns : List Node}
    (h : ∀ n ∈ ns, WellMade n) :
    ∀ n ∈ (ins.visitBlock inside owner progress ns).result, WellMade n := by
  induction ns generalizing progress with
  | nil => exact h
  | cons n rest ih =>
    have hn := ins.wellMade_visitStatement hinside owner progress (h n List.mem_cons_self)
    have hrest : ∀ k ∈ rest, WellMade k := fun k hk => h k (List.mem_cons_of_mem _ hk)
    rw [visitBlock]
    split
    · exact List.forall_mem_append.2 ⟨hn, hrest⟩
    · exact List.forall_mem_append.2 ⟨hn, ih _ hrest⟩

omit hinside

theorem wellMade_visitInside (height : Nat) (progress : Progress) (n : Node) (h : WellMade n) :
    WellMade (ins.visitInside height progress n).result := by
  induction height generalizing progress n with
  | zero => exact h
  | succ height ih =>
    refine Tree.each_iff.2 ⟨h.root.withChildren fun hgroup => ?_, fun k hk => ?_⟩
    · exact ins.map_visitBlock Tree.content _ _ progress hgroup
        fun progress k _ => ins.content_visitInside height progress k
    · rw [visitInside, Visit.map, Tree.children_withChildren] at hk
      exact ins.wellMade_visitBlock ih n.owner progress (fun k hk => h.child hk) k hk

theorem wellMade_visitTemplate (progress : Progress) {t : Template Mark}
    (h : ∀ n ∈ t.body, WellMade n) : ∀ n ∈ (ins.visitTemplate progress t).result.body, WellMade n :=
  ins.wellMade_visitBlock (ins.wellMade_visitInside _) t.mark.owner progress h

theorem wellMade_visitTemplates (progress : Progress) {ts : List (Template Mark)}
    (h : ∀ t ∈ ts, ∀ n ∈ t.body, WellMade n) :
    ∀ t ∈ (ins.visitTemplates progress ts).result, ∀ n ∈ t.body, WellMade n := by
  induction ts generalizing progress with
  | nil => exact h
  | cons t rest ih =>
    have ht := ins.wellMade_visitTemplate progress (h t List.mem_cons_self)
    have hrest : ∀ u ∈ rest, ∀ n ∈ u.body, WellMade n := fun u hu => h u (List.mem_cons_of_mem _ hu)
    rw [visitTemplates]
    split
    · exact List.forall_mem_cons.2 ⟨ht, hrest⟩
    · exact List.forall_mem_cons.2 ⟨ht, ih _ hrest⟩

theorem wellMade_visitFiles (progress : Progress) {files : List (SourceFile Mark)}
    (h : ∀ file ∈ files, ∀ t ∈ file.templates, ∀ n ∈ t.body, WellMade n) :
    ∀ file ∈ (ins.visitFiles progress files).result,
      ∀ t ∈ file.templates, ∀ n ∈ t.body, WellMade n := by
  induction files generalizing progress with
  | nil => exact h
  | cons file rest ih =>
    have hfile := ins.wellMade_visitTemplates progress (h file List.mem_cons_self)
    have hrest : ∀ f ∈ rest, ∀ t ∈ f.templates, ∀ n ∈ t.body, WellMade n :=
      fun f hf => h f (List.mem_cons_of_mem _ hf)
    rw [visitFiles]
    split
    · exact List.forall_mem_cons.2 ⟨hfile, hrest⟩
    · exact List.forall_mem_cons.2 ⟨hfile, ih _ hrest⟩

end Insertion

/-- All nodes of a body, at any depth, are well made. -/
def WellMadeBody (body : List Node) : Prop := ∀ n ∈ Tree.preorderAll body, WellMadeAt n

theorem wellMadeBody_iff {body : List Node} : WellMadeBody body ↔ ∀ n ∈ body, WellMade n := by
  constructor
  · exact fun h n hn k hk => h k (Tree.mem_preorderAll.2 ⟨n, hn, hk⟩)
  · intro h k hk
    obtain ⟨n, hn, hk⟩ := Tree.mem_preorderAll.1 hk
    exact h n hn k hk

/-- The bodies that are read are well made, and an insertion keeps well made bodies
    well made, with whatever bundle and mode, and also where it fails. -/
theorem wellMadeBody_of_parse_and_insert :
    (∀ types source file next, (Compiler.parseFile types source).1 = .ok (file, next) →
      ∀ t ∈ file.templates, WellMadeBody t.body) ∧
    ∀ (set : FileSet) (ins : Insertion), (∀ t ∈ set.templates, WellMadeBody t.body) →
      ∀ t ∈ (set.insertMsgs ins).2.templates, WellMadeBody t.body := by
  constructor
  · intro types source file next hparse t ht
    exact wellMadeBody_iff.2
      (wellMade_of_isPlacedBody (Compiler.isPlacedBody_of_parseFile hparse t ht))
  · intro set ins h t ht
    have hfiles : ∀ file ∈ set.files, ∀ t ∈ file.templates, ∀ n ∈ t.body, WellMade n :=
      fun file hfile t ht => wellMadeBody_iff.1 (h t (List.mem_flatMap.2 ⟨file, hfile, ht⟩))
    have hvisit := ins.wellMade_visitFiles { next := set.next } hfiles
    obtain ⟨file, hfile, ht⟩ := List.mem_flatMap.1 ht
    refine wellMadeBody_iff.2 (hvisit file ?_ t ht)
    rw [FileSet.insertMsgs] at hfile
    split at hfile <;> exact hfile

/-- A link around two prints of one name, in a message with a fallback, and a
    plural with a call that is given a message. -/
def linkedChoices : Source :=
  { path := "t.soy"
    text := "\x7bnamespace n\x7d\n\x7btemplate .t\x7d\n" ++
      "\x7bmsg desc=\"\"\x7d<a href=\"\x7b$url\x7d\">\x7b$a.name\x7d</a> \x7b$b.name\x7d" ++
      "\x7bfallbackmsg desc=\"\"\x7dnone\x7b/msg\x7d\n" ++
      "\x7bmsg desc=\"\"\x7d\x7bplural $n\x7d\x7bcase 1\x7done\x7bdefault\x7d" ++
      "\x7bcall .f\x7d\x7bparam x kind=\"text\"\x7d\x7bmsg desc=\"\"\x7da\x7b/msg\x7d" ++
      "\x7b/param\x7d\x7b/call\x7d\x7b/plural\x7d\x7b/msg\x7d\n\x7b/template\x7d\n" }

/-- The first message is replaced, and so is the one in the plural, which is left. -/
theorem wellMadeBody_of_parse_and_insert_linkedChoices : ∃ file next summary set,
    (Compiler.parseFile {} linkedChoices).1 = .ok (file, next) ∧
    FileSet.insertMsgs { bundle := none, mode := .tolerant }
      { id := next, files := [file], next := next + 1 } = (.ok summary, set) ∧
    summary.replaced = 2 ∧ summary.skipped.length = 1 ∧
    (∀ t ∈ file.templates, WellMadeBody t.body) ∧ ∀ t ∈ set.templates, WellMadeBody t.body := by
  have hcheck : (Compiler.parseFile {} linkedChoices).1.toOption.any (fun parsed =>
      (FileSet.insertMsgs { bundle := none, mode := .tolerant }
        { id := parsed.2, files := [parsed.1], next := parsed.2 + 1 }).1.toOption.any fun summary =>
          summary.replaced = 2 ∧ summary.skipped.length = 1) = true := by decide +kernel
  obtain ⟨⟨file, next⟩, hparse, hinsert⟩ := any_toOption.1 hcheck
  obtain ⟨summary, hsummary, hcounts⟩ := any_toOption.1 hinsert
  obtain ⟨hreplaced, hskipped⟩ := of_decide_eq_true hcounts
  have hfile := wellMadeBody_of_parse_and_insert.1 {} linkedChoices file next hparse
  refine ⟨file, next, summary, _, hparse, Prod.ext hsummary rfl, hreplaced, hskipped, hfile, ?_⟩
  refine wellMadeBody_of_parse_and_insert.2 { id := next, files := [file], next := next + 1 } _ ?_
  intro t ht
  obtain ⟨f, hf, ht⟩ := List.mem_flatMap.1 ht
  rw [List.mem_singleton.1 hf] at ht
  exact hfile t ht

end Message

end Stencil
