/-
  Stencil/Proofs/Message/Formed.lean
  ==================================
  **What is read is well formed.**

  An assembly writes a text down when a tag or a statement follows it, and both
  become placeholders; so no two texts follow each other.  Naming changes names
  of placeholders only.  Hence all bodies that the reader makes are of the form
  that `Formed` describes, and placing keeps it.
-/
import Stencil.Proofs.Message.Form

namespace Stencil.Message

open Body (Reads Role)

variable {α : Type}

theorem formedAt_of_eq_nil {n : Tree α} (hchildren : n.children = []) (hnamed : Named n.content)
    (harranged : Arranged n.content []) : FormedAt n := by
  refine ⟨fun k hk => ?_, hnamed, by rwa [hchildren]⟩
  rw [hchildren] at hk
  cases hk

theorem formed_of_eq_nil {n : Tree α} (hchildren : n.children = []) (hnamed : Named n.content)
    (harranged : Arranged n.content []) : Formed n := by
  refine Tree.each_iff.2 ⟨formedAt_of_eq_nil hchildren hnamed harranged, fun k hk => ?_⟩
  rw [hchildren] at hk
  cases hk

/-! ### Tags -/

theorem formed_of_isTagPart {part : Tree α} (h : IsTagPart part) : Formed part := by
  rcases h with ⟨text, hcontent, hnil⟩ | ⟨expr, directives, implicit, hcontent, hnil⟩
  · exact formed_of_eq_nil hnil (by rw [hcontent]; trivial) (by rw [hcontent]; trivial)
  · exact formed_of_eq_nil hnil (by rw [hcontent]; trivial) (by rw [hcontent]; trivial)

/-- A closed tag is a placeholder of a tag of texts and prints. -/
theorem OpenTag.Sound.formed_toPlaceholder {tag : OpenTag} (h : tag.Sound) :
    Formed tag.toPlaceholder := by
  have hparts : ∀ p ∈ tag.flush.parts.reverse, IsTagPart p :=
    fun p hp => h.flush.parts p (List.mem_reverse.1 hp)
  refine Tree.each_node ⟨?_, ?_, trivial⟩ ?_
  · intro k hk
    rw [Tree.children_node, List.mem_singleton] at hk
    rw [hk]
    rfl
  · exact isName_tagName (isAlphanum_of_mem_element _) _ _
  · intro k hk
    rw [List.mem_singleton] at hk
    subst hk
    refine Tree.each_node ⟨?_, trivial, trivial⟩ fun p hp => formed_of_isTagPart (hparts p hp)
    intro p hp
    rcases hparts p hp with ⟨text, hcontent, -⟩ | ⟨expr, directives, implicit, hcontent, -⟩
    · rw [hcontent]
      rfl
    · rw [hcontent]
      rfl

/-! ### Assemblies -/

/-- The parts of an assembly, the last one first: well formed and plain.  Outside
    of tags the last one is no text, and inside of tags no text is left over. -/
structure Assembly.Plain (a : Assembly) : Prop where
  formed : ∀ p ∈ a.parts, Formed p
  plain : IsPlain (a.parts.map Tree.content)
  last : a.tag = none → ∀ c ∈ (a.parts.map Tree.content).head?, ¬ c.isMsgText
  text : a.tag.isSome → a.text = []

namespace Assembly

variable {a a' : Assembly}

theorem isPlain_cons {part : Content} {parts : List Content} (hpart : IsPiece part)
    (hplain : IsPlain parts)
    (hapart : ∀ next ∈ parts.head?, ¬ (part.isMsgText ∧ next.isMsgText)) :
    IsPlain (part :: parts) :=
  ⟨List.forall_mem_cons.2 ⟨hpart, hplain.pieces⟩, List.isChain_cons.2 ⟨hapart, hplain.apart⟩⟩

/-- The last text goes among the parts. -/
theorem Plain.flush (h : a.Plain) : (∀ p ∈ a.flush.parts, Formed p) ∧
    IsPlain (a.flush.parts.map Tree.content) := by
  rw [Assembly.flush, textDraft]
  by_cases hempty : a.text.isEmpty
  · rw [if_pos hempty]
    exact ⟨h.formed, h.plain⟩
  · rw [if_neg hempty]
    have hne : a.text ≠ [] := fun hnil => hempty (by rw [hnil]; rfl)
    have htag : a.tag = none := by
      cases htag : a.tag with
      | none => rfl
      | some tag => exact absurd (h.text (by rw [htag]; rfl)) hne
    refine ⟨List.forall_mem_cons.2 ⟨formed_of_eq_nil rfl trivial trivial, h.formed⟩, ?_⟩
    refine isPlain_cons (.inl ⟨_, rfl, ?_⟩) h.plain ?_
    · intro hnil
      rw [String.ofList_eq_empty_iff, List.reverse_eq_nil_iff] at hnil
      exact hne hnil
    · exact fun next hnext hboth => h.last htag next hnext hboth.2

/-- A placeholder goes among plain parts. -/
theorem isPlain_placeholder {p : Draft} {parts : List Draft} {name : String} {key : PlaceholderKey}
    (hplain : IsPlain (parts.map Tree.content)) (hcontent : p.content = .placeholder name key) :
    IsPlain ((p :: parts).map Tree.content) := by
  rw [List.map_cons, hcontent]
  refine isPlain_cons (.inr ⟨name, key, rfl⟩) hplain fun next _ hboth => ?_
  exact absurd hboth.1 (by simp [Content.isMsgText])

theorem Plain.addChar (h : a.Plain) (hsound : a.Sound) (line : Nat) (c : Char)
    (next : Option Char) : (a.addChar line c next).Plain := by
  rw [Assembly.addChar]
  split
  · rename_i tag htag
    have htext : a.text = [] := h.text (by rw [htag]; rfl)
    dsimp only
    split
    · have hformed := ((hsound.tag tag htag).addChar c).formed_toPlaceholder
      refine ⟨List.forall_mem_cons.2 ⟨hformed, h.formed⟩, isPlain_placeholder h.plain rfl, ?_,
        fun hsome => (by cases hsome)⟩
      intro _ content hcontent htext
      cases hcontent
      cases htext
    · exact ⟨h.formed, h.plain, fun hnone => (by cases hnone), fun _ => htext⟩
  · rename_i htag
    split
    · exact ⟨h.flush.1, h.flush.2, fun hnone => (by cases hnone), fun _ => rfl⟩
    · refine ⟨h.formed, h.plain, h.last, fun hsome => ?_⟩
      rw [htag] at hsome
      cases hsome

theorem Plain.addText (h : a.Plain) (hsound : a.Sound) (line : Nat) (chars : List Char) :
    (a.addText line chars).Plain := by
  induction chars generalizing a with
  | nil => exact h
  | cons c cs ih => exact ih (h.addChar hsound line c cs.head?) (hsound.addChar line c cs.head?)

/-- The placeholder of a statement of a message. -/
theorem formed_placeholder {d : Draft} {name : String} {key : PlaceholderKey} (hd : Formed d)
    (hname : IsName name) (hitem : Body.IsItem d.content) :
    Formed (.node d.mark (.placeholder name key) [d] : Draft) := by
  refine Tree.each_node ⟨fun k hk => ?_, hname, trivial⟩ fun k hk => ?_
  · rw [Tree.children_node, List.mem_singleton] at hk
    rw [hk, Tree.content_node]
    rcases hitem with hcall | ⟨implicit, text, htext⟩
    · cases hcontent : d.content <;> rw [hcontent] at hcall <;> first | rfl | cases hcall
    · obtain ⟨expr, directives, hcontent⟩ := Body.exists_print htext
      rw [hcontent]
      rfl
  · rw [List.mem_singleton.1 hk]
    exact hd

theorem Plain.addStatement (h : a.Plain) {d : Draft} (hd : Formed d)
    (hitem : Body.IsItem d.content) : (a.addStatement d).Plain := by
  have hadd : ∀ (name : String) (key : PlaceholderKey) (calls : Nat), IsName name →
      Plain { a.flush with
        parts := .node d.mark (.placeholder name key) [d] :: a.flush.parts, calls } := by
    intro name key calls hname
    refine ⟨List.forall_mem_cons.2 ⟨formed_placeholder hd hname hitem, h.flush.1⟩,
      isPlain_placeholder h.flush.2 rfl, ?_, fun _ => rfl⟩
    intro _ content hcontent htext
    cases hcontent
    cases htext
  rw [Assembly.addStatement]
  split
  · exact hadd _ _ _ (isName_exprName (by decide) _)
  · exact hadd _ _ _ (by decide)

theorem Plain.addItem (h : a.Plain) (hsound : a.Sound) {item : Item}
    (hd : ∀ d, item = .statement d → Formed d ∧ Body.IsItem d.content)
    (hok : a.addItem item = .ok a') : a'.Plain := by
  cases item with
  | text chars line =>
    cases hok
    exact h.addText hsound line chars
  | statement d =>
    obtain ⟨hformed, hitem⟩ := hd d rfl
    rw [Assembly.addItem] at hok
    split at hok
    · cases hok
      exact h.addStatement hformed hitem
    · rename_i tag htag
      split at hok
      · cases hok
        exact ⟨h.formed, h.plain, fun hnone => (by cases hnone), fun _ => h.text (by rw [htag]; rfl)⟩
      · cases hok

theorem Plain.finish (h : a.Plain) {parts : List Draft} (hok : a.finish = .ok parts) :
    (∀ p ∈ parts, Formed p) ∧ IsPlain (parts.map Tree.content) := by
  obtain ⟨hformed, hplain⟩ := h.flush
  rw [Assembly.finish] at hok
  split at hok
  · cases hok
  · cases hok
    refine ⟨fun p hp => hformed p (List.mem_reverse.1 hp), ?_⟩
    rw [List.map_reverse]
    refine ⟨fun c hc => hplain.pieces c (List.mem_reverse.1 hc), List.isChain_reverse.2 ?_⟩
    exact hplain.apart.imp fun part next hnot hboth => hnot ⟨hboth.2, hboth.1⟩

end Assembly

/-- Parts that are assembled from prints and calls are plain. -/
theorem formed_of_assemble {before after : Nat} {items : List Item} {parts : List Draft}
    (hkeyed : ∀ d, .statement d ∈ items → Keyed d)
    (hitems : ∀ d, .statement d ∈ items → Formed d ∧ Body.IsItem d.content)
    (h : assemble before items = .ok (parts, after)) :
    (∀ p ∈ parts, Formed p) ∧ IsPlain (parts.map Tree.content) := by
  simp only [assemble, bind_eq_ok] at h
  obtain ⟨a, ha, parts', hparts', h⟩ := h
  cases h
  have hstart : Assembly.Sound { calls := before } ∧ Assembly.Plain { calls := before } :=
    ⟨⟨List.forall_mem_nil _, fun _ htag => (by cases htag)⟩,
      ⟨List.forall_mem_nil _, ⟨List.forall_mem_nil _, .nil⟩, fun _ _ hc => (by cases hc),
        fun _ => rfl⟩⟩
  have hplain : a.Sound ∧ a.Plain := by
    refine foldlM_keeps (P := fun a => a.Sound ∧ a.Plain)
      (fun item hitem b b' hb hok => ⟨?_, ?_⟩) hstart ha
    · exact hb.1.addItem (fun d hd => ⟨hkeyed d (hd ▸ hitem), (hitems d (hd ▸ hitem)).2⟩) hok
    · exact hb.2.addItem hb.1 (fun d hd => hitems d (hd ▸ hitem)) hok
  exact hplain.2.finish hparts'

/-! ### Named bodies -/

theorem form_rename (g : String → PlaceholderKey → String) (content : Content) :
    (rename g content).form = content.form := by
  cases content <;> rfl

theorem content_mapPlaceholder (g : String → PlaceholderKey → String) (part : Tree α) :
    (mapPlaceholder (rename g) part).content = rename g part.content := by
  obtain ⟨mark, content, children⟩ := part
  cases content <;> rfl

theorem mapPlaceholders_eq_map (f : Content → Content) (body : List (Tree α)) :
    mapPlaceholders f body = body.map (mapPlaceholder f) := by
  induction body with
  | nil => rfl
  | cons part rest ih => rw [mapPlaceholders, ih, List.map_cons]

theorem map_content_mapPlaceholders (g : String → PlaceholderKey → String) (body : List (Tree α)) :
    (mapPlaceholders (rename g) body).map Tree.content =
      (body.map Tree.content).map (rename g) := by
  rw [mapPlaceholders_eq_map, List.map_map, List.map_map]
  exact List.map_congr_left fun part _ => content_mapPlaceholder g part

/-- A node whose children's placeholders are renamed. -/
theorem formedAt_mapPlaceholders {g : String → PlaceholderKey → String} {mark : α}
    {content : Content} {children : List (Tree α)} (h : FormedAt (.node mark content children))
    (hcontent : rename g content = content) :
    FormedAt (.node mark content (mapPlaceholders (rename g) children)) := by
  refine ⟨fun k hk => ?_, h.named, ?_⟩
  · rw [Tree.children_node, mapPlaceholders_eq_map] at hk
    obtain ⟨part, hpart, rfl⟩ := List.mem_map.1 hk
    rw [content_mapPlaceholder, Tree.content_node, ← Content.holds_form, form_rename,
      Content.holds_form]
    exact h.shaped part hpart
  · have harranged := h.arranged
    rw [Tree.content_node, Tree.children_node] at harranged ⊢
    rwa [map_content_mapPlaceholders, ← hcontent, arranged_map (form_rename g)]

mutual

theorem formed_mapPlaceholder {g : String → PlaceholderKey → String}
    (hg : ∀ base key, IsName base → IsName (g base key)) :
    (part : Tree α) → Formed part → Formed (mapPlaceholder (rename g) part)
  | .node mark content children, h => by
    have hmap := formed_mapPlaceholders hg children fun k hk => h.child hk
    cases content with
    | placeholder name key =>
      refine Tree.each_node ⟨fun k hk => ?_, hg name key h.root.named, trivial⟩
        fun k hk => h.child hk
      rw [Tree.content_node, ← Content.holds_form, form_rename, Content.holds_form]
      exact h.root.shaped k hk
    | plural | select | case => exact Tree.each_node (formedAt_mapPlaceholders h.root rfl) hmap
    | _ => exact h

theorem formed_mapPlaceholders {g : String → PlaceholderKey → String}
    (hg : ∀ base key, IsName base → IsName (g base key)) :
    (body : List (Tree α)) → (∀ p ∈ body, Formed p) →
      ∀ p ∈ mapPlaceholders (rename g) body, Formed p
  | [], _ => fun _ hp => (nomatch hp)
  | part :: rest, h => by
    intro p hp
    rw [mapPlaceholders] at hp
    rcases List.mem_cons.1 hp with rfl | hp
    · exact formed_mapPlaceholder hg part (h part List.mem_cons_self)
    · exact formed_mapPlaceholders hg rest (fun q hq => h q (List.mem_cons_of_mem _ hq)) p hp

end

/-! ### What is read is formed -/

section Reads

variable {scope : Scope}

/-- What a draft in a role may be. -/
def fits : Role → Content → Bool
  | .statement, content => content.isStatement
  | .branch, .branch _ => true
  | .param, .valueParam _ _ | .param, .contentParam _ _ => true
  | .message, .msg _ _ _ => true
  | .choice, content => content.isChoice
  | .case, .case _ => true
  | _, _ => false

theorem fits_of_reads {role : Role} {d : Draft} (h : Reads scope role d) : fits role d.content := by
  cases h with
  | print line hcontent =>
    obtain ⟨expr, directives, rfl⟩ := Body.exists_print hcontent
    rfl
  | xid line hcontent =>
    obtain ⟨name, rfl⟩ := Body.exists_xid hcontent
    rfl
  | @call line content params hcontent =>
    have hcall := Body.isCall_of_isCall hcontent
    cases content <;> first | rfl | cases hcall
  | message line hcontent | choiceMessage line hcontent =>
    obtain ⟨desc, meaning, hidden, rfl⟩ := Body.exists_msg hcontent
    rfl
  | choice line hcontent => exact Body.isChoice_of_isChoice hcontent
  | _ => rfl

theorem holds_of_isPiece {content child : Content} (hchild : IsPiece child)
    (hcontent : (∃ desc meaning hidden, content = .msg desc meaning hidden) ∨
      ∃ label, content = .case label) : content.holds child := by
  rcases hchild with ⟨text, rfl, -⟩ | ⟨name, key, rfl⟩ <;>
    rcases hcontent with ⟨desc, meaning, hidden, rfl⟩ | ⟨label, rfl⟩ <;> rfl

theorem named_of_isChoice {command : Body.Keyword} {content : Content}
    (h : Body.IsChoice command content) : Named content := by
  obtain ⟨text, ⟨-, h⟩ | ⟨-, h⟩⟩ := h
  · simp only [Body.plural, bind_eq_ok] at h
    obtain ⟨cmd, -, h⟩ := h
    split at h
    · cases h
    · simp only [bind_eq_ok] at h
      obtain ⟨offset, -, h⟩ := h
      cases h
      exact isName_exprName (by decide) _
  · rw [Body.select] at h
    split at h
    · cases h
    · cases h
      exact isName_exprName (by decide) _

theorem map_content_nameAll_singleton {choice : Draft} (h : choice.content.isChoice) :
    (nameAll [choice]).map Tree.content = [choice.content] := by
  rw [nameAll_eq, map_content_mapPlaceholders, List.map_singleton, List.map_singleton]
  cases hcontent : choice.content <;> rw [hcontent] at h <;> first | rfl | cases h

theorem formed_nameAll {body : List (Tree α)} (h : ∀ p ∈ body, Formed p) :
    ∀ p ∈ nameAll body, Formed p := by
  rw [nameAll_eq]
  exact formed_mapPlaceholders (fun base key hbase => isName_finalName hbase key) body h

theorem isPlain_nameAll {body : List (Tree α)} (h : IsPlain (body.map Tree.content)) :
    IsPlain ((nameAll body).map Tree.content) := by
  rw [nameAll_eq, map_content_mapPlaceholders, ← isPlain_form, List.map_map,
    show Content.form ∘ rename _ = Content.form from funext (form_rename _), isPlain_form]
  exact h

/-- A node whose children fit it, by their contents. -/
theorem formed_of_contents {mark : α} {content : Content} {children : List (Tree α)}
    (hholds : ∀ c ∈ children.map Tree.content, content.holds c) (hnamed : Named content)
    (harranged : Arranged content (children.map Tree.content))
    (hchildren : ∀ k ∈ children, Formed k) : Formed (.node mark content children) :=
  Tree.each_node ⟨fun _ hk => hholds _ (List.mem_map_of_mem hk), hnamed, harranged⟩ hchildren

/-- A node whose children are drafts in a role that its content may have. -/
theorem formed_of_fits {role : Role} {line : Nat} {content : Content} {children : List Draft}
    (hreads : ∀ k ∈ children, Reads scope role k) (hholds : ∀ c, fits role c → content.holds c)
    (hnamed : Named content) (harranged : Arranged content (children.map Tree.content))
    (hchildren : ∀ k ∈ children, Formed k) : Formed (.node line content children) := by
  refine formed_of_contents (List.forall_mem_map.2 fun k hk => ?_) hnamed harranged hchildren
  exact hholds _ (fits_of_reads (hreads k hk))

theorem formed_of_reads {role : Role} {d : Draft} (h : Reads scope role d) : Formed d := by
  induction h with
  | text line chars hchars => exact formed_of_eq_nil rfl trivial trivial
  | print line hcontent =>
    obtain ⟨expr, directives, rfl⟩ := Body.exists_print hcontent
    exact formed_of_eq_nil rfl trivial trivial
  | xid line hcontent =>
    obtain ⟨name, rfl⟩ := Body.exists_xid hcontent
    exact formed_of_eq_nil rfl trivial trivial
  | conditional line hbranches ih =>
    refine formed_of_fits hbranches (fun c hc => ?_) trivial trivial ih
    cases c <;> first | rfl | cases hc
  | branch line condition hbody ih => exact formed_of_fits hbody (fun c hc => hc) trivial trivial ih
  | @call line content params hcontent hparams hkeys ih =>
    have hcall := Body.isCall_of_isCall hcontent
    cases content with
    | call target data =>
      refine formed_of_fits hparams (fun c hc => ?_) trivial trivial ih
      cases c <;> first | rfl | cases hc
    | _ => cases hcall
  | valueParam line hparam => exact formed_of_eq_nil rfl trivial trivial
  | contentParam line hparam hbody ih => exact formed_of_fits hbody (fun c hc => hc) trivial trivial ih
  | group line hmessages hcount ih =>
    refine formed_of_fits hmessages (fun c hc => ?_) trivial trivial ih
    cases c <;> first | rfl | cases hc
  | message line hcontent hitems hkinds hparts ih =>
    obtain ⟨desc, meaning, hidden, rfl⟩ := Body.exists_msg hcontent
    obtain ⟨hformed, hplain⟩ := formed_of_assemble (fun d hd => keyed_of_reads (hitems d hd))
      (fun d hd => ⟨ih d hd, hkinds d hd⟩) hparts
    have hnamed := isPlain_nameAll hplain
    refine formed_of_contents (fun c hc => ?_) trivial (.inl hnamed) (formed_nameAll hformed)
    exact holds_of_isPiece (hnamed.pieces c hc) (.inl ⟨desc, meaning, hidden, rfl⟩)
  | @choiceMessage line content choice hcontent hchoice ih =>
    obtain ⟨desc, meaning, hidden, rfl⟩ := Body.exists_msg hcontent
    have hfits : choice.content.isChoice := fits_of_reads hchoice
    have hcontents := map_content_nameAll_singleton hfits
    refine formed_of_contents (fun c hc => ?_) trivial (.inr ⟨_, hcontents, hfits⟩)
      (formed_nameAll fun p hp => by rwa [List.mem_singleton.1 hp])
    rw [hcontents, List.mem_singleton] at hc
    rw [hc]
    cases hkind : choice.content <;> rw [hkind] at hfits <;> first | rfl | cases hfits
  | @choice line command content labelled default hcontent hcases hlabelled hdefault ih =>
    have hnamed := named_of_isChoice hcontent
    have hchoice := Body.isChoice_of_isChoice hcontent
    have hlast : DefaultLast ((labelled ++ [default]).map Tree.content) := by
      refine ⟨labelled.map Tree.content, ?_, List.forall_mem_map.2 fun c hc => ?_⟩
      · rw [List.map_append, List.map_singleton, hdefault]
      · have hfits := fits_of_reads (hcases c (List.mem_append_left _ hc))
        have hne := hlabelled c hc
        rw [Body.IsLabelled] at hne
        cases hcase : c.content with
        | case label =>
          rw [hcase] at hne
          exact ⟨label, rfl, fun heq => hne (by rw [heq])⟩
        | _ =>
          rw [hcase] at hfits
          cases hfits
    have hholds : ∀ c, fits .case c → content.holds c := by
      intro c hc
      cases content with
      | plural | select => cases c <;> first | rfl | cases hc
      | _ => cases hchoice
    refine formed_of_fits hcases hholds hnamed ?_ ih
    cases content with
    | plural | select => exact hlast
    | _ => cases hchoice
  | case line hlabel hitems hkinds hparts ih =>
    obtain ⟨hformed, hplain⟩ := formed_of_assemble (fun d hd => keyed_of_reads (hitems d hd))
      (fun d hd => ⟨ih d hd, hkinds d hd⟩) hparts
    refine formed_of_contents (fun c hc => ?_) trivial hplain hformed
    exact holds_of_isPiece (hplain.pieces c hc) (.inr ⟨_, rfl⟩)

end Reads

/-! ### What is placed is formed -/

/-- The statements of a placed body are well formed. -/
theorem formed_of_isPlacedBody {body : List Node} (h : IsPlacedBody body) :
    ∀ n ∈ body, Formed n ∧ n.content.isStatement := by
  obtain ⟨-, loc, parent, next, ⟨scope, tokens, endLine, drafts, line, hread, rfl⟩, rfl⟩ := h
  have hdrafts : ∀ d ∈ drafts, Reads scope .statement d := Body.read_reads hread
  have hgists : Tree.gistAll drafts = Tree.gistAll
      (Tree.linkAll loc parent (Tree.numberAll next (Tree.mapAll (· + line) drafts)).1) := by
    rw [Tree.gistAll_placed, Tree.gistAll_mapAll]
  intro n hn
  refine ⟨?_, ?_⟩
  · exact Tree.each_of_gistAll_eq formedAt_gist formedAt_gist hgists
      (fun d hd => formed_of_reads (hdrafts d hd)) n hn
  · have hmem : n.gist ∈ drafts.map Tree.gist := by
      rw [← Tree.gistAll_eq_map, hgists, Tree.gistAll_eq_map]
      exact List.mem_map_of_mem hn
    obtain ⟨d, hd, hgist⟩ := List.mem_map.1 hmem
    have hcontent : n.content.form = d.content.form := by
      rw [← Content.form_gist, ← Tree.content_gist, ← hgist, Tree.content_gist, Content.form_gist]
    rw [← Content.isStatement_form, hcontent, Content.isStatement_form]
    exact fits_of_reads (hdrafts d hd)

end Stencil.Message
