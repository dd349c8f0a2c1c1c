/-
  Stencil/Proofs/Message/SharedKeys.lean
  ======================================
  **Placeholders that share a key.**

  In a file that is read every placeholder tells its key.  Two placeholders of a
  message with one key hold the same, line numbers and identities aside, just in
  case they agree in what the key leaves out: the directives of a print, and the
  pieces of a tag.  A call shares its key with no other.
-/
import Stencil.Proofs.Body.Reader
import Stencil.Proofs.Compiler.Bodies
import Stencil.Proofs.Message.Assembly

namespace Stencil.Message

open Body (Reads Role)

/-! ### What is read is keyed -/

section Reads

variable {scope : Scope}

theorem keyed_node {α : Type} {mark : α} {content : Content} {children : List (Tree α)}
    (hat : KeyedAt (.node mark content children : Tree α)) (hchildren : ∀ k ∈ children, Keyed k) :
    Keyed (.node mark content children) := keyed_iff.2 ⟨hat, hchildren⟩

/-- Drafts that are made by the rules are keyed, whatever their role. -/
theorem keyed_of_reads {role : Role} {d : Draft} (h : Reads scope role d) : Keyed d := by
  induction h with
  | text line chars hchars => exact keyed_leaf trivial
  | print line hcontent =>
    obtain ⟨expr, directives, rfl⟩ := Body.exists_print hcontent
    exact keyed_leaf ⟨rfl, _, _, hcontent⟩
  | xid line hcontent =>
    obtain ⟨name, rfl⟩ := Body.exists_xid hcontent
    exact keyed_leaf trivial
  | conditional line hbranches ih => exact keyed_node trivial ih
  | branch line condition hbody ih => exact keyed_node trivial ih
  | @call line content params hcontent hparams hkeys ih =>
    have hcall := Body.isCall_of_isCall hcontent
    cases content with
    | call target data => exact keyed_node trivial ih
    | _ => cases hcall
  | valueParam line hparam => exact keyed_leaf trivial
  | contentParam line hparam hbody ih => exact keyed_node trivial ih
  | group line hmessages hcount ih => exact keyed_node trivial ih
  | message line hcontent hitems hkinds hparts ih =>
    obtain ⟨desc, meaning, hidden, rfl⟩ := Body.exists_msg hcontent
    refine keyed_node trivial (keyed_nameAll (keyed_of_assemble ?_ hparts))
    exact fun d hd => ⟨ih d hd, hkinds d hd⟩
  | choiceMessage line hcontent hchoice ih =>
    obtain ⟨desc, meaning, hidden, rfl⟩ := Body.exists_msg hcontent
    refine keyed_node trivial (keyed_nameAll fun p hp => ?_)
    rw [List.mem_singleton] at hp
    rwa [hp]
  | @choice line command content labelled default hcontent hcases hlabelled hdefault ih =>
    have hchoice := Body.isChoice_of_isChoice hcontent
    cases content with
    | plural expr offset name => exact keyed_node trivial ih
    | select expr name => exact keyed_node trivial ih
    | _ => cases hchoice
  | case line hlabel hitems hkinds hparts ih =>
    refine keyed_node trivial (keyed_of_assemble ?_ hparts)
    exact fun d hd => ⟨ih d hd, hkinds d hd⟩

end Reads

/-! ### What is placed is keyed -/

theorem keyed_of_gistAll_eq {α β : Type} {ts : List (Tree α)} {ts' : List (Tree β)}
    (h : Tree.gistAll ts = Tree.gistAll ts') (hkeyed : ∀ t ∈ ts, Keyed t) :
    ∀ t ∈ ts', Keyed t := by
  intro t ht
  have hmem : t.gist ∈ ts.map Tree.gist := by
    rw [← Tree.gistAll_eq_map, h, Tree.gistAll_eq_map]
    exact List.mem_map_of_mem ht
  obtain ⟨s, hs, hgist⟩ := List.mem_map.1 hmem
  rw [← keyed_gist, ← hgist, keyed_gist]
  exact hkeyed s hs

theorem keyed_of_isPlacedBody {body : List Node} (h : IsPlacedBody body) : ∀ n ∈ body, Keyed n := by
  obtain ⟨-, loc, parent, next, ⟨scope, tokens, endLine, drafts, line, hread, rfl⟩, rfl⟩ := h
  have hdrafts : ∀ d ∈ drafts, Keyed d := by
    intro d hd
    exact keyed_of_reads (Body.read_reads hread d hd)
  apply keyed_of_gistAll_eq _ hdrafts
  rw [Tree.gistAll_placed, Tree.gistAll_mapAll]

theorem keyed_of_mem_preorderAll {body : List Node} (h : IsPlacedBody body) {n : Node}
    (hn : n ∈ Tree.preorderAll body) : Keyed n := by
  obtain ⟨t, ht, hn⟩ := Tree.mem_preorderAll.1 hn
  exact fun k hk => keyed_of_isPlacedBody h t ht k (Tree.mem_preorder_trans hk t hn)

/-! ### Placeholders of one key -/

/-- The key of a placeholder. -/
def placeholderKey? (part : Node) : Option PlaceholderKey :=
  match part.content with
  | .placeholder _ key => some key
  | _ => none

mutual

theorem mem_preorder_of_mem_partPlaceholders {α : Type} {p : Tree α} :
    (part : Tree α) → p ∈ partPlaceholders part → p ∈ part.preorder
  | .node mark content children, hp => by
    have hchildren := mem_preorderAll_of_mem_placeholders (p := p) children
    cases content with
    | placeholder name key =>
      rw [partPlaceholders, List.mem_singleton] at hp
      exact Tree.mem_preorder_iff.2 (.inl hp)
    | plural | select | case =>
      rw [partPlaceholders] at hp
      exact Tree.mem_preorder_iff.2 (.inr (hchildren hp))
    | _ => cases hp

theorem mem_preorderAll_of_mem_placeholders {α : Type} {p : Tree α} :
    (body : List (Tree α)) → p ∈ placeholders body → p ∈ Tree.preorderAll body
  | [], hp => (nomatch hp)
  | part :: rest, hp => by
    rw [placeholders, List.mem_append] at hp
    rw [Tree.preorderAll, List.mem_append]
    rcases hp with hp | hp
    · exact .inl (mem_preorder_of_mem_partPlaceholders part hp)
    · exact .inr (mem_preorderAll_of_mem_placeholders rest hp)

end

theorem exists_key_of_mem_placeholders {body : List Node} {p : Node} (hp : p ∈ placeholders body) :
    ∃ name key, p.content = .placeholder name key := by
  have hlabel := isSome_label?_of_mem body p hp
  rw [label?] at hlabel
  split at hlabel
  · rename_i name key hcontent
    exact ⟨name, key, hcontent⟩
  · cases hlabel

/-- An own key belongs to one call. -/
theorem children_eq_of_own {body : List Node} (h : IsPlacedBody body) {p q : Node}
    (hp : p ∈ Tree.preorderAll body) (hq : q ∈ Tree.preorderAll body) {name name' : String}
    {key : Nat} (hcontent : p.content = .placeholder name (.own key))
    (hcontent' : q.content = .placeholder name' (.own key)) : p.children = q.children := by
  have hat := (keyed_iff.1 (keyed_of_mem_preorderAll h hp)).1
  have hat' := (keyed_iff.1 (keyed_of_mem_preorderAll h hq)).1
  rw [KeyedAt, hcontent] at hat
  rw [KeyedAt, hcontent'] at hat'
  obtain ⟨call, hcall, -⟩ := hat
  obtain ⟨call', hcall', -⟩ := hat'
  -- the key is the identity of the call, which no other node has
  have hid : call.id = call'.id := by
    rw [← h.claimsCall hp _ _ _ _ hcontent hcall,
      ← h.claimsCall hq _ _ _ _ hcontent' hcall']
  have hmem : call ∈ Tree.preorderAll body := by
    refine Tree.mem_preorderAll_trans (Tree.mem_preorder_of_mem_children ?_) body hp
    rw [hcall]
    exact List.mem_cons_self
  have hmem' : call' ∈ Tree.preorderAll body := by
    refine Tree.mem_preorderAll_trans (Tree.mem_preorder_of_mem_children ?_) body hq
    rw [hcall']
    exact List.mem_cons_self
  rw [hcall, hcall', h.eq_of_id_eq hmem hmem' hid]

theorem gists_eq_iff_of_shared {p q : Node} (hp : Keyed p) (hq : Keyed q) {name name' : String}
    {text : String} (hcontent : p.content = .placeholder name (.shared text))
    (hcontent' : q.content = .placeholder name' (.shared text)) :
    p.children.map Tree.gist = q.children.map Tree.gist ↔
      p.children.map undisclosed = q.children.map undisclosed := by
  obtain ⟨hat, hchildren⟩ := keyed_iff.1 hp
  obtain ⟨hat', hchildren'⟩ := keyed_iff.1 hq
  rw [KeyedAt, hcontent] at hat
  rw [KeyedAt, hcontent'] at hat'
  obtain ⟨inside, hinside, hkey⟩ := hat
  obtain ⟨inside', hinside', hkey'⟩ := hat'
  rw [hinside] at hchildren ⊢
  rw [hinside'] at hchildren' ⊢
  have hiff := gist_eq_iff (hchildren inside List.mem_cons_self)
    (hchildren' inside' List.mem_cons_self) hkey hkey'
  simp only [List.map_singleton, List.cons.injEq, and_true]
  exact hiff

/-- In a file that is read, two placeholders of a message with one key hold the
    same just in case they agree in what the key leaves out. -/
theorem gists_eq_iff_undisclosed_eq {types : TypeRegistry} {source : Source} {file : SourceFile Mark}
    {next : NodeId} (hparse : (Compiler.parseFile types source).1 = .ok (file, next))
    {t : Template Mark} (ht : t ∈ file.templates) {msg : Node} (hmsg : msg ∈ Tree.preorderAll t.body)
    {p q : Node} (hp : p ∈ placeholders msg.children) (hq : q ∈ placeholders msg.children)
    (hkey : placeholderKey? p = placeholderKey? q) :
    p.children.map Tree.gist = q.children.map Tree.gist ↔
      p.children.map undisclosed = q.children.map undisclosed := by
  have hbody := Compiler.isPlacedBody_of_parseFile hparse t ht
  have hmem : ∀ {n : Node}, n ∈ placeholders msg.children → n ∈ Tree.preorderAll t.body := by
    intro n hn
    refine Tree.mem_preorderAll_trans (Tree.mem_preorder_iff.2 (.inr ?_)) t.body hmsg
    exact mem_preorderAll_of_mem_placeholders msg.children hn
  obtain ⟨name, key, hcontent⟩ := exists_key_of_mem_placeholders hp
  obtain ⟨name', key', hcontent'⟩ := exists_key_of_mem_placeholders hq
  rw [placeholderKey?, placeholderKey?, hcontent, hcontent', Option.some.injEq] at hkey
  subst hkey
  cases key with
  | shared text =>
    exact gists_eq_iff_of_shared (keyed_of_mem_preorderAll hbody (hmem hp))
      (keyed_of_mem_preorderAll hbody (hmem hq)) hcontent hcontent'
  | own call =>
    rw [children_eq_of_own hbody (hmem hp) (hmem hq) hcontent hcontent']
    exact iff_of_true rfl rfl

/-- A message that prints one value twice, cut to different lengths. -/
def truncations : Source :=
  { path := "t.soy"
    text := "\x7bnamespace n\x7d\n\x7btemplate .t\x7d\n" ++
      "\x7bmsg desc=\"\"\x7d\x7b$a|truncate:5\x7d\x7b$a|truncate:8\x7d\x7b/msg\x7d\n" ++
      "\x7b/template\x7d\n" }

/-- Some message of a template has two placeholders with one key that differ in
    what the key leaves out. -/
def hasClash (t : Template Mark) : Bool :=
  (Tree.preorderAll t.body).any fun msg =>
    (placeholders msg.children).any fun p => (placeholders msg.children).any fun q =>
      decide (placeholderKey? p = placeholderKey? q) &&
        decide (p.children.map undisclosed ≠ q.children.map undisclosed)

theorem exists_of_hasClash {t : Template Mark} (h : hasClash t) :
    ∃ msg ∈ Tree.preorderAll t.body, ∃ p ∈ placeholders msg.children,
      ∃ q ∈ placeholders msg.children, placeholderKey? p = placeholderKey? q ∧
        p.children.map undisclosed ≠ q.children.map undisclosed := by
  simpa [hasClash, List.any_eq_true] using h

theorem exists_hasClash_truncations : ∃ file next,
    (Compiler.parseFile {} truncations).1 = .ok (file, next) ∧ ∃ t ∈ file.templates, hasClash t := by
  have hany : (match (Compiler.parseFile {} truncations).1 with
      | .ok (file, _) => file.templates.any hasClash
      | .error _ => false) = true := by decide +kernel
  split at hany
  · rename_i file next hparse
    exact ⟨file, next, hparse, List.any_eq_true.1 hany⟩
  · cases hany

/-- The two prints have one key, and they are not the same. -/
theorem gists_eq_iff_undisclosed_eq_truncations : ∃ file next t msg p q,
    (Compiler.parseFile {} truncations).1 = .ok (file, next) ∧ t ∈ file.templates ∧
      msg ∈ Tree.preorderAll t.body ∧ p ∈ placeholders msg.children ∧
      q ∈ placeholders msg.children ∧ placeholderKey? p = placeholderKey? q ∧
      (p.children.map Tree.gist = q.children.map Tree.gist ↔
        p.children.map undisclosed = q.children.map undisclosed) ∧
      p.children.map undisclosed ≠ q.children.map undisclosed := by
  obtain ⟨file, next, hparse, t, ht, hclash⟩ := exists_hasClash_truncations
  obtain ⟨msg, hmsg, p, hp, q, hq, hkey, hne⟩ := exists_of_hasClash hclash
  refine ⟨file, next, t, msg, p, q, hparse, ht, hmsg, hp, hq, hkey, ?_, hne⟩
  exact gists_eq_iff_undisclosed_eq hparse ht hmsg hp hq hkey

end Stencil.Message
