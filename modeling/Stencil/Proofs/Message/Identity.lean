/-
  Stencil/Proofs/Message/Identity.lean
  ====================================
  **Identities of messages and where the messages stand.**

  The identity of a message depends on its content text and its meaning.  The
  file, its declarations, what is around the message, its other attributes and
  the identities of nodes do not matter.
-/
import Stencil.Proofs.Body.Contents
import Stencil.Proofs.Message.Bare
import Stencil.Proofs.Message.Outline
import Stencil.Proofs.Tree.View

namespace Stencil

/-! ### Placed messages -/

theorem msgsAre_bare {α : Type} {P : Tree Unit → Prop} (t : Tree α) :
    MsgsAre P t.bare ↔ MsgsAre (fun m => P m.bare) t := by
  apply Tree.each_bare
  intro n
  rw [Tree.content_bare, Tree.children_bare, Content.isMsgGroup_bare, List.forall_mem_map]

/-- What is true of the messages of the drafts is true of those that are placed. -/
theorem msgsAre_placed {P : Tree Unit → Prop} {loc : Nat → Location} {parent : Option NodeId}
    {next : NodeId} {drafts : List Draft} (h : ∀ d ∈ drafts, MsgsAre P d.bare) :
    ∀ n ∈ Tree.linkAll loc parent (Tree.numberAll next drafts).1, MsgsAre (fun m => P m.bare) n := by
  intro n hn
  have hbare : (Tree.linkAll loc parent (Tree.numberAll next drafts).1).map Tree.bare =
      drafts.map Tree.bare := by
    rw [← Tree.map_bare_map_view Mark.loc, Tree.map_view_placed, Tree.map_bare_map_view]
  have hmem : n.bare ∈ drafts.map Tree.bare := hbare ▸ List.mem_map_of_mem hn
  obtain ⟨d, hd, hnd⟩ := List.mem_map.1 hmem
  exact (msgsAre_bare n).1 (hnd ▸ h d hd)

/-! ### Messages of a source -/

namespace Source

/-- A message of the file that a source is read as, the identities of the file
    from any number on. -/
def HasMessage (source : Source) (msg : Node) : Prop :=
  ∃ draft next, Gives (File.read source.path source.text.toList) draft ∧
    ∃ t ∈ (SourceFile.place next draft).1.templates,
      ∃ group ∈ Tree.msgGroups t.body, msg ∈ group.children

/-- A message of a source, its identities and places left out, and its content
    text. -/
def Writes (source : Source) (text : List Char) (msg : Tree Unit) : Prop :=
  ∃ raw line scope draft, ⟨.template raw, line⟩ ∈ (File.scan source.text.toList).1 ∧
    Body.IsContent scope raw.body text draft ∧ msg = draft.bare

variable {source source' : Source} {msg msg' : Node}

theorem exists_writes_of_read {raw : RawTemplate} {line : Nat}
    (hitem : ⟨.template raw, line⟩ ∈ (File.scan source.text.toList).1) {scope : Scope}
    {doc : Option (List Char)} {t : Template Nat}
    (h : Gives (RawTemplate.read scope { raw with doc }) t) :
    ∀ d ∈ t.body, MsgsAre (fun m => ∃ text, source.Writes text m) d.bare := by
  obtain ⟨scanned, body, hscan, hread, hbody⟩ := RawTemplate.exists_body_of_gives_read h
  rw [hbody, Tree.mapAll_eq_map, List.forall_mem_map]
  intro d hd
  rw [← Tree.bare_view id, Tree.view_map, Tree.bare_view, msgsAre_bare]
  refine (Body.exists_isContent_of_read hscan hread d hd).imp fun n hn hgroup m hm => ?_
  obtain ⟨text, hcontent⟩ := hn hgroup m hm
  exact ⟨text, raw, line, scope, m, hitem, hcontent, rfl⟩

/-- Every message of a source has a content text. -/
theorem HasMessage.exists_writes (h : source.HasMessage msg) :
    ∃ text, source.Writes text msg.bare := by
  obtain ⟨draft, next, hread, t, ht, group, hgroup, hmsg⟩ := h
  have hwrites : ∀ d ∈ draft.templates, ∀ n ∈ d.body,
      MsgsAre (fun m => ∃ text, source.Writes text m) n.bare :=
    File.forall_of_gives_read (fun raw line hitem scope doc t h => exists_writes_of_read hitem h)
      hread
  obtain ⟨d, hd, start, rfl⟩ := Template.exists_place_of_mem_placeAll t ht
  have hbody : IsPlacedBody (Template.place draft.info.path next start d).1.body :=
    ⟨d.body, _, _, _, File.isBody_of_gives_read hread d hd, rfl⟩
  have hformed := Message.formed_of_isPlacedBody hbody
  rw [Tree.msgGroups_eq_groups (fun n hn => (hformed n hn).1.shaped) fun n hn => (hformed n hn).2,
    Tree.mem_groups, Tree.mem_preorderAll] at hgroup
  -- a message of the placed file stands bare in its draft
  obtain ⟨⟨n, hn, hgroup⟩, hcontent⟩ := hgroup
  exact msgsAre_placed (hwrites d hd) n hn group hgroup hcontent msg hmsg

theorem Writes.canonicalBody_eq_of_sameTokens {text text' : List Char}
    (h : source.Writes text msg.bare) (h' : source'.Writes text' msg'.bare)
    (htexts : Body.SameTokens text text') :
    Message.canonicalBody msg.children = Message.canonicalBody msg'.children := by
  obtain ⟨raw, line, scope, draft, -, hcontent, hbare⟩ := h
  obtain ⟨raw', line', scope', draft', -, hcontent', hbare'⟩ := h'
  have hbody : ∀ {n : Node} {d : Draft}, n.bare = d.bare →
      Message.canonicalBody n.children = Message.canonicalBody d.children := by
    intro n d h
    rw [← Message.canonicalBody_map_bare, ← Message.canonicalBody_map_bare d.children,
      (Tree.bare_eq_iff.1 h).2]
  rw [hbody hbare, hbody hbare', hcontent.canonicalBody_eq hcontent' htexts]

theorem Writes.canonicalBody_eq {text : List Char} (h : source.Writes text msg.bare)
    (h' : source'.Writes text msg'.bare) :
    Message.canonicalBody msg.children = Message.canonicalBody msg'.children :=
  h.canonicalBody_eq_of_sameTokens h' (Body.sameTokens_self text)

/-- **The identity of a message stays when what is around it changes.**  Every
    message of a source that is read has a content text, and two messages with one
    content text and one meaning have one identity. -/
theorem fingerprint_eq_of_writes (h : source.HasMessage msg) (h' : source'.HasMessage msg') :
    (∃ text, source.Writes text msg.bare) ∧ (∃ text, source'.Writes text msg'.bare) ∧
      ∀ text, source.Writes text msg.bare → source'.Writes text msg'.bare →
        Message.meaning? msg = Message.meaning? msg' →
        Message.fingerprint msg = Message.fingerprint msg' := by
  refine ⟨h.exists_writes, h'.exists_writes, fun text htext htext' hmeaning => ?_⟩
  rw [Message.fingerprint, Message.fingerprint, Message.canonical, Message.canonical, hmeaning,
    htext.canonicalBody_eq htext']

end Source

/-- The messages of a file set that is read are messages of its sources. -/
theorem Compiler.exists_hasMessage_of_parse {c : Compiler} {sources : List Source} {set : FileSet}
    (hparse : (c.parse sources).1 = .ok set) {msg : Node} (hmsg : msg ∈ set.messages) :
    ∃ source ∈ sources, source.HasMessage msg := by
  obtain ⟨drafts, rfl, hdrafts⟩ := exists_sources_of_parse hparse
  obtain ⟨group, hgroup, hmsg⟩ := List.mem_flatMap.1 hmsg
  obtain ⟨t, ht, hgroup⟩ := List.mem_flatMap.1 hgroup
  obtain ⟨file, hfile, ht⟩ := List.mem_flatMap.1 ht
  obtain ⟨draft, hdraft, next, rfl⟩ := FileSet.exists_place_of_mem_files hfile
  obtain ⟨source, hsource, hread⟩ := hdrafts draft hdraft
  exact ⟨source, hsource, draft, next, hread, t, ht, group, hgroup, hmsg⟩

/-! ### A message in two files -/

namespace Greeting

open Body (MsgSpan Placed)

def text : List Char := "<b>\x7b$n\x7d</b>\x7bcall .u /\x7d".toList

/-- The tokens of the text. -/
def tokens : List Placed :=
  [⟨.text "<b>".toList, 0⟩, ⟨.command .expression "$n".toList false, 0⟩,
   ⟨.text "</b>".toList, 0⟩, ⟨.command .call ".u".toList true, 0⟩]

/-- The template with the text between two others. -/
def template (before after : String) (line : Nat) : RawTemplate where
  isDelegate := false
  text := ".t".toList
  body := before.toList ++ text ++ '\x7b' :: after.toList
  doc := none
  line

def alone : MsgSpan where
  before := []
  opening := ⟨.command .msg "meaning=\"m\" desc=\"x\"".toList false, 0⟩
  inner := tokens
  closing := ⟨.endTag "msg", 0⟩
  after := []
  opens := .inl rfl
  nested := rfl
  closes := rfl

def beforeAlone : String := "\x7bmsg meaning=\"m\" desc=\"x\"\x7d"

def aloneTemplate : RawTemplate := template beforeAlone "/msg\x7d" 2

def aloneSource : Source where
  path := "a.soy"
  text := "\x7bnamespace a\x7d\n\x7btemplate .t\x7d" ++ beforeAlone ++
    "<b>\x7b$n\x7d</b>\x7bcall .u /\x7d\x7b/msg\x7d\x7b/template\x7d"

theorem aloneSource_writes : ∃ set, (Compiler.parse {} [aloneSource]).1 = .ok set ∧
    ∃ msg ∈ set.messages, msg.content = .msg (some "x") (some "m") false ∧
      aloneSource.Writes text msg.bare := by
  let scope : Scope := ⟨"a", none, .strict, []⟩
  have hcheck : (Compiler.parse {} [aloneSource]).1.toOption.any fun set =>
      ⟨.template aloneTemplate, 2⟩ ∈ (File.scan aloneSource.text.toList).1 ∧
      set.messages.any fun msg => msg.content = .msg (some "x") (some "m") false ∧
        (alone.message? scope).any fun d => msg.bare = d.bare := by
    decide +kernel
  obtain ⟨set, hparse, h⟩ := any_toOption.1 hcheck
  obtain ⟨hitem, h⟩ := of_decide_eq_true h
  obtain ⟨msg, hmsg, h⟩ := List.any_eq_true.1 h
  obtain ⟨hcontent, h⟩ := of_decide_eq_true h
  obtain ⟨draft, hdraft, h⟩ := (Option.any_eq_true _ _).1 h
  have hspells : alone.Spells [] aloneTemplate.body text := by
    refine ⟨beforeAlone.toList, "/msg\x7d".toList,
      { boundary := false, tokens := [alone.opening] }, 0, rfl, ?_, ⟨rfl, rfl, rfl⟩, rfl, ?_⟩
    all_goals decide +kernel
  have hcontent' : Body.IsContent scope aloneTemplate.body text draft :=
    ⟨alone, [], 0, by decide +kernel, by decide +kernel, hspells,
      MsgSpan.gives_iff_message?.2 hdraft⟩
  exact ⟨set, hparse, msg, hmsg, hcontent, aloneTemplate, 2, scope, draft, hitem, hcontent',
    of_decide_eq_true h⟩

/-- The message in the place of another one, in a condition, after a call. -/
def moved : MsgSpan where
  before :=
    [⟨.command .call ".u".toList true, 0⟩, ⟨.command .ifTag "$n".toList false, 0⟩,
     ⟨.command .msg "desc=\"y\"".toList false, 0⟩, ⟨.text "Old".toList, 0⟩]
  opening := ⟨.command .fallbackmsg "desc=\"z\" meaning=\"m\" hidden=\"true\"".toList false, 0⟩
  inner := tokens
  closing := ⟨.endTag "msg", 0⟩
  after := [⟨.endTag "if", 0⟩]
  opens := .inr rfl
  nested := rfl
  closes := rfl

def beforeMoved : String :=
  "\x7bcall .u /\x7d\x7bif $n\x7d\x7bmsg desc=\"y\"\x7dOld" ++
    "\x7bfallbackmsg desc=\"z\" meaning=\"m\" hidden=\"true\"\x7d"

def movedTemplate : RawTemplate := template beforeMoved "/msg\x7d\x7b/if\x7d" 3

def movedSource : Source where
  path := "b.soy"
  text := "\x7bnamespace b\x7d\n\x7balias c.d\x7d\n\x7btemplate .t\x7d" ++ beforeMoved ++
    "<b>\x7b$n\x7d</b>\x7bcall .u /\x7d\x7b/msg\x7d\x7b/if\x7d\x7b/template\x7d"

theorem movedSource_writes : ∃ set, (Compiler.parse {} [movedSource]).1 = .ok set ∧
    ∃ msg ∈ set.messages, msg.content = .msg (some "z") (some "m") true ∧
      movedSource.Writes text msg.bare := by
  let scope : Scope := ⟨"b", none, .strict, []⟩
  have hcheck : (Compiler.parse {} [movedSource]).1.toOption.any fun set =>
      ⟨.template movedTemplate, 3⟩ ∈ (File.scan movedSource.text.toList).1 ∧
      set.messages.any fun msg => msg.content = .msg (some "z") (some "m") true ∧
        (moved.message? scope).any fun d => msg.bare = d.bare := by
    decide +kernel
  obtain ⟨set, hparse, h⟩ := any_toOption.1 hcheck
  obtain ⟨hitem, h⟩ := of_decide_eq_true h
  obtain ⟨msg, hmsg, h⟩ := List.any_eq_true.1 h
  obtain ⟨hcontent, h⟩ := of_decide_eq_true h
  obtain ⟨draft, hdraft, h⟩ := (Option.any_eq_true _ _).1 h
  have hspells : moved.Spells [] movedTemplate.body text := by
    refine ⟨beforeMoved.toList, "/msg\x7d\x7b/if\x7d".toList,
      { boundary := false, tokens := moved.opening :: moved.before.reverse }, 0, rfl, ?_,
      ⟨rfl, rfl, rfl⟩, rfl, ?_⟩
    all_goals decide +kernel
  have hcontent' : Body.IsContent scope movedTemplate.body text draft :=
    ⟨moved, [], 0, by decide +kernel, by decide +kernel, hspells,
      MsgSpan.gives_iff_message?.2 hdraft⟩
  exact ⟨set, hparse, msg, hmsg, hcontent, movedTemplate, 3, scope, draft, hitem, hcontent',
    of_decide_eq_true h⟩

end Greeting

theorem Source.fingerprint_eq_of_writes_moved : ∃ msg msg' : Node,
    Greeting.aloneSource.HasMessage msg ∧ Greeting.movedSource.HasMessage msg' ∧
    msg.content = .msg (some "x") (some "m") false ∧
    msg'.content = .msg (some "z") (some "m") true ∧
    Greeting.aloneSource.Writes Greeting.text msg.bare ∧
    Greeting.movedSource.Writes Greeting.text msg'.bare ∧
    Message.fingerprint msg = Message.fingerprint msg' := by
  obtain ⟨set, hparse, msg, hmsg, hcontent, hwrites⟩ := Greeting.aloneSource_writes
  obtain ⟨set', hparse', msg', hmsg', hcontent', hwrites'⟩ := Greeting.movedSource_writes
  obtain ⟨_, hsource, h⟩ := Compiler.exists_hasMessage_of_parse hparse hmsg
  obtain ⟨_, hsource', h'⟩ := Compiler.exists_hasMessage_of_parse hparse' hmsg'
  cases List.mem_singleton.1 hsource
  cases List.mem_singleton.1 hsource'
  have hmeaning : Message.meaning? msg = Message.meaning? msg' := by
    rw [Message.meaning?, Message.meaning?, hcontent, hcontent']
  exact ⟨msg, msg', h, h', hcontent, hcontent', hwrites, hwrites',
    (Source.fingerprint_eq_of_writes h h').2.2 Greeting.text hwrites hwrites' hmeaning⟩

end Stencil
