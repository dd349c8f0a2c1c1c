/-
  Stencil/Proofs/Message/Rewrapped.lean
  =====================================
  **Messages whose text is wrapped anew.**

  Where a line of a message is broken between two words, and how the next line is
  indented, does not matter: the lines join alike, the message is made of the same
  tokens, and its identity stays.
-/
import Stencil.Proofs.Body.BrokenLines
import Stencil.Proofs.Message.Identity

namespace Stencil

open Body (LineBreak Placed Scanner joinLines scan visible)

/-- **Text may be wrapped anew between words.**  Joining the lines of a text keeps its
    characters other than white space, leaves no newline and is idempotent.  A space
    between two words may be a newline with blanks around it: the lines join alike; if
    the words are text of a body, the body has the same tokens; and if they are text of
    a message, the message has the same identity. -/
theorem Body.joinLines_rewraps :
    (∀ cs, visible (joinLines cs) = visible cs ∧ '\n' ∉ joinLines cs ∧
      joinLines (joinLines cs) = joinLines cs) ∧
    ∀ b : LineBreak, joinLines b.broken = joinLines b.whole ∧
      (b.InText {} →
        Matches (fun done done' => done.tokens.map Placed.token = done'.tokens.map Placed.token)
          (scan b.whole) (scan b.broken)) ∧
      (b.InText { boundary := false } → ∀ (source source' : Source) (msg msg' : Node),
        source.Writes b.whole msg.bare → source'.Writes b.broken msg'.bare →
        Message.meaning? msg = Message.meaning? msg' →
        Message.fingerprint msg = Message.fingerprint msg') := by
  refine ⟨fun cs => ⟨?_, ?_, ?_⟩, fun b => ⟨b.joinLines_broken, fun hin => ?_, ?_⟩⟩
  · exact Body.visible_joinLines cs
  · exact Body.newline_notMem_joinLines cs
  · exact Body.joinLines_joinLines cs
  · exact LineBreak.matches_scan hin
  · intro hin source source' msg msg' hwrites hwrites' hmeaning
    rw [Message.fingerprint, Message.fingerprint, Message.canonical, Message.canonical, hmeaning,
      hwrites.canonicalBody_eq_of_sameTokens hwrites' (LineBreak.sameTokens hin)]

/-! ### A message in one line and in two -/

namespace Mail

open Body (MsgSpan)

def wrap : LineBreak where
  before := "\x7b$n\x7d, you".toList
  after := "have\n  new mail".toList
  trail := "\t".toList
  indent := "    ".toList
  ends := ⟨'u', rfl, rfl, by decide⟩
  starts := ⟨'h', rfl, rfl, by decide⟩
  plain := by decide
  blanks := List.forall_mem_cons.2 ⟨.inr rfl, fun c hc =>
    .inl (List.eq_of_mem_replicate (show c ∈ List.replicate 4 ' ' from hc))⟩

def tag : Placed := ⟨.command .msg "desc=\"x\"".toList false, 0⟩

def reference : Placed := ⟨.command .expression "$n".toList false, 0⟩

/-- The tokens of the message; the line of the tag that ends it depends on the text. -/
def span (last : Nat) : MsgSpan where
  before := []
  opening := tag
  inner := [reference, ⟨.text ", you have new mail".toList, 0⟩]
  closing := ⟨.endTag "msg", last⟩
  after := []
  opens := .inl rfl
  nested := rfl
  closes := rfl

def opening : String := "\x7bmsg desc=\"x\"\x7d"

def template (text : List Char) : RawTemplate where
  isDelegate := false
  text := ".t".toList
  body := opening.toList ++ text ++ "\x7b/msg\x7d".toList
  doc := none
  line := 2

def source (text : List Char) : Source where
  path := "a.soy"
  text := "\x7bnamespace a\x7d\n\x7btemplate .t\x7d" ++ opening ++ String.ofList text ++
    "\x7b/msg\x7d\x7b/template\x7d"

def scope : Scope := ⟨"a", none, .strict, []⟩

/-- The two texts, and the line of the body where the message ends. -/
def texts : List (List Char × Nat) := [(wrap.whole, 1), (wrap.broken, 2)]

theorem exists_writes : ∀ p ∈ texts, ∃ set, (Compiler.parse {} [source p.1]).1 = .ok set ∧
    ∃ msg ∈ set.messages, msg.content = .msg (some "x") none false ∧
      (source p.1).Writes p.1 msg.bare := by
  have hcheck : ∀ p ∈ texts, (Compiler.parse {} [source p.1]).1.toOption.any fun set =>
      ⟨.template (template p.1), 2⟩ ∈ (File.scan (source p.1).text.toList).1 ∧
      set.messages.any fun msg => msg.content = .msg (some "x") none false ∧
        ((span p.2).message? scope).any fun d => msg.bare = d.bare := by
    decide +kernel
  have hscans : ∀ p ∈ texts, scan (template p.1).body = .ok ⟨(span p.2).tokens, p.2⟩ ∧
      scan (opening.toList ++ p.1) = .ok ⟨(span p.2).opened, p.2⟩ := by
    decide +kernel
  have htag : opening.toList.foldlM Scanner.step {} =
      .ok { boundary := false, tokens := [tag] } := by
    decide +kernel
  intro p hp
  obtain ⟨set, hparse, h⟩ := any_toOption.1 (hcheck p hp)
  obtain ⟨hitem, h⟩ := of_decide_eq_true h
  obtain ⟨msg, hmsg, h⟩ := List.any_eq_true.1 h
  obtain ⟨hcontent, h⟩ := of_decide_eq_true h
  obtain ⟨draft, hdraft, h⟩ := (Option.any_eq_true _ _).1 h
  obtain ⟨hbody, htext⟩ := hscans p hp
  have hspells : (span p.2).Spells [] (template p.1).body p.1 :=
    ⟨opening.toList, "/msg\x7d".toList, _, p.2, rfl, htag, ⟨rfl, rfl, rfl⟩, rfl, htext⟩
  exact ⟨set, hparse, msg, hmsg, hcontent, template p.1, 2, scope, draft, hitem,
    ⟨span p.2, [], p.2, hbody, rfl, hspells, MsgSpan.gives_iff_message?.2 hdraft⟩,
    of_decide_eq_true h⟩

theorem inText (boundary : Bool) : wrap.InText { boundary } := by
  have hrun : ∀ boundary, wrap.before.foldlM Scanner.step { boundary } =
      .ok { boundary := false, text := "uoy ,".toList, tokens := [reference] } := by
    decide +kernel
  exact ⟨⟨_, _, hrun boundary, .inl ⟨rfl, rfl⟩, rfl⟩, by decide, by decide⟩

end Mail

theorem Body.joinLines_rewraps_mail :
    Mail.wrap.InText {} ∧ Mail.wrap.InText { boundary := false } ∧
    joinLines Mail.wrap.broken = joinLines Mail.wrap.whole ∧
    (∃ done, scan Mail.wrap.broken = .ok done ∧
      done.tokens.map Placed.token = (Mail.span 0).inner.map Placed.token) ∧
    ∃ msg msg' : Node, (Mail.source Mail.wrap.whole).Writes Mail.wrap.whole msg.bare ∧
      (Mail.source Mail.wrap.broken).Writes Mail.wrap.broken msg'.bare ∧
      Message.fingerprint msg = Message.fingerprint msg' := by
  obtain ⟨_, _, msg, -, hcontent, hwrites⟩ := Mail.exists_writes (Mail.wrap.whole, 1) (by decide)
  obtain ⟨_, _, msg', -, hcontent', hwrites'⟩ := Mail.exists_writes (Mail.wrap.broken, 2) (by decide)
  have hmeaning : Message.meaning? msg = Message.meaning? msg' := by
    rw [Message.meaning?, Message.meaning?, hcontent, hcontent']
  obtain ⟨hjoin, hbody, hmessage⟩ := Body.joinLines_rewraps.2 Mail.wrap
  have hscan : scan Mail.wrap.whole = .ok ⟨(Mail.span 0).inner, 1⟩ := by
    decide +kernel
  have htokens := hbody (Mail.inText true)
  rw [hscan] at htokens
  obtain ⟨done, hdone, heq⟩ := htokens.exists_ok
  exact ⟨Mail.inText true, Mail.inText false, hjoin, ⟨done, hdone, heq.symm⟩, msg, msg', hwrites,
    hwrites', hmessage (Mail.inText false) _ _ msg msg' hwrites hwrites' hmeaning⟩

end Stencil
