/-
  Stencil/Proofs/Body/Contents.lean
  =================================
  **The content texts of messages.**

  The content text of a message is what is written between its tag and the tag
  that ends it.  Every message has one, and messages with one content text get one
  canonical text, whatever is around them.
-/
import Stencil.Proofs.Body.Lockstep
import Stencil.Proofs.Body.Spans
import Stencil.Proofs.Body.Tags
import Stencil.Template.Header

namespace Stencil.Body

/-! ### Content texts in a body -/

namespace MsgSpan

/-- The text of a body from the end of the message's tag to the start of the tag
    that ends it; the body starts with other tokens, the `header`. -/
def Spells (m : MsgSpan) (header : List Placed) (body text : List Char) : Prop :=
  ∃ before after scanner line, body = before ++ text ++ '\x7b' :: after ∧
    before.foldlM Scanner.step {} = .ok scanner ∧ scanner.AfterTag ∧
    scanner.tokens.reverse = header ++ m.before ++ [m.opening] ∧
    scan (before ++ text) = .ok ⟨header ++ m.opened, line⟩

end MsgSpan

/-- A message of a template body, and its content text. -/
def IsContent (scope : Scope) (body text : List Char) (msg : Draft) : Prop :=
  ∃ (m : MsgSpan) (header : List Placed) (line : Nat),
    scan body = .ok ⟨header ++ m.tokens, line⟩ ∧
    (Header.splitParamTags none (header ++ m.tokens)).2 = m.tokens ∧
    m.Spells header body text ∧ m.Gives scope msg

variable {scope scope' : Scope} {body body' text text' : List Char} {msg msg' : Draft}

theorem MsgSpan.inner_tokens_eq {m m' : MsgSpan} {header header' : List Placed}
    (h : m.Spells header body text) (h' : m'.Spells header' body' text')
    (htexts : SameTokens text text') : m.inner.map Placed.token = m'.inner.map Placed.token := by
  obtain ⟨before, after, s, line, -, hs, hafter, htokens, hscan⟩ := h
  obtain ⟨before', after', s', line', -, hs', hafter', htokens', hscan'⟩ := h'
  have hrun := htexts s s' hafter hafter'
  have hscanned : text.foldlM Scanner.step s >>= Scanner.finish = .ok ⟨header ++ m.opened, line⟩ := by
    rw [scan, List.foldlM_append, hs] at hscan
    exact hscan
  have hscanned' : text'.foldlM Scanner.step s' >>= Scanner.finish =
      .ok ⟨header' ++ m'.opened, line'⟩ := by
    rw [scan, List.foldlM_append, hs'] at hscan'
    exact hscan'
  obtain ⟨new, new', hnew, hnew', hnews⟩ := hrun.agree _ _ hscanned hscanned'
  have hinner : ∀ {m : MsgSpan} {header new : List Placed},
      header ++ m.opened = (header ++ m.before ++ [m.opening]) ++ new → m.inner = new := by
    intro m header new h
    simpa [MsgSpan.opened] using h
  rw [hinner (htokens ▸ hnew), hinner (htokens' ▸ hnew'), hnews]

/-- A message is read from its tag on as if nothing were around it. -/
theorem MsgSpan.exists_under {m : MsgSpan} {r : Reader}
    (h : m.opened.foldlM (Reader.step scope) {} = .ok r) :
    ∃ (o : OpenMsg) (around inner : Reader), o.items = [] ∧ o.choices = [] ∧
      m.inner.foldlM (Reader.step scope) { focus := .frame (.message o) } = .ok inner ∧
      r = inner.under around := by
  rw [MsgSpan.opened, List.foldlM_append, bind_eq_ok] at h
  obtain ⟨r₀, -, h⟩ := h
  rw [List.foldlM_cons, bind_eq_ok] at h
  obtain ⟨around, haround, h⟩ := h
  obtain ⟨o, hfocus, hitems, hchoices⟩ := Reader.exists_message_of_opensMsg m.opens haround
  have hunder : around = Reader.under { focus := .frame (.message o) } around := by
    rw [Reader.under, ← hfocus]
    rfl
  rw [hunder] at h
  have hinside : Inside 0 (Reader.stack { focus := .frame (.message o) }) := .message trivial rfl
  obtain ⟨inner, hinner, hr, -⟩ := Reader.run_under hinside m.nested h
  exact ⟨o, around, inner, hitems, hchoices, hinner, hr⟩

/-- Messages whose content texts make the same tokens get one canonical text. -/
theorem IsContent.canonicalBody_eq (h : IsContent scope body text msg)
    (h' : IsContent scope' body' text' msg') (htexts : SameTokens text text') :
    Message.canonicalBody msg.children = Message.canonicalBody msg'.children := by
  obtain ⟨m, header, line, -, -, hspells, r, o, messages, hr, hfocus, hclose⟩ := h
  obtain ⟨m', header', line', -, -, hspells', r', o', messages', hr', hfocus', hclose'⟩ := h'
  have htokens := MsgSpan.inner_tokens_eq hspells hspells' htexts
  -- what is around the messages is put aside, and the readers go in lockstep from the tags on
  obtain ⟨start, around, inner, hitems, hchoices, hinner, rfl⟩ := m.exists_under hr
  obtain ⟨start', around', inner', hitems', hchoices', hinner', rfl⟩ := m'.exists_under hr'
  have hstart : Reader.Alike { focus := .frame (.message start) }
      { focus := .frame (.message start') } := by
    refine ⟨.nil, .frame (.message ⟨?_, ?_⟩)⟩
    · rw [hitems, hitems']
      exact .nil
    · rw [hchoices, hchoices']
  have halike : inner.focus.Alike inner'.focus :=
    (hstart.run htokens inner inner' hinner hinner').focus
  change inner.focus = _ at hfocus
  change inner'.focus = _ at hfocus'
  rw [hfocus, hfocus'] at halike
  cases halike with
  | frame hframe =>
    cases hframe with
    | message ho =>
      obtain ⟨_, _, _, _, hm, hm', hcanonical⟩ := ho.closeMessage _ _ hclose hclose'
      cases hm
      cases hm'
      exact hcanonical

/-! ### Every message has a content text -/

theorem Placed.isTag_of_msgTag_ne {t : Placed} (h : t.msgTag ≠ .other) : t.token.isTag := by
  rw [Placed.msgTag] at h
  split at h
  all_goals first
    | exact absurd rfl h
    | rename_i htoken
      rw [htoken]
      rfl

theorem MsgSpan.exists_spells {m : MsgSpan} {header : List Placed} {line : Nat}
    (h : scan body = .ok ⟨header ++ m.tokens, line⟩) : ∃ text, m.Spells header body text := by
  obtain ⟨fin, hrun, hfinish⟩ := bind_eq_ok.1 h
  have hopening : Scanner.TagIn {} body (header ++ m.before) m.opening := by
    have hfinish' : fin.finish =
        .ok ⟨(header ++ m.before) ++ m.opening :: (m.inner ++ m.closing :: m.after), line⟩ := by
      rw [hfinish, MsgSpan.tokens, MsgSpan.opened]
      simp
    refine Scanner.tagIn_of_finish (fun hin => ?_) hrun hfinish' (Placed.isTag_of_msgTag_ne ?_)
      (Nat.zero_le _)
    · obtain ⟨_, _, _, hmode⟩ := hin
      cases hmode
    · rcases m.opens with htag | htag <;> rw [htag] <;> exact nofun
  obtain ⟨before, tag, rest, -, -, s, rfl, -, -, hs, hafter, htokens⟩ := hopening
  rw [List.foldlM_append, hs] at hrun
  -- the tag that ends the message is looked for in the text after the tag of the message
  have hclosing : Scanner.TagIn s rest (header ++ m.opened) m.closing := by
    have hfinish' : fin.finish = .ok ⟨(header ++ m.opened) ++ m.closing :: m.after, line⟩ := by
      rw [hfinish, MsgSpan.tokens, List.append_assoc]
    refine Scanner.tagIn_of_finish (fun hin => ?_) hrun hfinish'
      (Placed.isTag_of_msgTag_ne fun htag => ?_) ?_
    · obtain ⟨_, _, _, hmode⟩ := hin
      rw [hafter.mode] at hmode
      cases hmode
    · have hcloses := m.closes
      rw [nest.eq_def, htag] at hcloses
      cases hcloses
    · rw [htokens, MsgSpan.opened]
      simp
      omega
  obtain ⟨text, tag', after, start, line', -, rfl, hstart, hscan, -, -, -⟩ := hclosing
  refine ⟨text, before ++ '\x7b' :: tag, tag' ++ after, s, line', by simp, hs, hafter, ?_, ?_⟩
  · rw [htokens, List.reverse_cons, List.reverse_reverse]
  · rw [scan, List.foldlM_append, hs]
    change (text.foldlM Scanner.step s >>= Scanner.finish) = _
    rw [hstart]
    exact hscan

/-- The tokens of a body are its declarations and the rest. -/
theorem exists_header_of_splitParamTags (doc : Option (List Char)) (ts : List Placed) :
    ∃ header, ts = header ++ (Header.splitParamTags doc ts).2 := by
  induction ts generalizing doc with
  | nil => exact ⟨[], rfl⟩
  | cons t rest ih =>
    rw [Header.splitParamTags]
    split
    · split
      all_goals
        obtain ⟨header, hheader⟩ := ih _
        exact ⟨t :: header, congrArg (t :: ·) hheader⟩
    · exact ⟨[], rfl⟩

/-- Every message of a body that is read has a content text. -/
theorem exists_isContent_of_read {scanned : Scanned} {drafts : List Draft}
    (hscan : scan body = .ok scanned)
    (hread : read scope (Header.splitParamTags none scanned.tokens).2 scanned.endLine = .ok drafts) :
    ∀ d ∈ drafts, MsgsAre (fun m => ∃ text, IsContent scope body text m) d := by
  intro d hd
  refine (exists_span_of_read hread d hd).imp fun n hn hgroup msg hmsg => ?_
  obtain ⟨m, htokens, hgives⟩ := hn hgroup msg hmsg
  obtain ⟨header, hheader⟩ := exists_header_of_splitParamTags none scanned.tokens
  rw [← htokens] at hheader
  have hscan' : scan body = .ok ⟨header ++ m.tokens, scanned.endLine⟩ := by
    rw [hscan, ← hheader]
  obtain ⟨text, hspells⟩ := m.exists_spells hscan'
  exact ⟨text, m, header, scanned.endLine, hscan', hheader ▸ htokens.symm, hspells, hgives⟩

end Stencil.Body
