/-
  Stencil/Proofs/Body/Grammar.lean
  ================================
  **What the reader of a body makes.**

  `Reads` says by rules which drafts the tags of a body can make, each in its
  role.  What a tag says by itself is left to the functions that read single
  tags; the rules say how tags nest.
-/
import Stencil.Body.Reader
import Stencil.Proofs.Outcome

namespace Stencil.Body

/-! ### The rules -/

/-- What a draft is a part of: a body, a conditional, a call, a message group, a
    message, or a plural or select. -/
inductive Role where
  | statement
  | branch
  | param
  | message
  | choice
  | case
deriving DecidableEq, Repr

/-- The content of a call. -/
def IsCall (scope : Scope) (content : Content) : Prop :=
  ∃ text, basicCall scope text = .ok content ∨ delegateCall text = .ok content

/-- The content of a message. -/
def IsMsg (content : Content) : Prop := ∃ text, msg text = .ok content

/-- The content of a plural or select. -/
def IsChoice (command : Keyword) (content : Content) : Prop :=
  ∃ text, (command = .plural ∧ plural text = .ok content) ∨
    (command = .select ∧ select text = .ok content)

/-- The label of a case of a plural or select. -/
def IsLabel (command : Keyword) (label : CaseLabel) : Prop :=
  label = .default ∨ ∃ text, caseLabel? command text = some label

/-- The statements that stand in messages: prints and calls. -/
def IsItem (content : Content) : Prop :=
  content.isCall ∨ ∃ implicit text, print implicit text = .ok content

/-- A case other than the default case. -/
def IsLabelled (case : Draft) : Prop := case.content ≠ .case .default

/-- The drafts that a body can be read as, by their roles. -/
inductive Reads (scope : Scope) : Role → Draft → Prop
  | text (line : Nat) (chars : List Char) (hchars : chars ≠ []) :
      Reads scope .statement (.leaf line (.rawText (String.ofList chars)))
  | print (line : Nat) {implicit : Bool} {text : List Char} {content : Content}
      (hcontent : Body.print implicit text = .ok content) :
      Reads scope .statement (.leaf line content)
  | xid (line : Nat) {text : List Char} {content : Content} (hcontent : Body.xid text = .ok content) :
      Reads scope .statement (.leaf line content)
  | conditional (line : Nat) {branches : List Draft}
      (hbranches : ∀ b ∈ branches, Reads scope .branch b) :
      Reads scope .statement (.node line .conditional branches)
  | branch (line : Nat) (condition : Option Expr) {body : List Draft}
      (hbody : ∀ d ∈ body, Reads scope .statement d) :
      Reads scope .branch (.node line (.branch condition) body)
  | call (line : Nat) {content : Content} {params : List Draft} (hcontent : IsCall scope content)
      (hparams : ∀ p ∈ params, Reads scope .param p)
      (hkeys : (params.map (·.content.paramKey?)).Nodup) :
      Reads scope .statement (.node line content params)
  | valueParam (line : Nat) {text : List Char} {closing : Bool} {key : String} {expr : Expr}
      (hparam : callParam text closing = .ok (.value key expr)) :
      Reads scope .param (.leaf line (.valueParam key expr))
  | contentParam (line : Nat) {text : List Char} {closing : Bool} {key : String}
      {kind : Option ContentKind} {body : List Draft}
      (hparam : callParam text closing = .ok (.content key kind))
      (hbody : ∀ d ∈ body, Reads scope .statement d) :
      Reads scope .param (.node line (.contentParam key kind) body)
  | group (line : Nat) {messages : List Draft} (hmessages : ∀ m ∈ messages, Reads scope .message m)
      (hcount : messages.length = 1 ∨ messages.length = 2) :
      Reads scope .statement (.node line .msgGroup messages)
  | message (line : Nat) {content : Content} {items : List Message.Item} {parts : List Draft}
      {calls : Nat} (hcontent : IsMsg content)
      (hitems : ∀ d, .statement d ∈ items → Reads scope .statement d)
      (hkinds : ∀ d, .statement d ∈ items → IsItem d.content)
      (hparts : Message.assemble 0 items = .ok (parts, calls)) :
      Reads scope .message (.node line content (Message.nameAll parts))
  | choiceMessage (line : Nat) {content : Content} {choice : Draft} (hcontent : IsMsg content)
      (hchoice : Reads scope .choice choice) :
      Reads scope .message (.node line content (Message.nameAll [choice]))
  | choice (line : Nat) {command : Keyword} {content : Content} {labelled : List Draft}
      {default : Draft} (hcontent : IsChoice command content)
      (hcases : ∀ c ∈ labelled ++ [default], Reads scope .case c)
      (hlabelled : ∀ c ∈ labelled, IsLabelled c) (hdefault : default.content = .case .default) :
      Reads scope .choice (.node line content (labelled ++ [default]))
  | case (line : Nat) {command : Keyword} {label : CaseLabel} {items : List Message.Item}
      {parts : List Draft} {before after : Nat} (hlabel : IsLabel command label)
      (hitems : ∀ d, .statement d ∈ items → Reads scope .statement d)
      (hkinds : ∀ d, .statement d ∈ items → IsItem d.content)
      (hparts : Message.assemble before items = .ok (parts, after)) :
      Reads scope .case (.node line (.case label) parts)

/-! ### Contents -/

variable {scope : Scope} {content : Content}

theorem isCall_of_isCall (h : IsCall scope content) : content.isCall := by
  obtain ⟨text, h | h⟩ := h
  · simp only [basicCall, bind_eq_ok] at h
    obtain ⟨cmd, -, h⟩ := h
    split at h
    · cases h
      rfl
    · cases h
  · simp only [delegateCall, bind_eq_ok] at h
    obtain ⟨cmd, -, h⟩ := h
    split at h
    · simp only [bind_eq_ok] at h
      obtain ⟨variant, -, h⟩ := h
      cases h
      rfl
    · cases h

theorem exists_xid {text : List Char} (h : xid text = .ok content) :
    ∃ name, content = .xid name := by
  rw [xid] at h
  split at h
  · cases h
    exact ⟨_, rfl⟩
  · cases h

theorem exists_msg (h : IsMsg content) :
    ∃ desc meaning hidden, content = .msg desc meaning hidden := by
  obtain ⟨text, h⟩ := h
  simp only [msg, bind_eq_ok] at h
  obtain ⟨cmd, -, h⟩ := h
  split at h
  · split at h
    · cases h
    · cases h
      exact ⟨_, _, _, rfl⟩
  · cases h

theorem isChoice_of_isChoice {command : Keyword} (h : IsChoice command content) :
    content.isChoice := by
  obtain ⟨text, ⟨-, h⟩ | ⟨-, h⟩⟩ := h
  · simp only [plural, bind_eq_ok] at h
    obtain ⟨cmd, -, h⟩ := h
    split at h
    · cases h
    · simp only [bind_eq_ok] at h
      obtain ⟨offset, -, h⟩ := h
      cases h
      rfl
  · rw [select] at h
    split at h
    · cases h
    · cases h
      rfl

theorem ne_default_of_caseLabel? {command : Keyword} {text : List Char} {label : CaseLabel}
    (h : caseLabel? command text = some label) : label ≠ .default := by
  rintro rfl
  rw [caseLabel?.eq_def] at h
  split at h <;> simp at h

end Stencil.Body
