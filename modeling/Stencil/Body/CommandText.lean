/-
  Stencil/Body/CommandText.lean
  =============================
  **What a command says after its name**: a head and attributes.

  The attributes start at the first word outside single quotes that is a name
  followed by `="`; all before it is the head.  From there on the text must be
  attributes `name="value"` with white space between them, each name once.
-/
import Stencil.Text.Blank
import Stencil.Text.Split

namespace Stencil.Body

open Text (isBlank trim trimStart cut? length_lt_of_cut? length_dropWhile_le)

/-- A head and attributes. -/
structure CommandText where
  head : List Char
  attrs : List (String × String)
deriving DecidableEq, Repr

/-- Why a text is no command text, or not the right one. -/
inductive CommandTextCause where
  | malformed (text : String)
  | unterminatedValue (name : String)
  | duplicateAttr (name : String)
  | unsupportedAttr (name command : String)
deriving DecidableEq, Repr

def CommandTextCause.message : CommandTextCause → String
  | malformed text => "Malformed attributes in command text: '" ++ text ++ "'"
  | unterminatedValue name => "Unterminated value for attribute '" ++ name ++ "'"
  | duplicateAttr name => "Duplicate attribute '" ++ name ++ "'"
  | unsupportedAttr name command =>
    "Unsupported attribute '" ++ name ++ "' in \x7b" ++ command ++ "\x7d"

namespace CommandText

/-- The characters of an attribute's name. -/
def isAttrPart (c : Char) : Bool := c.isAlphanum || c == '_' || c == '-'

/-- An attribute follows: a run of name characters and then `="`. -/
def attrAhead (cs : List Char) : Bool :=
  ['=', '"'].isPrefixOf (cs.dropWhile isAttrPart)

/-- The text before the first attribute and the text from there on; `quoted`
    says that the text starts inside single quotes, `wordStart` that nothing
    or white space stands before it. -/
def splitHead (quoted wordStart : Bool) : List Char → List Char × List Char
  | [] => ([], [])
  | c :: cs =>
    if !quoted && wordStart && c.isAlpha && attrAhead (c :: cs) then ([], c :: cs)
    else
      let (head, attrs) := splitHead (quoted != (c == '\'')) (isBlank c) cs
      (c :: head, attrs)

/-- The attribute at the start of a text, and the text after it. -/
def readAttr (cs : List Char) : Except CommandTextCause ((String × String) × List Char) :=
  let name := cs.takeWhile isAttrPart
  match name, cs.dropWhile isAttrPart with
  | _ :: _, '=' :: '"' :: value =>
    match cut? (· == '"') value with
    | some (value, rest) => .ok ((String.ofList name, String.ofList value), rest)
    | none => .error (.unterminatedValue (String.ofList name))
  | _, _ => .error (.malformed (String.ofList (trim cs)))

/-- The text after an attribute is shorter. -/
theorem length_lt_of_readAttr {cs rest : List Char} {attr : String × String}
    (h : readAttr cs = .ok (attr, rest)) : rest.length < cs.length := by
  have hdrop := length_dropWhile_le isAttrPart cs
  simp only [readAttr] at h
  split at h
  · rename_i value _ heq
    split at h
    · rename_i v r hcut
      have := length_lt_of_cut? hcut
      simp only [Except.ok.injEq, Prod.mk.injEq] at h
      obtain ⟨-, rfl⟩ := h
      rw [heq] at hdrop
      simp only [List.length_cons] at hdrop
      omega
    · simp at h
  · simp at h

/-- The attributes in a text, after those `seen` before. -/
def readAttrs (seen : List (String × String)) (cs : List Char) :
    Except CommandTextCause (List (String × String)) :=
  match _hcs : trimStart cs with
  | [] => .ok seen
  | c :: left =>
    match _h : readAttr (c :: left) with
    | .error cause => .error cause
    | .ok (attr, rest) =>
      if seen.any (·.1 == attr.1) then .error (.duplicateAttr attr.1)
      else readAttrs (seen ++ [attr]) rest
termination_by cs.length
decreasing_by
  have := length_lt_of_readAttr _h
  have := length_dropWhile_le isBlank cs
  simp only [trimStart] at _hcs
  rw [_hcs] at this
  omega

/-- The command text that a text is. -/
def read (cs : List Char) : Except CommandTextCause CommandText := do
  let (head, attrs) := splitHead false true cs
  pure ⟨trim head, ← readAttrs [] attrs⟩

def attr? (cmd : CommandText) (name : String) : Option String := cmd.attrs.lookup name

/-- The command text, provided that a command allows its attributes. -/
def allowing (cmd : CommandText) (command : String) (allowed : List String) :
    Except CommandTextCause CommandText :=
  match cmd.attrs.find? fun attr => !allowed.contains attr.1 with
  | some (name, _) => .error (.unsupportedAttr name command)
  | none => .ok cmd

/-- The command text of a command that allows some attributes. -/
def readFor (command : String) (allowed : List String) (cs : List Char) :
    Except CommandTextCause CommandText := do
  (← read cs).allowing command allowed

def headText (cmd : CommandText) : String := String.ofList cmd.head

end CommandText

end Stencil.Body
