/-
  Stencil/Message/Fingerprint.lean
  ================================
  **Identities of messages**: a hash of what a translator sees.

  The canonical text of a message is its text with braces and backslashes
  escaped, its placeholders as names in braces, and its plurals and selects as
  tags in braces.  A meaning follows after a null character.  The identity is
  the 64-bit FNV-1a hash of that text in UTF-8, without its highest bit; so it
  does not depend on where the message stands.
-/
import Stencil.Tree.Basic

namespace Stencil

/-- The identity of a message in translations. -/
abbrev MsgId := UInt64

namespace Message

variable {α : Type}

/-! ### Canonical text -/

/-- A character of text, escaped where it could be taken for a tag. -/
def escapeChar (c : Char) : List Char :=
  if c == '\x7b' || c == '\x7d' || c == '\\' then ['\\', c] else [c]

def canonicalTag (inside : String) : List Char := '\x7b' :: inside.toList ++ ['\x7d']

/-- The tag of a case. -/
def canonicalLabel : CaseLabel → List Char
  | .count n => canonicalTag ("CASE =" ++ toString n)
  | .value text => canonicalTag ("CASE '" ++ text ++ "'")
  | .default => canonicalTag "DEFAULT"

mutual

def canonicalPart : Tree α → List Char
  | .node _ content children =>
    match content with
    | .msgText text => text.toList.flatMap escapeChar
    | .placeholder name _ => canonicalTag name
    | .plural _ offset name =>
      canonicalTag ("PLURAL " ++ name ++ " offset=" ++ toString offset) ++
        canonicalBody children ++ canonicalTag "/PLURAL"
    | .select _ name =>
      canonicalTag ("SELECT " ++ name) ++ canonicalBody children ++ canonicalTag "/SELECT"
    | .case label => canonicalLabel label ++ canonicalBody children
    | _ => []

def canonicalBody : List (Tree α) → List Char
  | [] => []
  | part :: rest => canonicalPart part ++ canonicalBody rest

end

/-- The meaning of a message. -/
def meaning? (msg : Tree α) : Option String :=
  match msg.content with
  | .msg _ meaning _ => meaning
  | _ => none

/-- The canonical text of a message, its meaning included. -/
def canonical (msg : Tree α) : List Char :=
  canonicalBody msg.children ++
    match meaning? msg with
    | some meaning => '\x00' :: meaning.toList
    | none => []

/-! ### The hash -/

def hashStart : UInt64 := 0xcbf29ce484222325

def hashFactor : UInt64 := 0x100000001b3

def hashByte (hash : UInt64) (byte : UInt8) : UInt64 := (hash ^^^ byte.toUInt64) * hashFactor

/-- The 64-bit FNV-1a hash of some bytes. -/
def hashBytes (bytes : List UInt8) : UInt64 := bytes.foldl hashByte hashStart

/-- The bytes of a text in UTF-8. -/
def utf8 (text : List Char) : List UInt8 := text.flatMap String.utf8EncodeChar

/-- The identity of a message. -/
def fingerprint (msg : Tree α) : MsgId := hashBytes (utf8 (canonical msg)) &&& 0x7FFFFFFFFFFFFFFF

end Message

end Stencil
