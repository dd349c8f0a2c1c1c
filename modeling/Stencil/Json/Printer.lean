/-
  Stencil/Json/Printer.lean
  =========================
  **Writing JSON text** over several lines.

  Each item and member stands on a line of its own, indented by two spaces per
  level; an empty array or object is closed at once.  In strings the quote, the
  backslash and control characters are escaped, and nothing else.
-/
import Stencil.Json.Basic
import Stencil.Text.Split

namespace Stencil.Json

/-- The escape of a control character that has no short one. -/
def longEscape (c : Char) : List Char :=
  ['\\', 'u', '0', '0', Nat.digitChar (c.toNat / 16), Nat.digitChar (c.toNat % 16)]

/-- A character as it stands in a string. -/
def escape (c : Char) : List Char :=
  if c == '"' then ['\\', '"']
  else if c == '\\' then ['\\', '\\']
  else if c == '\x08' then ['\\', 'b']
  else if c == '\x0c' then ['\\', 'f']
  else if c == '\n' then ['\\', 'n']
  else if c == '\r' then ['\\', 'r']
  else if c == '\t' then ['\\', 't']
  else if c.toNat < 0x20 then longEscape c
  else [c]

def quoted (text : String) : List Char := '"' :: text.toList.flatMap escape ++ ['"']

/-- The line end before something at a level. -/
def newline (level : Nat) : List Char := '\n' :: List.replicate (2 * level) ' '

/-- Parts on lines of their own between brackets, at a level. -/
def block (level : Nat) (opening closing : Char) (parts : List (List Char)) : List Char :=
  if parts.isEmpty then [opening, closing]
  else
    opening :: newline (level + 1) ++ Text.joinWith (',' :: newline (level + 1)) parts ++
      newline level ++ [closing]

mutual

def pretty (level : Nat) : Json → List Char
  | null => "null".toList
  | bool true => "true".toList
  | bool false => "false".toList
  | num text => text.toList
  | str text => quoted (text.getD "")
  | arr items => block level '[' ']' (prettyItems (level + 1) items)
  | obj members => block level '\x7b' '\x7d' (prettyMembers (level + 1) members)

def prettyItems (level : Nat) : List Json → List (List Char)
  | [] => []
  | item :: rest => pretty level item :: prettyItems level rest

/-- Several members at a level. -/
def prettyMembers (level : Nat) : List (Option String × Json) → List (List Char)
  | [] => []
  | (name, value) :: rest =>
    (quoted (name.getD "") ++ ':' :: ' ' :: pretty level value) :: prettyMembers level rest

end

def toText (value : Json) : String := String.ofList (pretty 0 value)

end Stencil.Json
