/-
  Stencil/Body/Lines.lean
  =======================
  **Joining the lines of text.**

  The text between two commands is one line of output.  Each line loses the
  white space around it, and lines that are not empty then are joined by one
  space; but by nothing where the join touches an HTML tag or where no text
  stands before it.  White space next to a command stays, as does text that
  is on one line.
-/
import Stencil.Text.Blank
import Stencil.Text.Split

namespace Stencil.Body

open Text (splitOn trim trimStart trimEnd dropEndWhile)

/-- The lines of a text, without carriage returns at their ends. -/
def rawLines (cs : List Char) : List (List Char) :=
  (splitOn (· == '\n') cs).map (dropEndWhile (· == '\r'))

/-- The lines after the first, trimmed: the last one keeps its end. -/
def trimLater : List (List Char) → List (List Char)
  | [] => []
  | [last] => [trimStart last]
  | line :: rest => trim line :: trimLater rest

/-- Put a trimmed line after the text so far; `before` is that text. -/
def joinLine (before line : List Char) : List Char :=
  if line.isEmpty then before
  else if before.isEmpty || before.getLast? == some '>' || line.head? == some '<' then
    before ++ line
  else before ++ ' ' :: line

/-- The text with its lines joined. -/
def joinLines (cs : List Char) : List Char :=
  match rawLines cs with
  | first :: second :: rest =>
    (trimLater (second :: rest)).foldl joinLine (trimEnd first)
  | _ => cs

end Stencil.Body
