/-
  Stencil/Expr/Basic.lean
  =======================
  **Expressions in templates**, as far as they are understood.

  Literals and references to data are told apart; an expression of any other
  form keeps its text only.  A reference names a template parameter or, after
  `$ij`, injected data, and then the keys that lead into the value.
-/
import Stencil.Text.Binary64
import Stencil.Text.Blank
import Stencil.Text.Identifier
import Stencil.Ty.Order

namespace Stencil

open Text (trim splitOn isIdentifier)

/-- A reference to a parameter or to injected data, and the keys into it. -/
structure DataRef where
  injected : Bool
  head : String
  keys : List String
deriving DecidableEq, Repr

/-- The key that names the value: the last one, or the head without keys. -/
def DataRef.lastKey (ref : DataRef) : String := ref.keys.getLastD ref.head

/-- What an expression is.  A float is the bit pattern of a 64-bit floating
    point number. -/
inductive ExprKind where
  | null
  | bool (value : Bool)
  | int (value : Int)
  | float (bits : UInt64)
  | str (value : String)
  | ref (ref : DataRef)
  | other
deriving DecidableEq, Repr

/-- An expression: its text, what it is, and its type once that is resolved. -/
structure Expr where
  text : String
  kind : ExprKind
  ty : Option Ty := none
deriving DecidableEq, Repr

namespace Expr

/-! ### String literals -/

/-- The character that a backslash and `c` stand for. -/
def unescape : Char → Char
  | 'n' => '\n'
  | 't' => '\t'
  | 'r' => '\r'
  | c => c

/-- The text that the inside of a string literal stands for; a quote must
    follow a backslash, and a backslash must precede a character. -/
def decodeLiteral : List Char → Option (List Char)
  | [] => some []
  | '\\' :: c :: cs => (decodeLiteral cs).map (unescape c :: ·)
  | c :: cs =>
    if c = '\\' || c = '\'' then none else (decodeLiteral cs).map (c :: ·)

/-- The value of a string literal in single quotes. -/
def stringLiteral? (text : List Char) : Option String := do
  let afterQuote ← Text.dropPrefix? ['\''] text
  let inside ← Text.dropSuffix? ['\''] afterQuote
  (decodeLiteral inside).map String.ofList

/-! ### References -/

/-- A reference from its head and keys, which must be identifiers. -/
def refOf (injected : Bool) (head : List Char) (keys : List (List Char)) : Option DataRef :=
  if isIdentifier head && keys.all isIdentifier then
    some ⟨injected, String.ofList head, keys.map String.ofList⟩
  else none

/-- The reference that a text is: after a dollar sign a head and keys with dots
    between them.  The head `ij` makes the first key the head of injected data;
    any other head may have white space around it. -/
def dataRef? (text : List Char) : Option DataRef := do
  let path ← Text.dropPrefix? ['$'] text
  match splitOn (· == '.') path with
  | [] => none
  | head :: keys =>
    if head = ['i', 'j'] then
      match keys with
      | [] => none
      | first :: keys => refOf true first keys
    else refOf false (trim head) keys

/-! ### Numbers -/

/-- The value of a hexadecimal numeral after `0x`. -/
def hexadecimal? (text : List Char) : Option Int := do
  Text.readInt64? 16 (← Text.dropPrefix? ['0', 'x'] text)

/-- Whether a text starts like a number: with a digit or a minus sign. -/
def startsNumber : List Char → Bool
  | [] => false
  | c :: _ => c.isDigit || c == '-'

/-- A number: a whole number of 64 bits, or else a decimal fraction that has a
    point or an exponent. -/
def number? (text : List Char) : Option ExprKind :=
  match hexadecimal? text with
  | some n => some (.int n)
  | none =>
    if startsNumber text then
      match Text.readInt64? 10 text with
      | some n => some (.int n)
      | none =>
        if text.any fun c => c == '.' || c == 'e' || c == 'E' then
          (Text.Binary64.read? text).map fun bits => .float (UInt64.ofNat bits)
        else none
    else none

/-! ### All forms -/

/-- What a text without white space at its ends is. -/
def classify (text : List Char) : ExprKind :=
  if text = "null".toList then .null
  else if text = "true".toList then .bool true
  else if text = "false".toList then .bool false
  else match stringLiteral? text with
    | some s => .str s
    | none =>
      match dataRef? text with
      | some ref => .ref ref
      | none => (number? text).getD .other

/-- The expression that a text is, white space at its ends aside. -/
def ofText (text : List Char) : Expr :=
  { text := String.ofList (trim text), kind := classify (trim text) }

def ref? (e : Expr) : Option DataRef :=
  match e.kind with
  | .ref ref => some ref
  | _ => none

/-- The string that an expression is a literal of. -/
def string? (e : Expr) : Option String :=
  match e.kind with
  | .str s => some s
  | _ => none

end Expr

end Stencil
