/-
  Stencil/Text/Numeral.lean
  =========================
  **Whole numbers as text.**

  A numeral is a non-empty run of digits of some base.  The signed readers
  take one leading `+` or `-`; the readers of 64-bit numbers refuse a numeral
  whose value is out of range.
-/

namespace Stencil.Text

/-- The value of a digit in bases up to 36; letters count from ten in either
    case, and only ASCII characters are digits. -/
def digitValue? (base : Nat) (c : Char) : Option Nat :=
  let value :=
    if c.isDigit then c.toNat - '0'.toNat
    else if c.isLower then c.toNat - 'a'.toNat + 10
    else if c.isUpper then c.toNat - 'A'.toNat + 10
    else base
  if value < base then some value else none

/-- The value of the digits `cs` written after a numeral of value `n`. -/
def readDigits? (base : Nat) : Nat → List Char → Option Nat
  | n, [] => some n
  | n, c :: cs => (digitValue? base c).bind fun d => readDigits? base (n * base + d) cs

/-- The value of a non-empty run of digits. -/
def readNat? (base : Nat) (cs : List Char) : Option Nat :=
  if cs.isEmpty then none else readDigits? base 0 cs

/-- The value of a numeral with at most one sign. -/
def readInt? (base : Nat) : List Char → Option Int
  | '-' :: cs => (readNat? base cs).map fun n => -(n : Int)
  | '+' :: cs => (readNat? base cs).map fun n => (n : Int)
  | cs => (readNat? base cs).map fun n => (n : Int)

/-- The value of a signed numeral, if it lies in the range of 64-bit signed
    numbers. -/
def readInt64? (base : Nat) (cs : List Char) : Option Int :=
  (readInt? base cs).filter fun n => Int64.minValue.toInt ≤ n && n ≤ Int64.maxValue.toInt

/-- The value of a decimal numeral with at most a plus sign, if it lies in the
    range of 64-bit unsigned numbers. -/
def readNat64? (cs : List Char) : Option Nat :=
  let digits := match cs with
    | '+' :: rest => rest
    | _ => cs
  (readNat? 10 digits).filter fun n => n < UInt64.size

end Stencil.Text
