/-
  Stencil/Text/Binary64.lean
  ==========================
  **Decimal fractions as binary floating point numbers.**

  A decimal text denotes a rational number, and its value here is the 64-bit
  floating point number nearest to it: a tie goes to the even significand, a
  number beyond the largest finite one is infinity, and one below half of the
  smallest positive one is zero.  Everything is computed with whole numbers,
  and the result is the bit pattern.
-/
import Stencil.Text.Numeral
import Stencil.Text.Split

namespace Stencil.Text.Binary64

/-! ### Nearest floating point number -/

/-- The whole number nearest to `num / den`; a tie goes to the even one. -/
def roundHalfEven (num den : Nat) : Nat :=
  let low := num / den
  let twice := 2 * (num % den)
  if twice < den then low
  else if den < twice then low + 1
  else low + low % 2

/-- The exponent of the largest power of two that is at most `num / den`, for
    positive `num` and `den`. -/
def floorLog2 (num den : Nat) : Int :=
  let guess : Int := (num.log2 : Int) - den.log2
  let reaches := den <<< guess.toNat ≤ num <<< (-guess).toNat
  if reaches then guess else guess - 1

/-- The bit pattern of positive infinity. -/
def infinity : Nat := 0x7FF <<< 52

/-- The bit pattern of the non-negative number nearest to `num / den`.  With
    `q` the exponent of its last place, the significand and the biased
    exponent add up to the bit pattern, so a significand that rounds up to
    the next power of two carries into the exponent by itself. -/
def ofRatio (num den : Nat) : Nat :=
  if num = 0 then 0
  else
    let q := max (floorLog2 num den - 52) (-1074)
    let significand := roundHalfEven (num <<< (-q).toNat) (den <<< q.toNat)
    min ((q + 1074).toNat <<< 52 + significand) infinity

/-- The bit pattern of the number nearest to `digits` times ten to the power
    `exponent`, where `digits` has at most `width` decimal digits.  An
    exponent far outside the range is decided without the power. -/
def ofScientific (digits width : Nat) (exponent : Int) : Nat :=
  if digits = 0 then 0
  else if exponent > 310 then infinity
  else if exponent + width < -330 then 0
  else ofRatio (digits * Nat.pow 10 exponent.toNat) (Nat.pow 10 (-exponent).toNat)

/-! ### Reading -/

/-- The exponent of a decimal text: a signed run of digits. -/
def readExponent? (cs : List Char) : Option Int := readInt? 10 cs

/-- The bit pattern of an unsigned decimal text: digits, at most one point
    with at least one digit beside it, and at most one exponent after `e` or
    `E`. -/
def readUnsigned? (cs : List Char) : Option Nat := do
  let (mantissa, exponent) ←
    match cut? (fun c => c == 'e' || c == 'E') cs with
    | none => some (cs, 0)
    | some (mantissa, after) => (readExponent? after).map fun e => (mantissa, e)
  let (whole, fraction) := (cut? (· == '.') mantissa).getD (mantissa, [])
  let digits ← readNat? 10 (whole ++ fraction)
  some (ofScientific digits (whole.length + fraction.length) (exponent - fraction.length))

/-- The bit pattern of a decimal text with at most one sign; the sign is the
    highest bit, also of a zero. -/
def read? : List Char → Option Nat
  | '-' :: cs => (readUnsigned? cs).map (1 <<< 63 + ·)
  | '+' :: cs => readUnsigned? cs
  | cs => readUnsigned? cs

end Stencil.Text.Binary64
