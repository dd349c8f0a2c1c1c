/-
  Stencil/Text/Blank.lean
  =======================
  **White space**, and cutting it off the ends of a text.

  A text that a reader works on is a list of characters.  White space is the
  Unicode property `White_Space`; `trim` removes it from both ends and leaves
  the inside alone.
-/

namespace Stencil.Text

/-! ### The property -/

/-- The ranges of code points with the Unicode property `White_Space`, in
    ascending order. -/
def blankRanges : List (Nat × Nat) :=
  [(0x09, 0x0D), (0x20, 0x20), (0x85, 0x85), (0xA0, 0xA0), (0x1680, 0x1680),
   (0x2000, 0x200A), (0x2028, 0x2029), (0x202F, 0x202F), (0x205F, 0x205F),
   (0x3000, 0x3000)]

/-- A character is blank when its code point lies in one of `blankRanges`. -/
def isBlank (c : Char) : Bool :=
  blankRanges.any fun range => range.1 ≤ c.toNat && c.toNat ≤ range.2

/-- A text is blank when all its characters are; the empty text is. -/
def allBlank (cs : List Char) : Bool := cs.all isBlank

/-! ### Trimming -/

/-- The text without the longest run of characters at its end that satisfy `p`. -/
def dropEndWhile (p : Char → Bool) (cs : List Char) : List Char :=
  (cs.reverse.dropWhile p).reverse

/-- The text without its leading white space. -/
def trimStart (cs : List Char) : List Char := cs.dropWhile isBlank

/-- The text without its trailing white space. -/
def trimEnd (cs : List Char) : List Char := dropEndWhile isBlank cs

/-- The text without white space at either end. -/
def trim (cs : List Char) : List Char := trimEnd (trimStart cs)

end Stencil.Text
