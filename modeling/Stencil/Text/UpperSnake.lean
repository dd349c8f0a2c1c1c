/-
  Stencil/Text/UpperSnake.lean
  ============================
  **Upper snake case**: the spelling of names in translations.

  A capital after a small letter or a digit starts a new word, and words are
  separated by underscores: `numFriends` becomes `NUM_FRIENDS`.
-/

namespace Stencil.Text

/-- Upper snake case of the rest of a name; `inWord` says that the character
    before it is a small letter or a digit. -/
def upperSnakeFrom (inWord : Bool) : List Char → List Char
  | [] => []
  | c :: cs =>
    let gap := if c.isUpper && inWord then ['_'] else []
    let letter := if c.isAlphanum then c.toUpper else '_'
    gap ++ letter :: upperSnakeFrom (c.isLower || c.isDigit) cs

/-- The name in upper snake case; a character that is no ASCII letter or digit
    becomes an underscore. -/
def upperSnake (name : String) : String :=
  String.ofList (upperSnakeFrom false name.toList)

end Stencil.Text
