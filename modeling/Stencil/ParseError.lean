/-
  Stencil/ParseError.lean
  =======================
  **What is wrong with a source file, and where.**

  While a file is read, a complaint is a `Fault`: a cause of the reader's own
  type, at a line counted from where that reader began.  What a file is
  rejected with is a `ParseError`: a class, a message and a place.
-/
import Stencil.Location

namespace Stencil

/-- A cause of complaint at a line. -/
structure Fault (Cause : Type) where
  cause : Cause
  line : Nat
deriving DecidableEq, Repr

namespace Fault

variable {Cause Other : Type}

/-- The same complaint in the words of another reader. -/
def map (f : Cause → Other) (fault : Fault Cause) : Fault Other :=
  ⟨f fault.cause, fault.line⟩

/-- The same complaint, its line counted from `count` lines further up. -/
def down (fault : Fault Cause) (count : Nat) : Fault Cause :=
  { fault with line := fault.line + count }

end Fault

/-- What kind of rule a source file breaks: how text splits into tokens, how
    tags nest, what a declaration may say, or how a type is written. -/
inductive ErrorClass where
  | lexical
  | structural
  | declaration
  | typeExpression (source : String)
deriving DecidableEq, Repr

/-- The reason for which a source file is rejected. -/
structure ParseError where
  errorClass : ErrorClass
  message : String
  location : Location
deriving DecidableEq, Repr

namespace ParseError

/-- The words that introduce an error of a class. -/
def headline : ErrorClass → String
  | .lexical => "Lexical error"
  | .structural => "Structural error"
  | .declaration => "Declaration error"
  | .typeExpression source => "Invalid type expression '" ++ source ++ "'"

def text (e : ParseError) : String :=
  headline e.errorClass ++ " at " ++ e.location.text ++ ": " ++ e.message

/-- The same error `count` lines further down. -/
def rebase (e : ParseError) (count : Nat) : ParseError :=
  { e with location := e.location.down count }

end ParseError

end Stencil
