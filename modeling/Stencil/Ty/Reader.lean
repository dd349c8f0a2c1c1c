/-
  Stencil/Ty/Reader.lean
  ======================
  **Reading type expressions.**

  A type expression is a sequence of alternatives separated by `|`.  An
  alternative is `?`, `list<T>`, `map<K, V>`, a record `[name: T, ...]` or the
  name of a known type; white space may stand around every token.

  The readers work on the text that is left.  A complaint is placed by the
  length of the text left at its place, which the column is computed from.
  Every alternative consumes a character before it recurses, so twice the
  length of the text bounds the recursion.
-/
import Stencil.Text.Blank
import Stencil.Text.Identifier
import Stencil.Ty.Registry

namespace Stencil

open Text (trimStart isNameStart isNamePart)

/-! ### Complaints -/

/-- What is wrong with a type expression. -/
inductive TypeCause where
  | unexpectedAfter (c : Char)
  | unexpected (c : Char)
  | expectedType
  | expectedChar (wanted : Char) (found : Option Char)
  | expectedSegment
  | unknownType (name : String)
  | noArguments (name : String)
  | expectedFieldName
  | duplicateField (name : String)
  | expectedFieldEnd
deriving DecidableEq, Repr

def TypeCause.message : TypeCause → String
  | unexpectedAfter c => "Unexpected '" ++ c.toString ++ "' after type"
  | unexpected c => "Unexpected '" ++ c.toString ++ "' in type"
  | expectedType => "Expected a type"
  | expectedChar wanted (some c) =>
    "Expected '" ++ wanted.toString ++ "' but found '" ++ c.toString ++ "'"
  | expectedChar wanted none => "Expected '" ++ wanted.toString ++ "' but reached end of type"
  | expectedSegment => "Expected identifier after '.'"
  | unknownType name => "Unknown type '" ++ name ++ "'"
  | noArguments name => "Type '" ++ name ++ "' does not take type arguments"
  | expectedFieldName => "Expected record field name"
  | duplicateField name => "Duplicate record field '" ++ name ++ "'"
  | expectedFieldEnd => "Expected ',' or ']' in record type"

/-- Why a text is no type expression; columns count characters from one. -/
structure TypeError where
  cause : TypeCause
  column : Nat
deriving DecidableEq, Repr

def TypeError.text (e : TypeError) : String :=
  e.cause.message ++ " (at column " ++ toString e.column ++ ")"

namespace Ty.Reader

/-- A complaint, and the length of the text left at its place. -/
abbrev Complaint := TypeCause × Nat

/-- Reading may fail, and has unions built either way, which the state keeps. -/
abbrev Reading (σ : Type) := ExceptT Complaint (StateM σ)

section

variable {σ : Type}

/-- Complain about the place where `left` is left. -/
def fail {α : Type} (cause : TypeCause) (left : List Char) : Reading σ α :=
  throw (cause, left.length)

/-- Take the character `wanted` after white space. -/
def expect (wanted : Char) (cs : List Char) : Reading σ (List Char) :=
  match trimStart cs with
  | c :: rest =>
    if c = wanted then pure rest else fail (.expectedChar wanted (some c)) (c :: rest)
  | [] => fail (.expectedChar wanted none) []

/-! ### Names -/

/-- The rest of a dotted name: segments after single dots, without white
    space.  The rest of the text is shorter in each step, so its length bounds
    the number of segments. -/
def readSegments : Nat → List Char → Reading σ (List Char × List Char)
  | n + 1, '.' :: cs =>
    let segment := cs.takeWhile isNamePart
    if segment.isEmpty then fail .expectedSegment cs
    else do
      let (more, rest) ← readSegments n (cs.dropWhile isNamePart)
      pure ('.' :: segment ++ more, rest)
  | _, cs => pure ([], cs)

/-- The dotted name at the start of a text. -/
def readName (cs : List Char) : Reading σ (String × List Char) := do
  let (more, rest) ← readSegments cs.length (cs.dropWhile isNamePart)
  pure (String.ofList (cs.takeWhile isNamePart ++ more), rest)

/-! ### Types -/

variable (find? : String → Option Ty) (join : List Ty → StateM σ Ty)

mutual

/-- One or more alternatives; more than one make a union. -/
def readAlternatives : Nat → List Char → Reading σ (Ty × List Char)
  | 0, cs => fail .expectedType cs
  | n + 1, cs => do
    let (first, rest) ← readAlternative n cs
    let (others, rest) ← readOthers n rest
    if others.isEmpty then pure (first, rest)
    else
      let ty ← join (first :: others)
      pure (ty, rest)

/-- The alternatives after the first, each after a `|`. -/
def readOthers : Nat → List Char → Reading σ (List Ty × List Char)
  | 0, cs => fail .expectedType cs
  | n + 1, cs =>
    match trimStart cs with
    | '|' :: rest => do
      let (ty, rest) ← readAlternative n rest
      let (others, rest) ← readOthers n rest
      pure (ty :: others, rest)
    | rest => pure ([], rest)

def readAlternative : Nat → List Char → Reading σ (Ty × List Char)
  | 0, cs => fail .expectedType cs
  | n + 1, cs =>
    match trimStart cs with
    | [] => fail .expectedType []
    | '?' :: rest => pure (.unknown, rest)
    | '[' :: rest =>
      match trimStart rest with
      | ']' :: rest => pure (.record [], rest)
      | rest => readFields n [] rest
    | c :: cs => do
      let left := c :: cs
      unless isNameStart c do fail (.unexpected c) left
      let (name, rest) ← readName left
      match trimStart rest with
      | '<' :: rest =>
        if name = "list" then
          let (element, rest) ← readAlternatives n rest
          let rest ← expect '>' rest
          pure (.list element, rest)
        else if name = "map" then
          let (key, rest) ← readAlternatives n rest
          let rest ← expect ',' rest
          let (value, rest) ← readAlternatives n rest
          let rest ← expect '>' rest
          pure (.map key value, rest)
        else fail (.noArguments name) left
      | rest =>
        match find? name with
        | some ty => pure (ty, rest)
        | none => fail (.unknownType name) left

/-- The fields of a record up to its closing bracket; `fields` are those
    before. -/
def readFields : Nat → Fields → List Char → Reading σ (Ty × List Char)
  | 0, _, cs => fail .expectedType cs
  | n + 1, fields, cs => do
    let left := trimStart cs
    let name := String.ofList (left.takeWhile isNamePart)
    if name.isEmpty then fail .expectedFieldName left
    let rest ← expect ':' (left.dropWhile isNamePart)
    let (ty, rest) ← readAlternatives n rest
    if (Fields.type? fields name).isSome then fail (.duplicateField name) left
    let fields := Fields.insert name ty fields
    match trimStart rest with
    | ',' :: rest => readFields n fields rest
    | ']' :: rest => pure (.record fields, rest)
    | rest => fail .expectedFieldEnd rest

end

def readAll (cs : List Char) : Reading σ Ty := do
  let (ty, rest) ← readAlternatives find? join (2 * cs.length + 2) cs
  match trimStart rest with
  | [] => pure ty
  | c :: rest => fail (.unexpectedAfter c) (c :: rest)

end

end Ty.Reader

namespace TypeRegistry

/-- The union of some types, asked of the registry. -/
def askUnion (types : List Ty) : StateM TypeRegistry Ty := modifyGet (·.union types)

/-- The type that a type expression denotes, and the registry after reading it.  The registry
    keeps the unions built before a complaint, too. -/
def read (registry : TypeRegistry) (source : List Char) :
    Except TypeError Ty × TypeRegistry :=
  let (outcome, after) := (Ty.Reader.readAll registry.find? askUnion source).run.run registry
  let outcome := match outcome with
    | .ok ty => .ok ty
    | .error (cause, left) => .error ⟨cause, source.length - left + 1⟩
  (outcome, after)

end TypeRegistry

end Stencil
