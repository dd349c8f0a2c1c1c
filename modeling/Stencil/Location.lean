/-
  Stencil/Location.lean
  =====================
  **Places in template files.**

  A place is a line of a file.  Line 0 stands for the file as a whole, and a
  place without a path is unknown whatever its line.
-/

namespace Stencil

/-- A line of the file at `path`; lines count from one, and 0 is the whole
    file. -/
structure Location where
  path : Option String := none
  line : Nat := 0
deriving DecidableEq, Repr

namespace Location

/-- The place that nothing is known about. -/
def unknown : Location := {}

/-- The file at `path` as a whole. -/
def ofFile (path : String) : Location := ⟨some path, 0⟩

/-- A place is known when its file is. -/
def isKnown (loc : Location) : Bool := loc.path.isSome

def atLine (loc : Location) (line : Nat) : Location := { loc with line }

/-- The place `count` lines further down. -/
def down (loc : Location) (count : Nat) : Location := loc.atLine (loc.line + count)

def text (loc : Location) : String :=
  match loc.path, loc.line with
  | none, _ => "unknown location"
  | some path, 0 => path
  | some path, line => path ++ ":" ++ toString line

end Location

end Stencil
