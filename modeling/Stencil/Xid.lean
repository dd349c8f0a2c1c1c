/-
  Stencil/Xid.lean
  ================
  **Renaming identifiers in the output.**

  A renaming map gives new names to some identifiers.  An identifier remembers
  the map that last had a name for it, and that name, so that asking again
  with the same map does not look it up again; a copy remembers nothing.
-/

namespace Stencil

/-- New names for identifiers; `id` tells maps apart. -/
structure RenamingMap where
  id : Nat
  entries : List (String × String)
deriving DecidableEq, Repr

namespace RenamingMap

/-- The new name for an identifier; of several the last counts. -/
def find? (map : RenamingMap) (name : String) : Option String := map.entries.reverse.lookup name

end RenamingMap

/-- An identifier that is renamed in the output, with the map that last had a
    name for it and that name. -/
structure Xid where
  text : String
  memo : Option (Nat × String) := none
deriving DecidableEq, Repr

/-- The outcome of renaming an identifier: the name, the identifier afterwards,
    and whether the map was looked into. -/
structure Renamed where
  name : String
  xid : Xid
  lookedUp : Bool
deriving DecidableEq, Repr

namespace Xid

/-- A copy of an identifier. -/
def copy (x : Xid) : Xid := { text := x.text }

/-- The name remembered for a map. -/
def remembered? (x : Xid) (map : RenamingMap) : Option String :=
  x.memo.bind fun (id, name) => if id = map.id then some name else none

/-- The name of an identifier under a map, or without one. -/
def rename (x : Xid) : Option RenamingMap → Renamed
  | none => ⟨x.text, x, false⟩
  | some map =>
    match x.remembered? map with
    | some name => ⟨name, x, false⟩
    | none =>
      match map.find? x.text with
      | some name => ⟨name, { x with memo := some (map.id, name) }, true⟩
      | none => ⟨x.text, x, true⟩

end Xid

/-! ### Histories -/

/-- Something done with one of several identifiers: rename it, or add a copy of
    it. -/
inductive XidStep where
  | rename (index : Nat) (map : Option RenamingMap)
  | copy (index : Nat)
deriving DecidableEq, Repr

/-- The answer to a step: a name and whether the map was looked into, or the
    index of the copy. -/
inductive XidAnswer where
  | name (text : String) (lookedUp : Bool)
  | copied (index : Nat)
deriving DecidableEq, Repr

namespace XidStep

/-- The answer to a step and the identifiers after it; none for an index that
    does not exist. -/
def run (xids : List Xid) : XidStep → Option (XidAnswer × List Xid)
  | rename index map =>
    xids[index]?.map fun x =>
      let renamed := x.rename map
      (.name renamed.name renamed.lookedUp, xids.set index renamed.xid)
  | copy index => xids[index]?.map fun x => (.copied xids.length, xids ++ [x.copy])

end XidStep

end Stencil
