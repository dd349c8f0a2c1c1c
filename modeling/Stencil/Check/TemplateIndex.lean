/-
  Stencil/Check/TemplateIndex.lean
  ================================
  **Finding the templates that a call may reach.**

  Every template has a slot: its name, or for a delegate the name, variant,
  priority and package.  An index holds templates with different slots.  The
  implementations of a delegate with one variant and priority form a division,
  and the divisions of a variant are kept in a list, the highest priority first,
  into which a new division is inserted where its priority belongs.
-/
import Stencil.Check.Table
import Stencil.Template.Basic
import Stencil.Tree.Walk

namespace Stencil

/-! ### Slots -/

/-- What no two templates of a file set may have in common. -/
inductive Slot where
  | basic (name : String)
  | delegate (name variant : String) (priority : Nat) (package : Option String)
deriving DecidableEq, Repr

namespace Template

variable {α : Type}

/-- The delegate that a template implements. -/
def delegate? (t : Template α) : Option Delegate :=
  match t.info.form with
  | .delegate d => some d
  | .basic _ => none

def slot (t : Template α) : Slot :=
  match t.info.form with
  | .basic _ => .basic t.info.name
  | .delegate d => .delegate d.name d.variant d.priority d.package

end Template

/-- A placed template. -/
abbrev PlacedTemplate := Template Mark

/-- Two templates with one slot, the earlier first. -/
structure SlotClash where
  slot : Slot
  first : Location
  second : Location
deriving DecidableEq, Repr

namespace SlotClash

def message (clash : SlotClash) : String :=
  let places := " (" ++ clash.first.text ++ " and " ++ clash.second.text ++ ")"
  match clash.slot with
  | .basic name => "Found two templates named '" ++ name ++ "'" ++ places
  | .delegate name variant _ package =>
    "Found two implementations of delegate '" ++ name ++ "' with variant '" ++ variant ++
      "' in package " ++ package.getD "<default>" ++ places

end SlotClash

/-! ### The index -/

/-- Implementations of a delegate with one variant and priority, by package. -/
structure Division where
  priority : Nat
  byPackage : Table (Option String) PlacedTemplate := {}

namespace Division

/-- The implementations with their packages, in ascending order of package; no package
    comes first. -/
def templates (division : Division) : List (Option String × PlacedTemplate) :=
  division.byPackage.entries

/-- The division with an implementation for a package. -/
def add (division : Division) (package : Option String) (t : PlacedTemplate) : Division :=
  { division with byPackage := division.byPackage.insert package t }

/-- The divisions with one of a priority, and the position of that one.  A new division
    goes before the first one that is not higher. -/
def openAt (priority : Nat) (divisions : List Division) : List Division × Nat :=
  match divisions.findIdx? (·.priority ≤ priority) with
  | some i =>
    if divisions[i]?.any (·.priority == priority) then (divisions, i)
    else (divisions.insertIdx i { priority }, i)
  | none => (divisions ++ [{ priority }], divisions.length)

end Division

/-- A name of a delegate and a variant. -/
structure DelegateKey where
  name : String
  variant : String
deriving DecidableEq, Repr

namespace DelegateKey

/-- Keys are ordered by name, and then by variant. -/
instance : Ord DelegateKey := ⟨compareLex (compareOn name) (compareOn variant)⟩

instance : Std.TransOrd DelegateKey :=
  inferInstanceAs (Std.TransCmp (compareLex (compareOn name) (compareOn variant)))

instance : Std.LawfulEqOrd DelegateKey where
  eq_of_compare {a b} h := by
    obtain ⟨hname, hvariant⟩ := compareLex_eq_eq.1 h
    cases a
    cases b
    cases Std.LawfulEqCmp.eq_of_compare (show compare _ _ = _ from hname)
    cases Std.LawfulEqCmp.eq_of_compare (show compare _ _ = _ from hvariant)
    rfl

end DelegateKey

/-- The templates that calls are resolved to: those with names of their own by name, and
    the divisions of a delegate and a variant, the highest priority first. -/
structure TemplateIndex where
  byName : Table String PlacedTemplate := {}
  byKey : Table DelegateKey (List Division) := {}

namespace TemplateIndex

/-- The divisions of one variant of a delegate. -/
def divisions (index : TemplateIndex) (name variant : String) : List Division :=
  (index.byKey.get? ⟨name, variant⟩).getD []

/-- The index with one more template that has a name of its own, which must be free. -/
def addBasic (index : TemplateIndex) (t : PlacedTemplate) : Except SlotClash TemplateIndex :=
  match index.byName.get? t.info.name with
  | some earlier => .error ⟨t.slot, earlier.mark.loc, t.mark.loc⟩
  | none => .ok { index with byName := index.byName.insert t.info.name t }

/-- The index with one more implementation of a delegate, whose package must be free in
    the division of its priority. -/
def addDelegate (index : TemplateIndex) (d : Delegate) (t : PlacedTemplate) :
    Except SlotClash TemplateIndex :=
  let (divisions, i) := Division.openAt d.priority (index.divisions d.name d.variant)
  match divisions[i]?.bind (·.byPackage.get? d.package) with
  | some earlier => .error ⟨t.slot, earlier.mark.loc, t.mark.loc⟩
  | none =>
    let divisions := divisions.modify i (·.add d.package t)
    .ok { index with byKey := index.byKey.insert ⟨d.name, d.variant⟩ divisions }

/-- The index with one more template, whose slot must be free. -/
def add (index : TemplateIndex) (t : PlacedTemplate) : Except SlotClash TemplateIndex :=
  match t.delegate? with
  | none => index.addBasic t
  | some d => index.addDelegate d t

/-- The index of some templates. -/
def build (templates : List PlacedTemplate) : Except SlotClash TemplateIndex :=
  templates.foldlM add {}

/-- The template with a name of its own. -/
def basic? (index : TemplateIndex) (name : String) : Option PlacedTemplate :=
  index.byName.get? name

/-- The templates with names of their own, in ascending order of name. -/
def basics (index : TemplateIndex) : List PlacedTemplate := index.byName.values

/-- The divisions of a delegate, variant by variant. -/
def allDivisions (index : TemplateIndex) (name : String) : List Division :=
  (index.byKey.entries.filter (·.1.name == name)).flatMap (·.2)

/-- The implementations of a delegate, of all variants. -/
def implementations (index : TemplateIndex) (name : String) : List PlacedTemplate :=
  (index.allDivisions name).flatMap (·.byPackage.values)

/-- All templates of the index. -/
def templates (index : TemplateIndex) : List PlacedTemplate :=
  index.basics ++ index.byKey.values.flatMap fun divisions =>
    divisions.flatMap (·.byPackage.values)

/-- The templates that a call may reach: the one with the name, or every
    implementation of the delegate. -/
def callees (index : TemplateIndex) (target : CallTarget) : List PlacedTemplate :=
  match target with
  | .basic name _ => (index.basic? name).toList
  | .delegate name _ => index.implementations name

end TemplateIndex

end Stencil
