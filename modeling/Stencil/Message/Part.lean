/-
  Stencil/Message/Part.lean
  =========================
  **The parts of a message**: text, placeholders, plurals and selects.

  The placeholders of a message are those among its parts and those in the
  cases of its plural or select.  What stands inside a placeholder belongs to
  the statement there, so a message nested in a call keeps its placeholders
  to itself.
-/
import Stencil.Tree.Basic

namespace Stencil.Message

variable {α : Type}

def placeholderName? (part : Tree α) : Option String :=
  match part.content with
  | .placeholder name _ => some name
  | _ => none

/-! ### Placeholders in the order of the text -/

mutual

/-- The placeholders in a part of a message. -/
def partPlaceholders : Tree α → List (Tree α)
  | .node mark content children =>
    match content with
    | .placeholder _ _ => [.node mark content children]
    | .plural _ _ _ | .select _ _ | .case _ => placeholders children
    | _ => []

/-- The placeholders in a list of parts. -/
def placeholders : List (Tree α) → List (Tree α)
  | [] => []
  | part :: rest => partPlaceholders part ++ placeholders rest

end

/-! ### Placeholders by name -/

mutual

/-- Names with those of the placeholders in a part of a message added, each where it
    is met for the first time. -/
def collectPartNames : List String → Tree α → List String
  | names, .node _ content children =>
    match content with
    | .placeholder name _ => if names.contains name then names else names ++ [name]
    | .plural _ _ _ | .select _ _ | .case _ => collectNames names children
    | _ => names

/-- Names with those of the placeholders in a list of parts added. -/
def collectNames : List String → List (Tree α) → List String
  | names, [] => names
  | names, part :: rest => collectNames (collectPartNames names part) rest

end

/-- The names of the placeholders in the order of first appearance, each
    once. -/
def placeholderNames (body : List (Tree α)) : List String := collectNames [] body

mutual

/-- The first placeholder with a name in a part of a message. -/
def partPlaceholder? : Tree α → String → Option (Tree α)
  | .node mark content children, name =>
    match content with
    | .placeholder other _ => if other = name then some (.node mark content children) else none
    | .plural _ _ _ | .select _ _ | .case _ => placeholder? children name
    | _ => none

/-- The first placeholder with a name; it stands for all that share the name. -/
def placeholder? : List (Tree α) → String → Option (Tree α)
  | [], _ => none
  | part :: rest, name => (partPlaceholder? part name).or (placeholder? rest name)

end

/-! ### Changing placeholders -/

mutual

/-- A part with `f` applied to the contents of its placeholders. -/
def mapPlaceholder (f : Content → Content) : Tree α → Tree α
  | .node mark content children =>
    match content with
    | .placeholder _ _ => .node mark (f content) children
    | .plural _ _ _ | .select _ _ | .case _ => .node mark content (mapPlaceholders f children)
    | _ => .node mark content children

/-- Parts with `f` applied to the contents of their placeholders. -/
def mapPlaceholders (f : Content → Content) : List (Tree α) → List (Tree α)
  | [] => []
  | part :: rest => mapPlaceholder f part :: mapPlaceholders f rest

end

/-! ### Messages -/

/-- A message body that is a plural or select and nothing else. -/
def isChoiceBody (body : List (Tree α)) : Bool :=
  match body with
  | [part] => part.content.isChoice
  | _ => false

end Stencil.Message
