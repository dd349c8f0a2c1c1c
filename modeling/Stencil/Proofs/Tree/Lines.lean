/-
  Stencil/Proofs/Tree/Lines.lean
  ==============================
  **Trees on other lines.**

  Placing takes the line of a node over and looks at no line, so the same draft on
  other lines is placed with the same identities (`linkAll_numberAll_mapAll`).
-/
import Stencil.Proofs.Tree.Nodes
import Stencil.Proofs.Tree.Numbering

namespace Stencil

/-- The place with its line changed. -/
def Location.mapLine (f : Nat → Nat) (loc : Location) : Location := loc.atLine (f loc.line)

/-- The mark with the line of its place changed. -/
def Mark.mapLine (f : Nat → Nat) (m : Mark) : Mark := { m with loc := m.loc.mapLine f }

namespace Tree

variable {α β γ : Type}

/-! ### Maps -/

mutual

theorem map_map (g : β → γ) (f : α → β) : (t : Tree α) → (t.map f).map g = t.map (g ∘ f)
  | node mark content children => by
    rw [map, map, map, mapAll_mapAll g f children, Function.comp_apply]

theorem mapAll_mapAll (g : β → γ) (f : α → β) :
    (ts : List (Tree α)) → mapAll g (mapAll f ts) = mapAll (g ∘ f) ts
  | [] => rfl
  | t :: rest => by rw [mapAll, mapAll, mapAll, map_map g f t, mapAll_mapAll g f rest]

end

mutual

/-- Maps that agree on all marks of a tree give the same tree. -/
theorem map_congr {f g : α → β} : (t : Tree α) → (t.Each fun n => f n.mark = g n.mark) →
    t.map f = t.map g
  | node mark content children, h => by
    have hmark : f mark = g mark := h.root
    rw [map, map, hmark, mapAll_congr children fun k hk => h.child hk]

theorem mapAll_congr {f g : α → β} : (ts : List (Tree α)) →
    (∀ t ∈ ts, t.Each fun n => f n.mark = g n.mark) → mapAll f ts = mapAll g ts
  | [], _ => rfl
  | t :: rest, h => by
    obtain ⟨ht, hrest⟩ := List.forall_mem_cons.1 h
    rw [mapAll, mapAll, map_congr t ht, mapAll_congr rest hrest]

end

/-! ### Numbering -/

mutual

theorem wrapped_map (f : α → β) : (t : Tree α) → (t.map f).wrapped = t.wrapped
  | node mark content children => by
    rw [map, wrapped, wrapped, wrappedAll_mapAll f children, sizeAll_mapAll f children]

theorem wrappedAll_mapAll (f : α → β) :
    (ts : List (Tree α)) → wrappedAll (mapAll f ts) = wrappedAll ts
  | [] => rfl
  | t :: rest => by rw [mapAll, wrappedAll, wrappedAll, wrapped_map f t, wrappedAll_mapAll f rest]

theorem size_map (f : α → β) : (t : Tree α) → (t.map f).size = t.size
  | node mark content children => by rw [map, size, size, sizeAll_mapAll f children]

theorem sizeAll_mapAll (f : α → β) : (ts : List (Tree α)) → sizeAll (mapAll f ts) = sizeAll ts
  | [] => rfl
  | t :: rest => by rw [mapAll, sizeAll, sizeAll, size_map f t, sizeAll_mapAll f rest]

end

/-- The identity and line of a numbered node, with its line changed. -/
def onLine (f : Nat → Nat) (mark : NodeId × Nat) : NodeId × Nat := (mark.1, f mark.2)

variable (f : Nat → Nat)

mutual

theorem number_map (next : NodeId) : (t : Draft) →
    number next (t.map f) = ((number next t).1.map (onLine f), (number next t).2)
  | node line content children => by
    by_cases hparts : content.holdsParts
    · rw [map, number_of_holdsParts _ _ _ _ hparts, number_of_holdsParts _ _ _ _ hparts,
        wrappedAll_mapAll, numberParts_mapAll _ _ children]
      rfl
    · rw [map, number_of_not_holdsParts _ _ _ _ hparts, number_of_not_holdsParts _ _ _ _ hparts,
        numberAll_mapAll _ children]
      rfl

theorem numberAll_mapAll (next : NodeId) : (ts : List Draft) →
    numberAll next (mapAll f ts) =
      (mapAll (onLine f) (numberAll next ts).1, (numberAll next ts).2)
  | [] => rfl
  | t :: rest => by
    rw [mapAll, numberAll_cons, numberAll_cons, number_map next t, numberAll_mapAll _ rest]
    rfl

theorem numberPart_map (inner outer : NodeId) : (t : Draft) →
    numberPart inner outer (t.map f) =
      ((numberPart inner outer t).1.map (onLine f), (numberPart inner outer t).2)
  | node line content children => by
    by_cases hwraps : content.wraps
    · rw [map, numberPart_of_wraps _ _ _ _ _ hwraps, numberPart_of_wraps _ _ _ _ _ hwraps,
        numberParts_mapAll _ _ children]
      rfl
    · rw [map, numberPart_of_not_wraps _ _ _ _ _ hwraps, numberPart_of_not_wraps _ _ _ _ _ hwraps,
        numberAll_mapAll _ children]
      rfl

theorem numberParts_mapAll (inner outer : NodeId) : (ts : List Draft) →
    numberParts inner outer (mapAll f ts) =
      (mapAll (onLine f) (numberParts inner outer ts).1, (numberParts inner outer ts).2)
  | [] => rfl
  | t :: rest => by
    rw [mapAll, numberParts_cons, numberParts_cons, numberPart_map inner outer t,
      numberParts_mapAll _ _ rest]
    rfl

end

/-! ### Linking -/

theorem claimKey_mapAll (content : Content) (children : List Numbered) :
    claimKey content (mapAll (onLine f) children) = claimKey content children := by
  cases content with
  | placeholder name key =>
    cases key with
    | shared text => rfl
    | own call =>
      cases children with
      | nil => rfl
      | cons child rest =>
        cases child
        rfl
  | _ => rfl

mutual

theorem link_map {loc : Nat → Location} (hloc : ∀ line, loc (f line) = (loc line).mapLine f)
    (parent : Option NodeId) : (t : Numbered) →
      link loc parent (t.map (onLine f)) = (link loc parent t).map (Mark.mapLine f)
  | node (id, line) content children => by
    rw [map]
    change link loc parent (node (id, f line) content (mapAll (onLine f) children)) = _
    rw [link, link, map, claimKey_mapAll, linkAll_mapAll hloc _ children, hloc]
    rfl

theorem linkAll_mapAll {loc : Nat → Location} (hloc : ∀ line, loc (f line) = (loc line).mapLine f)
    (parent : Option NodeId) : (ts : List Numbered) →
      linkAll loc parent (mapAll (onLine f) ts) = mapAll (Mark.mapLine f) (linkAll loc parent ts)
  | [] => rfl
  | t :: rest => by
    rw [mapAll, linkAll, linkAll, mapAll, link_map hloc parent t, linkAll_mapAll hloc parent rest]

end

/-- The same drafts on other lines are placed with the same identities. -/
theorem linkAll_numberAll_mapAll {loc : Nat → Location}
    (hloc : ∀ line, loc (f line) = (loc line).mapLine f) (parent : Option NodeId) (next : NodeId)
    (ts : List Draft) :
    linkAll loc parent (numberAll next (mapAll f ts)).1 =
        mapAll (Mark.mapLine f) (linkAll loc parent (numberAll next ts).1) ∧
      (numberAll next (mapAll f ts)).2 = (numberAll next ts).2 := by
  rw [numberAll_mapAll, linkAll_mapAll f hloc]
  exact ⟨rfl, rfl⟩

end Tree

end Stencil
