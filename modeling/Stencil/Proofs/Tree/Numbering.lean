/-
  Stencil/Proofs/Tree/Numbering.lean
  ==================================
  **Placing gives every node an identity of its own.**

  Numbering from `next` on uses the numbers from `next` to the next free one,
  each once.  The parts of a message draw from two ranges at a time, one for the
  statements and one for what wraps them, which meet when the message is
  complete.  Linking keeps the numbers, and the own key of a placeholder becomes
  the identity of the call in it.
-/
import Mathlib.Data.List.Perm.Basic
import Stencil.Proofs.Tree.Gist
import Stencil.Proofs.Tree.Placing

namespace Stencil.Tree

variable {α : Type}

/-! ### Numbering step by step -/

section Equations

variable (next inner outer line : Nat) (content : Content) (children rest : List Draft) (t : Draft)

theorem number_of_holdsParts (h : content.holdsParts) :
    number next (node line content children) =
      (node (next, line) content
          (numberParts (next + 1) (next + 1 + wrappedAll children) children).1,
        (numberParts (next + 1) (next + 1 + wrappedAll children) children).2.2) := by
  rw [number, if_pos h]

theorem number_of_not_holdsParts (h : ¬ content.holdsParts) :
    number next (node line content children) =
      (node (next, line) content (numberAll (next + 1) children).1,
        (numberAll (next + 1) children).2) := by
  rw [number, if_neg h]

theorem numberAll_cons :
    numberAll next (t :: rest) =
      ((number next t).1 :: (numberAll (number next t).2 rest).1,
        (numberAll (number next t).2 rest).2) := by
  rw [numberAll]

theorem numberPart_of_wraps (h : content.wraps) :
    numberPart inner outer (node line content children) =
      (node ((numberParts inner outer children).2.2, line) content
          (numberParts inner outer children).1,
        (numberParts inner outer children).2.1, (numberParts inner outer children).2.2 + 1) := by
  rw [numberPart, if_pos h]

theorem numberPart_of_not_wraps (h : ¬ content.wraps) :
    numberPart inner outer (node line content children) =
      (node (inner, line) content (numberAll (inner + 1) children).1,
        (numberAll (inner + 1) children).2, outer) := by
  rw [numberPart, if_neg h]

theorem numberParts_cons :
    numberParts inner outer (t :: rest) =
      ((numberPart inner outer t).1 ::
          (numberParts (numberPart inner outer t).2.1 (numberPart inner outer t).2.2 rest).1,
        (numberParts (numberPart inner outer t).2.1 (numberPart inner outer t).2.2 rest).2) := by
  rw [numberParts]

end Equations

/-! ### Numbering keeps the draft -/

mutual

theorem map_number (next : NodeId) : (t : Draft) → (number next t).1.map Prod.snd = t
  | node line content children => by
    rw [number]
    split
    · rw [map, mapAll_numberParts]
    · rw [map, mapAll_numberAll]

theorem mapAll_numberAll (next : NodeId) :
    (ts : List Draft) → mapAll Prod.snd (numberAll next ts).1 = ts
  | [] => rfl
  | t :: rest => by rw [numberAll, mapAll, map_number next t, mapAll_numberAll _ rest]

theorem map_numberPart (inner outer : NodeId) :
    (t : Draft) → (numberPart inner outer t).1.map Prod.snd = t
  | node line content children => by
    rw [numberPart]
    split
    · rw [map, mapAll_numberParts]
    · rw [map, mapAll_numberAll]

theorem mapAll_numberParts (inner outer : NodeId) :
    (ts : List Draft) → mapAll Prod.snd (numberParts inner outer ts).1 = ts
  | [] => rfl
  | t :: rest => by rw [numberParts, mapAll, map_numberPart, mapAll_numberParts _ _ rest]

end

/-! ### Which numbers are free -/

mutual

/-- The number of nodes in a part of a message that belong to its wrapping. -/
def wrapping : Tree α → Nat
  | node _ content children => if content.wraps then wrappingAll children + 1 else 0

/-- The number of nodes in several parts of a message that belong to the
    wrapping. -/
def wrappingAll : List (Tree α) → Nat
  | [] => 0
  | t :: rest => wrapping t + wrappingAll rest

end

mutual

theorem wrapped_add_wrapping : (t : Tree α) → t.wrapped + t.wrapping = t.size
  | node mark content children => by
    have hchildren := wrappedAll_add_wrappingAll children
    rw [wrapped, wrapping, size]
    split <;> omega

theorem wrappedAll_add_wrappingAll :
    (ts : List (Tree α)) → wrappedAll ts + wrappingAll ts = sizeAll ts
  | [] => rfl
  | t :: rest => by
    have ht := wrapped_add_wrapping t
    have hrest := wrappedAll_add_wrappingAll rest
    rw [wrappedAll, wrappingAll, sizeAll]
    omega

end

mutual

theorem number_free (next : NodeId) : (t : Draft) → (number next t).2 = next + t.size
  | node line content children => by
    rw [size, Nat.add_comm (sizeAll children), ← Nat.add_assoc]
    by_cases h : content.holdsParts
    · rw [number_of_holdsParts _ _ _ _ h, numberParts_free, ← wrappedAll_add_wrappingAll,
        ← Nat.add_assoc]
    · rw [number_of_not_holdsParts _ _ _ _ h, numberAll_free]

theorem numberAll_free (next : NodeId) :
    (ts : List Draft) → (numberAll next ts).2 = next + sizeAll ts
  | [] => rfl
  | t :: rest => by
    rw [numberAll_cons, sizeAll, ← Nat.add_assoc, ← number_free next t]
    exact numberAll_free _ rest

theorem numberPart_free (inner outer : NodeId) :
    (t : Draft) → (numberPart inner outer t).2 = (inner + t.wrapped, outer + t.wrapping)
  | node line content children => by
    rw [wrapped, wrapping]
    by_cases h : content.wraps
    · rw [numberPart_of_wraps _ _ _ _ _ h, numberParts_free, if_pos h, if_pos h, Nat.add_assoc]
    · rw [numberPart_of_not_wraps _ _ _ _ _ h, numberAll_free, if_neg h, if_neg h,
        Nat.add_comm (sizeAll children), ← Nat.add_assoc]
      rfl

theorem numberParts_free (inner outer : NodeId) :
    (ts : List Draft) →
      (numberParts inner outer ts).2 = (inner + wrappedAll ts, outer + wrappingAll ts)
  | [] => rfl
  | t :: rest => by
    rw [numberParts_cons, numberPart_free, numberParts_free, wrappedAll, wrappingAll,
      ← Nat.add_assoc, ← Nat.add_assoc]

end

/-! ### Which numbers are used -/

/-- The numbers of the nodes of numbered trees. -/
def numbers (ts : List Numbered) : List NodeId := (preorderAll ts).map (·.mark.1)

theorem numbers_node (id : NodeId) (line : Nat) (content : Content) (children : List Numbered) :
    numbers [node (id, line) content children] = id :: numbers children := by
  rw [numbers, preorderAll, preorderAll, List.append_nil, preorder, List.map_cons]
  rfl

theorem numbers_cons (t : Numbered) (rest : List Numbered) :
    numbers (t :: rest) = numbers [t] ++ numbers rest := by
  rw [numbers, numbers, numbers, preorderAll, preorderAll, preorderAll, List.append_nil,
    List.map_append]

theorem append_perm_swap {l₁ l₂ m₁ m₂ l m : List NodeId} (h₁ : l.Perm (l₁ ++ l₂))
    (h₂ : m.Perm (m₁ ++ m₂)) : (l ++ m).Perm ((l₁ ++ m₁) ++ (l₂ ++ m₂)) := by
  refine (h₁.append h₂).trans ?_
  rw [List.append_assoc, List.append_assoc]
  exact (List.perm_append_comm_assoc l₂ m₁ m₂).append_left l₁

mutual

theorem numbers_number (next : NodeId) : (t : Draft) →
    (numbers [(number next t).1]).Perm (List.range' next t.size)
  | node line content children => by
    rw [size, List.range'_succ]
    by_cases h : content.holdsParts
    · rw [number_of_holdsParts _ _ _ _ h, numbers_node, ← wrappedAll_add_wrappingAll,
        ← List.range'_append_1]
      exact (numbers_numberParts _ _ children).cons next
    · rw [number_of_not_holdsParts _ _ _ _ h, numbers_node]
      exact (numbers_numberAll _ children).cons next

theorem numbers_numberAll (next : NodeId) : (ts : List Draft) →
    (numbers (numberAll next ts).1).Perm (List.range' next (sizeAll ts))
  | [] => List.Perm.refl _
  | t :: rest => by
    rw [numberAll_cons, numbers_cons, sizeAll, ← List.range'_append_1, ← number_free next t]
    exact (numbers_number next t).append (numbers_numberAll _ rest)

theorem numbers_numberPart (inner outer : NodeId) : (t : Draft) →
    (numbers [(numberPart inner outer t).1]).Perm
      (List.range' inner t.wrapped ++ List.range' outer t.wrapping)
  | node line content children => by
    rw [wrapped, wrapping]
    by_cases h : content.wraps
    · rw [numberPart_of_wraps _ _ _ _ _ h, numbers_node, if_pos h, if_pos h,
        List.range'_1_concat, ← List.append_assoc, numberParts_free]
      exact ((numbers_numberParts inner outer children).cons _).trans
        (List.perm_append_singleton _ _).symm
    · rw [numberPart_of_not_wraps _ _ _ _ _ h, numbers_node, if_neg h, if_neg h,
        List.range'_zero, List.append_nil, List.range'_succ]
      exact (numbers_numberAll _ children).cons inner

theorem numbers_numberParts (inner outer : NodeId) : (ts : List Draft) →
    (numbers (numberParts inner outer ts).1).Perm
      (List.range' inner (wrappedAll ts) ++ List.range' outer (wrappingAll ts))
  | [] => List.Perm.refl _
  | t :: rest => by
    rw [numberParts_cons, numbers_cons, wrappedAll, wrappingAll, numberPart_free,
      ← List.range'_append_1, ← List.range'_append_1]
    -- statements with statements, wrapping with wrapping
    exact append_perm_swap (numbers_numberPart inner outer t) (numbers_numberParts _ _ rest)

end

/-! ### Linking -/

mutual

theorem ids_link (loc : Nat → Location) (parent : Option NodeId) :
    (t : Numbered) → ids (link loc parent t) = numbers [t]
  | node (id, line) content children => by
    rw [link, ids, preorder, List.map_cons, numbers_node, ids_linkAll loc (some id) children]
    rfl

theorem ids_linkAll (loc : Nat → Location) (parent : Option NodeId) :
    (ts : List Numbered) → (preorderAll (linkAll loc parent ts)).map id = numbers ts
  | [] => rfl
  | t :: rest => by
    rw [linkAll, preorderAll, List.map_append, numbers_cons, ids_linkAll loc parent rest,
      ← ids_link loc parent t]
    rfl

end

/-- Placed statements have the numbers from `next` to the next free one, each
    once. -/
theorem ids_placed (loc : Nat → Location) (parent : Option NodeId) (next : NodeId)
    (ts : List Draft) :
    ((preorderAll (linkAll loc parent (numberAll next ts).1)).map id).Perm
      (List.range' next (sizeAll ts)) := by
  rw [ids_linkAll]
  exact numbers_numberAll next ts

theorem nodup_ids_placed (loc : Nat → Location) (parent : Option NodeId) (next : NodeId)
    (ts : List Draft) :
    ((preorderAll (linkAll loc parent (numberAll next ts).1)).map id).Nodup :=
  (ids_placed loc parent next ts).nodup_iff.2 List.nodup_range'

theorem gist_claimKey (content : Content) (children : List Numbered) :
    (claimKey content children).gist = content.gist := by
  cases content with
  | placeholder name key => cases key <;> cases children <;> rfl
  | _ => rfl

mutual

theorem gist_link (loc : Nat → Location) (parent : Option NodeId) :
    (t : Numbered) → (link loc parent t).gist = t.gist
  | node (id, line) content children => by
    rw [link, gist, gist, gist_claimKey, gistAll_linkAll loc (some id) children]

theorem gistAll_linkAll (loc : Nat → Location) (parent : Option NodeId) :
    (ts : List Numbered) → gistAll (linkAll loc parent ts) = gistAll ts
  | [] => rfl
  | t :: rest => by
    rw [linkAll, gistAll, gistAll, gist_link loc parent t, gistAll_linkAll loc parent rest]

end

/-- Placing keeps what the statements say. -/
theorem gistAll_placed (loc : Nat → Location) (parent : Option NodeId) (next : NodeId)
    (ts : List Draft) : gistAll (linkAll loc parent (numberAll next ts).1) = gistAll ts := by
  rw [gistAll_linkAll, ← gistAll_mapAll Prod.snd, mapAll_numberAll]

/-- The own key of a placeholder is the identity of the call in it. -/
def ClaimsCall (n : Node) : Prop :=
  ∀ name key call rest, n.content = .placeholder name (.own key) → n.children = call :: rest →
    key = call.id

theorem claimsCall_link (loc : Nat → Location) (parent : Option NodeId) (t : Numbered) :
    ClaimsCall (link loc parent t) := by
  obtain ⟨⟨id, line⟩, content, children⟩ := t
  intro name key call rest hcontent hchildren
  rw [link, content_node] at hcontent
  rw [link, children_node] at hchildren
  cases children with
  | nil => rw [linkAll] at hchildren; cases hchildren
  | cons first others =>
    rw [linkAll, List.cons.injEq] at hchildren
    obtain ⟨rfl, -⟩ := hchildren
    obtain ⟨⟨id', line'⟩, content', children'⟩ := first
    cases content with
    | placeholder name' key' =>
      cases key' with
      | shared text => simp [claimKey] at hcontent
      | own call =>
        rw [claimKey, Content.placeholder.injEq, PlaceholderKey.own.injEq] at hcontent
        rw [← hcontent.2]
        rfl
    | _ => simp [claimKey] at hcontent

mutual

theorem claimsCall_of_mem_link (loc : Nat → Location) (parent : Option NodeId) {n : Node} :
    (t : Numbered) → n ∈ (link loc parent t).preorder → ClaimsCall n
  | node (id, line) content children, hn => by
    rcases mem_preorder_iff.1 hn with rfl | hn
    · exact claimsCall_link loc parent _
    · rw [link, children_node] at hn
      exact claimsCall_of_mem_linkAll loc (some id) children hn

theorem claimsCall_of_mem_linkAll (loc : Nat → Location) (parent : Option NodeId) {n : Node} :
    (ts : List Numbered) → n ∈ preorderAll (linkAll loc parent ts) → ClaimsCall n
  | t :: rest, hn => by
    rw [linkAll, preorderAll, List.mem_append] at hn
    rcases hn with hn | hn
    · exact claimsCall_of_mem_link loc parent t hn
    · exact claimsCall_of_mem_linkAll loc parent rest hn

end

end Stencil.Tree
