/-
  Stencil/Tree/Walk.lean
  ======================
  **Walking through the statements of a template.**

  The child blocks of a statement are the lists of statements below it, from
  the branches of a conditional to the insides of placeholders.  A walk visits
  each statement of a block and then the statements of its child blocks.
-/
import Stencil.Tree.Basic

namespace Stencil.Tree

variable {α : Type}

/-! ### Child blocks -/

mutual

/-- The blocks in a part of a message: the inside of each placeholder, also of
    those in the cases of a plural or select. -/
def partBlocks : Tree α → List (List (Tree α))
  | node _ content children =>
    match content with
    | .placeholder _ _ => [children]
    | .msg _ _ _ | .plural _ _ _ | .select _ _ | .case _ => partBlocksAll children
    | _ => []

/-- The blocks in several parts of messages. -/
def partBlocksAll : List (Tree α) → List (List (Tree α))
  | [] => []
  | t :: rest => partBlocks t ++ partBlocksAll rest

end

/-- The lists of statements right below a statement. -/
def childBlocks (t : Tree α) : List (List (Tree α)) :=
  match t.content with
  | .conditional => t.children.map children
  | .call _ _ =>
    t.children.filterMap fun param =>
      match param.content with
      | .contentParam _ _ => some param.children
      | _ => none
  | .msgGroup => partBlocksAll t.children
  | .htmlTag _ _ _ => [t.children]
  | _ => []

/-! ### Blocks hold smaller trees -/

mutual

theorem size_lt_of_mem_partBlocks :
    (t : Tree α) → {block : List (Tree α)} → block ∈ partBlocks t →
      {s : Tree α} → s ∈ block → s.size < t.size
  | node _ content children, block, hb, s, hs => by
    cases content <;> simp [partBlocks] at hb
    case placeholder =>
      subst hb
      exact size_lt_of_mem_children (t := node _ _ _) hs
    all_goals
      have := size_lt_of_mem_partBlocksAll children hb hs
      simp only [size]
      omega

theorem size_lt_of_mem_partBlocksAll :
    (ts : List (Tree α)) → {block : List (Tree α)} → block ∈ partBlocksAll ts →
      {s : Tree α} → s ∈ block → s.size < sizeAll ts
  | [], block, hb, s, hs => by simp [partBlocksAll] at hb
  | t :: rest, block, hb, s, hs => by
    simp only [partBlocksAll, List.mem_append] at hb
    simp only [sizeAll]
    rcases hb with hb | hb
    · have := size_lt_of_mem_partBlocks t hb hs
      omega
    · have := size_lt_of_mem_partBlocksAll rest hb hs
      omega

end

theorem size_lt_of_mem_childBlocks {t s : Tree α} {block : List (Tree α)}
    (hb : block ∈ childBlocks t) (hs : s ∈ block) : s.size < t.size := by
  obtain ⟨m, content, children⟩ := t
  cases content <;> simp [childBlocks] at hb
  case conditional =>
    obtain ⟨branch, hbranch, rfl⟩ := hb
    have := size_lt_of_mem_children (t := node m .conditional children) hbranch
    have := size_lt_of_mem_children hs
    omega
  case call target data =>
    obtain ⟨param, hparam, h⟩ := hb
    have := size_lt_of_mem_children (t := node m (.call target data) children) hparam
    split at h <;> simp at h
    subst h
    have := size_lt_of_mem_children hs
    omega
  case msgGroup =>
    have := size_lt_of_mem_partBlocksAll children hb hs
    simp only [size]
    omega
  case htmlTag =>
    subst hb
    exact size_lt_of_mem_children (t := node m _ _) hs

/-! ### The walk -/

/-- A statement and the statements below it, in the order of the text. -/
def walk (t : Tree α) : List (Tree α) :=
  t :: t.childBlocks.flatten.attach.flatMap fun s => walk s.1
termination_by t.size
decreasing_by
  obtain ⟨s, hs⟩ := s
  obtain ⟨block, hb, hs⟩ := List.mem_flatten.1 hs
  exact size_lt_of_mem_childBlocks hb hs

/-- The statements of a block and all below them, in the order of the text. -/
def walkBlock (block : List (Tree α)) : List (Tree α) := block.flatMap walk

/-- The calls among the statements of a block and all below them. -/
def calls (block : List (Tree α)) : List (Tree α) :=
  (walkBlock block).filter (·.content.isCall)

/-- The message groups among the statements of a block and all below them. -/
def msgGroups (block : List (Tree α)) : List (Tree α) :=
  (walkBlock block).filter (·.content.isMsgGroup)

end Stencil.Tree
