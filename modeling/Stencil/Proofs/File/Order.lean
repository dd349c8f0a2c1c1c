/-
  Stencil/Proofs/File/Order.lean
  ==============================
  **The order of the declarations of a file.**

  A file declares a package, if any, then its namespace, then aliases, and then come
  the templates (`InOrder`).  How far a file has got is a stage, and each declaration
  leads from some stages to another: declarations are in order if they lead to one of
  the last two (`inOrder_iff`), and they fit if they lead to any (`fits_iff`).
-/
import Mathlib.Data.List.Induction
import Stencil.File.Scanner

namespace Stencil.File

/-! ### Order -/

/-- The declarations that a file is made of. -/
inductive Kind where
  | package
  | namespaceDecl
  | aliasDecl
  | template
deriving DecidableEq, Repr

/-- What an item declares; comments declare nothing. -/
def Item.kind? : Item → Option Kind
  | .package _ => some .package
  | .namespaceDecl _ => some .namespaceDecl
  | .aliasDecl _ => some .aliasDecl
  | .template _ => some .template
  | .doc _ => none
  | .comment => none

/-- The declarations among some items. -/
def kinds (items : List Placed) : List Kind := items.filterMap (·.item.kind?)

/-- The order of a file: at most one package, the namespace, aliases, templates. -/
def InOrder (ks : List Kind) : Prop :=
  ∃ packages aliases templates, packages ≤ 1 ∧
    ks = List.replicate packages .package ++ .namespaceDecl ::
      (List.replicate aliases .aliasDecl ++ List.replicate templates .template)

/-- Declarations that a file in order may start with. -/
def Fits (ks : List Kind) : Prop := ∃ rest, InOrder (ks ++ rest)

theorem kinds_append (items more : List Placed) : kinds (items ++ more) = kinds items ++ kinds more :=
  List.filterMap_append

/-! ### Stages -/

/-- How far a file has got. -/
inductive Stage where
  | start
  | packaged
  | named
  | inTemplates
deriving DecidableEq, Repr

/-- The stage after a declaration, if it may stand there. -/
def Stage.next? : Stage → Kind → Option Stage
  | .start, .package => some .packaged
  | .start, .namespaceDecl => some .named
  | .packaged, .namespaceDecl => some .named
  | .named, .aliasDecl => some .named
  | .named, .template => some .inTemplates
  | .inTemplates, .template => some .inTemplates
  | _, _ => none

section

variable {stage next : Stage}

theorem Stage.eq_of_next?_package (h : stage.next? .package = some next) : stage = .start := by
  cases stage with
  | start => rfl
  | packaged | named | inTemplates => cases h

theorem Stage.eq_or_of_next?_namespaceDecl (h : stage.next? .namespaceDecl = some next) :
    stage = .start ∨ stage = .packaged := by
  cases stage with
  | start => exact .inl rfl
  | packaged => exact .inr rfl
  | named | inTemplates => cases h

theorem Stage.eq_of_next?_aliasDecl (h : stage.next? .aliasDecl = some next) : stage = .named := by
  cases stage with
  | named => rfl
  | start | packaged | inTemplates => cases h

theorem Stage.eq_or_of_next?_template (h : stage.next? .template = some next) :
    stage = .named ∨ stage = .inTemplates := by
  cases stage with
  | named => exact .inl rfl
  | inTemplates => exact .inr rfl
  | start | packaged => cases h

end

/-- The stage after some declarations, if they fit. -/
def stage? (ks : List Kind) : Option Stage := ks.foldlM Stage.next? .start

theorem stage?_concat (ks : List Kind) (k : Kind) :
    stage? (ks ++ [k]) = (stage? ks).bind (·.next? k) := by
  simp [stage?, List.foldlM_append]

/-- The declarations that lead to a stage. -/
def Stage.LedToBy : Stage → List Kind → Prop
  | .start, ks => ks = []
  | .packaged, ks => ks = [.package]
  | .named, ks => ∃ packages aliases, packages ≤ 1 ∧
    ks = List.replicate packages .package ++ .namespaceDecl :: List.replicate aliases .aliasDecl
  | .inTemplates, ks => ∃ packages aliases templates, packages ≤ 1 ∧
    ks = List.replicate packages .package ++ .namespaceDecl ::
      (List.replicate aliases .aliasDecl ++ List.replicate (templates + 1) .template)

theorem Stage.LedToBy.concat {stage next : Stage} {ks : List Kind} {k : Kind}
    (h : stage.LedToBy ks) (hnext : stage.next? k = some next) : next.LedToBy (ks ++ [k]) := by
  cases stage with
  | start =>
    obtain rfl : ks = [] := h
    cases k with
    | package =>
      cases hnext
      exact rfl
    | namespaceDecl =>
      cases hnext
      exact ⟨0, 0, Nat.zero_le 1, rfl⟩
    | aliasDecl | template => cases hnext
  | packaged =>
    obtain rfl : ks = [.package] := h
    cases k with
    | namespaceDecl =>
      cases hnext
      exact ⟨1, 0, Nat.le_refl 1, rfl⟩
    | package | aliasDecl | template => cases hnext
  | named =>
    obtain ⟨packages, aliases, hpackages, rfl⟩ := h
    cases k with
    | aliasDecl =>
      cases hnext
      exact ⟨packages, aliases + 1, hpackages, by simp [List.replicate_succ']⟩
    | template =>
      cases hnext
      exact ⟨packages, aliases, 0, hpackages, by simp⟩
    | package | namespaceDecl => cases hnext
  | inTemplates =>
    obtain ⟨packages, aliases, templates, hpackages, rfl⟩ := h
    cases k with
    | template =>
      cases hnext
      refine ⟨packages, aliases, templates + 1, hpackages, ?_⟩
      rw [List.replicate_succ' (n := templates + 1)]
      simp
    | package | namespaceDecl | aliasDecl => cases hnext

theorem ledToBy_of_stage? {ks : List Kind} {stage : Stage} (h : stage? ks = some stage) :
    stage.LedToBy ks := by
  induction ks using List.reverseRecOn generalizing stage with
  | nil =>
    cases h
    rfl
  | append_singleton ks k ih =>
    rw [stage?_concat] at h
    obtain ⟨before, hbefore, hnext⟩ := Option.bind_eq_some_iff.1 h
    exact (ih hbefore).concat hnext

theorem foldlM_replicate {stage : Stage} {k : Kind} (h : stage.next? k = some stage) (n : Nat) :
    (List.replicate n k).foldlM Stage.next? stage = some stage := by
  induction n with
  | zero => rfl
  | succ n ih =>
    rw [List.replicate_succ, List.foldlM_cons, h]
    exact ih

/-- Declarations are in order if they lead to one of the last two stages. -/
theorem inOrder_iff {ks : List Kind} :
    InOrder ks ↔ stage? ks = some .named ∨ stage? ks = some .inTemplates := by
  constructor
  · rintro ⟨packages, aliases, templates, hpackages, rfl⟩
    have hnamed : stage? (List.replicate packages .package ++ [.namespaceDecl]) = some .named := by
      rcases Nat.le_one_iff_eq_zero_or_eq_one.1 hpackages with rfl | rfl <;> rfl
    have hsplit : List.replicate packages Kind.package ++ .namespaceDecl ::
          (List.replicate aliases .aliasDecl ++ List.replicate templates .template) =
        List.replicate packages Kind.package ++ [.namespaceDecl] ++
          (List.replicate aliases .aliasDecl ++ List.replicate templates .template) := by simp
    rw [stage?] at hnamed
    rw [stage?, hsplit, List.foldlM_append, hnamed, Option.bind_eq_bind, Option.bind_some,
      List.foldlM_append, foldlM_replicate rfl, Option.bind_eq_bind, Option.bind_some]
    cases templates with
    | zero => exact .inl rfl
    | succ templates => exact .inr (foldlM_replicate rfl templates)
  · rintro (h | h)
    · obtain ⟨packages, aliases, hpackages, rfl⟩ := ledToBy_of_stage? h
      exact ⟨packages, aliases, 0, hpackages, by simp⟩
    · obtain ⟨packages, aliases, templates, hpackages, rfl⟩ := ledToBy_of_stage? h
      exact ⟨packages, aliases, templates + 1, hpackages, rfl⟩

/-- Declarations fit if they lead to a stage. -/
theorem fits_iff {ks : List Kind} : Fits ks ↔ (stage? ks).isSome := by
  constructor
  · rintro ⟨rest, h⟩
    cases hstage : stage? ks with
    | some _ => rfl
    | none =>
      have hnone : stage? (ks ++ rest) = none := by
        rw [stage?] at hstage ⊢
        rw [List.foldlM_append, hstage]
        rfl
      rcases inOrder_iff.1 h with h | h <;> cases hnone.symm.trans h
  · intro h
    obtain ⟨stage, hstage⟩ := Option.isSome_iff_exists.1 h
    cases stage with
    | start | packaged =>
      refine ⟨[.namespaceDecl], inOrder_iff.2 (.inl ?_)⟩
      rw [stage?_concat, hstage]
      rfl
    | named => exact ⟨[], inOrder_iff.2 (.inl ((List.append_nil ks).symm ▸ hstage))⟩
    | inTemplates => exact ⟨[], inOrder_iff.2 (.inr ((List.append_nil ks).symm ▸ hstage))⟩

theorem namespaceDecl_not_mem {ks : List Kind} {stage : Stage} (h : stage? ks = some stage)
    (hstage : stage = .start ∨ stage = .packaged) : .namespaceDecl ∉ ks := by
  have hled := ledToBy_of_stage? h
  rcases hstage with rfl | rfl
  · obtain rfl : ks = [] := hled
    decide
  · obtain rfl : ks = [.package] := hled
    decide

/-! ### Misfits -/

/-- The place of the fault where items are out of order: the first declaration that does
    not fit, or the file as a whole if all fit and the namespace is missing. -/
inductive FirstMisfit (items : List Placed) : Nat → Prop
  | declaration {before after : List Placed} {t : Placed} : items = before ++ t :: after →
      Fits (kinds before) → ¬ Fits (kinds (before ++ [t])) → FirstMisfit items t.line
  | noNamespace : Fits (kinds items) → .namespaceDecl ∉ kinds items → FirstMisfit items 0

/-- What is not in order from some declaration on is not in order. -/
theorem not_inOrder_of_not_fits {before after : List Placed} {t : Placed}
    (h : ¬ Fits (kinds (before ++ [t]))) : ¬ InOrder (kinds (before ++ t :: after)) := by
  intro horder
  have hsplit : before ++ t :: after = before ++ [t] ++ after := by simp
  rw [hsplit, kinds_append (before ++ [t])] at horder
  exact h ⟨kinds after, horder⟩

end Stencil.File
