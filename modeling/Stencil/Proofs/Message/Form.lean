/-
  Stencil/Proofs/Message/Form.lean
  ================================
  **What bodies and messages look like once they are read.**

  Every node of a body that is read has children that fit it.  The body of a
  message is a plural or select and nothing else, or it is plain: texts that are
  not empty and placeholders, with a placeholder between any two texts.  So is
  the body of a case, and the default case is the last one.  Names are made of
  letters, digits and underscores.
-/
import Mathlib.Data.List.Chain
import Stencil.Proofs.Message.Names
import Stencil.Proofs.Message.SharedKeys
import Stencil.Proofs.Tree.Bare

namespace Stencil

/-! ### Forms of messages -/

/-- A text of a message. -/
def Content.isMsgText : Content → Bool
  | msgText _ => true
  | _ => false

@[simp] theorem Content.isMsgText_form (content : Content) :
    content.form.isMsgText = content.isMsgText := by
  cases content <;> rfl

namespace Message

/-- A text that is not empty, or a placeholder. -/
def IsPiece (content : Content) : Prop :=
  (∃ text, content = .msgText text ∧ text ≠ "") ∨ ∃ name key, content = .placeholder name key

/-- Parts of a message: texts that are not empty and placeholders, with a
    placeholder between any two texts. -/
structure IsPlain (parts : List Content) : Prop where
  pieces : ∀ part ∈ parts, IsPiece part
  apart : parts.IsChain fun part next => ¬ (part.isMsgText ∧ next.isMsgText)

/-- Cases of which the last one is the default, and no other. -/
def DefaultLast (cases : List Content) : Prop :=
  ∃ labelled, cases = labelled ++ [.case .default] ∧
    ∀ case ∈ labelled, ∃ label, case = .case label ∧ label ≠ .default

/-- A content whose name, if it has one, is made of letters, digits and
    underscores. -/
def Named : Content → Prop
  | .placeholder name _ | .plural _ _ name | .select _ name => IsName name
  | _ => True

/-- The children of a message, a plural, a select or a case are such as the
    reader makes them. -/
def Arranged (content : Content) (children : List Content) : Prop :=
  match content with
  | .msg _ _ _ => IsPlain children ∨ ∃ choice, children = [choice] ∧ choice.isChoice
  | .plural _ _ _ | .select _ _ => DefaultLast children
  | .case _ => IsPlain children
  | _ => True

/-- A node of a body that is read. -/
structure FormedAt {α : Type} (n : Tree α) : Prop where
  shaped : Tree.ShapedAt n
  named : Named n.content
  arranged : Arranged n.content (n.children.map Tree.content)

/-- All nodes of a tree are such as the reader makes them. -/
def Formed {α : Type} (t : Tree α) : Prop := Tree.Each FormedAt t

/-! ### What only depends on the form -/

theorem isPiece_form (content : Content) : IsPiece content.form ↔ IsPiece content := by
  cases content <;> simp [IsPiece, Content.form]

theorem isPlain_form (parts : List Content) : IsPlain (parts.map Content.form) ↔ IsPlain parts := by
  constructor
  · intro h
    refine ⟨fun part hpart => (isPiece_form part).1 (h.pieces _ (List.mem_map_of_mem hpart)), ?_⟩
    simpa [List.isChain_map] using h.apart
  · intro h
    refine ⟨List.forall_mem_map.2 fun part hpart => (isPiece_form part).2 (h.pieces part hpart), ?_⟩
    simpa [List.isChain_map] using h.apart

theorem eq_case_of_form {content : Content} {label : CaseLabel} :
    content.form = .case label ↔ content = .case label := by
  cases content <;> simp [Content.form]

theorem defaultLast_form (cases : List Content) :
    DefaultLast (cases.map Content.form) ↔ DefaultLast cases := by
  constructor
  · rintro ⟨labelled, hcases, hlabelled⟩
    obtain ⟨labelled', default', rfl, rfl, hdefault⟩ := List.map_eq_append_iff.1 hcases
    obtain ⟨last, rfl, hlast⟩ := List.map_eq_singleton_iff.1 hdefault
    refine ⟨labelled', by rw [eq_case_of_form.1 hlast], fun case hcase => ?_⟩
    obtain ⟨label, hlabel, hne⟩ := hlabelled _ (List.mem_map_of_mem hcase)
    exact ⟨label, eq_case_of_form.1 hlabel, hne⟩
  · rintro ⟨labelled, rfl, hlabelled⟩
    refine ⟨labelled.map Content.form, List.map_append, List.forall_mem_map.2 fun case hcase => ?_⟩
    obtain ⟨label, rfl, hne⟩ := hlabelled case hcase
    exact ⟨label, rfl, hne⟩

theorem arranged_form (content : Content) (children : List Content) :
    Arranged content.form (children.map Content.form) ↔ Arranged content children := by
  cases content with
  | msg desc meaning hidden =>
    change IsPlain (children.map Content.form) ∨ _ ↔ IsPlain children ∨ _
    rw [isPlain_form]
    refine or_congr_right ?_
    simp only [List.map_eq_singleton_iff]
    constructor
    · rintro ⟨choice, ⟨choice', rfl, rfl⟩, hchoice⟩
      exact ⟨choice', rfl, by rwa [Content.isChoice_form] at hchoice⟩
    · rintro ⟨choice, rfl, hchoice⟩
      exact ⟨choice.form, ⟨choice, rfl, rfl⟩, by rwa [Content.isChoice_form]⟩
  | plural | select => exact defaultLast_form children
  | case => exact isPlain_form children
  | _ => exact Iff.rfl

/-- A change of contents that keeps forms keeps how children are arranged. -/
theorem arranged_map {f : Content → Content} (hf : ∀ content, (f content).form = content.form)
    (content : Content) (children : List Content) :
    Arranged (f content) (children.map f) ↔ Arranged content children := by
  rw [← arranged_form, hf, List.map_map, ← arranged_form content]
  have hcomp : Content.form ∘ f = Content.form := funext hf
  rw [hcomp]

theorem named_gist (content : Content) : Named content.gist ↔ Named content := by
  cases content with
  | placeholder name key => cases key <;> exact Iff.rfl
  | _ => exact Iff.rfl

theorem map_content_children_gist {α : Type} (n : Tree α) :
    n.gist.children.map Tree.content = (n.children.map Tree.content).map Content.gist := by
  rw [Tree.children_gist, List.map_map, List.map_map]
  exact List.map_congr_left fun k _ => Tree.content_gist k

theorem formedAt_gist {α : Type} (n : Tree α) : FormedAt n.gist ↔ FormedAt n := by
  have hshaped := Tree.shapedAt_gist n
  have hnamed := named_gist n.content
  have harranged := arranged_map Content.form_gist n.content (n.children.map Tree.content)
  rw [← map_content_children_gist, ← Tree.content_gist] at harranged
  rw [← Tree.content_gist] at hnamed
  exact ⟨fun h => ⟨hshaped.1 h.shaped, hnamed.1 h.named, harranged.1 h.arranged⟩,
    fun h => ⟨hshaped.2 h.shaped, hnamed.2 h.named, harranged.2 h.arranged⟩⟩

theorem Formed.shaped {α : Type} {t : Tree α} (h : Formed t) : Tree.Shaped t :=
  Tree.Each.imp h fun _ hn => hn.shaped

end Message

end Stencil
