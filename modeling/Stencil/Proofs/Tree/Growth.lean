/-
  Stencil/Proofs/Tree/Growth.lean
  ===============================
  **Placed trees grow at the end.**

  Placing looks at no draft that comes later, so a list of drafts with one more at the
  end is placed by placing the one.  A new node is a placed leaf, and a placed node
  whose list gets a placed child is the placed node with that child in its draft.
-/
import Stencil.Proofs.Tree.Numbering
import Stencil.Tree.ChildList

namespace Stencil

/-! ### Lists that are pushed to -/

namespace ChildList

theorem pushAll_eq (list : ChildList) (ns : List Node) :
    list.pushAll ns = { list with nodes := list.nodes ++ adopt list.owner ns } := by
  induction ns generalizing list with
  | nil => simp [pushAll, adopt]
  | cons n rest ih =>
    rw [pushAll, List.foldl_cons]
    refine (ih (list.push n)).trans ?_
    simp [push, adopt]

end ChildList

namespace Tree

open ChildList (adopt)

theorem push_node (mark : Mark) (content : Content) (children : List Node) (child : Node) :
    (node mark content children).push child =
      node mark content (children ++ adopt mark.owner [child]) := rfl

theorem pushAll_node (mark : Mark) (content : Content) (children ns : List Node) :
    (node mark content children).pushAll ns =
      node mark content (children ++ adopt mark.owner ns) := by
  rw [pushAll, ChildList.pushAll_eq]
  rfl

/-! ### Sizes of reversed lists -/

section Sizes

variable {α : Type} (ts us : List (Tree α))

theorem sizeAll_append : sizeAll (ts ++ us) = sizeAll ts + sizeAll us := by
  induction ts with
  | nil => rw [List.nil_append, sizeAll, Nat.zero_add]
  | cons t rest ih => rw [List.cons_append, sizeAll, sizeAll, ih, Nat.add_assoc]

theorem sizeAll_reverse : sizeAll ts.reverse = sizeAll ts := by
  induction ts with
  | nil => rfl
  | cons t rest ih =>
    rw [List.reverse_cons, sizeAll_append, ih, sizeAll, sizeAll, sizeAll, Nat.add_zero,
      Nat.add_comm]

theorem wrappedAll_append : wrappedAll (ts ++ us) = wrappedAll ts + wrappedAll us := by
  induction ts with
  | nil => rw [List.nil_append, wrappedAll, Nat.zero_add]
  | cons t rest ih => rw [List.cons_append, wrappedAll, wrappedAll, ih, Nat.add_assoc]

theorem wrappingAll_append : wrappingAll (ts ++ us) = wrappingAll ts + wrappingAll us := by
  induction ts with
  | nil => rw [List.nil_append, wrappingAll, Nat.zero_add]
  | cons t rest ih => rw [List.cons_append, wrappingAll, wrappingAll, ih, Nat.add_assoc]

end Sizes

/-! ### One draft after the other -/

variable (loc : Nat → Location) (parent : Option NodeId) (next inner outer : NodeId)

theorem linkAll_append (ts us : List Numbered) :
    linkAll loc parent (ts ++ us) = linkAll loc parent ts ++ linkAll loc parent us := by
  induction ts with
  | nil => rfl
  | cons t rest ih => rw [List.cons_append, linkAll, ih, linkAll, List.cons_append]

theorem placeAll_cons (t : Draft) (ts : List Draft) :
    placeAll loc parent next (t :: ts) =
      place loc parent next t :: placeAll loc parent (next + t.size) ts := by
  rw [placeAll, numberAll_cons, linkAll, number_free]
  rfl

theorem numberAll_append (ts us : List Draft) :
    (numberAll next (ts ++ us)).1 =
      (numberAll next ts).1 ++ (numberAll (next + sizeAll ts) us).1 := by
  induction ts generalizing next with
  | nil => rfl
  | cons t rest ih =>
    rw [List.cons_append, numberAll_cons, numberAll_cons, number_free, ih, sizeAll, Nat.add_assoc,
      List.cons_append]

theorem placeAll_append (ts us : List Draft) :
    placeAll loc parent next (ts ++ us) =
      placeAll loc parent next ts ++ placeAll loc parent (next + sizeAll ts) us := by
  rw [placeAll, numberAll_append, linkAll_append]
  rfl

theorem placeParts_cons (t : Draft) (ts : List Draft) :
    placeParts loc parent inner outer (t :: ts) =
      placePart loc parent inner outer t ::
        placeParts loc parent (inner + t.wrapped) (outer + t.wrapping) ts := by
  rw [placeParts, numberParts_cons, linkAll, numberPart_free]
  rfl

theorem numberParts_append (ts us : List Draft) :
    (numberParts inner outer (ts ++ us)).1 =
      (numberParts inner outer ts).1 ++
        (numberParts (inner + wrappedAll ts) (outer + wrappingAll ts) us).1 := by
  induction ts generalizing inner outer with
  | nil => rfl
  | cons t rest ih =>
    rw [List.cons_append, numberParts_cons, numberParts_cons, numberPart_free, ih, wrappedAll,
      wrappingAll, Nat.add_assoc, Nat.add_assoc, List.cons_append]

theorem placeParts_append (ts us : List Draft) :
    placeParts loc parent inner outer (ts ++ us) =
      placeParts loc parent inner outer ts ++
        placeParts loc parent (inner + wrappedAll ts) (outer + wrappingAll ts) us := by
  rw [placeParts, numberParts_append, linkAll_append]
  rfl

/-! ### Lists that are kept backwards -/

/-- The placed trees for statements that are kept backwards. -/
def placeBack (ts : List Draft) : List Node := (placeAll loc parent next ts.reverse).reverse

/-- The placed trees for parts of a message that are kept backwards. -/
def placePartsBack (ts : List Draft) : List Node :=
  (placeParts loc parent inner outer ts.reverse).reverse

theorem reverse_placeBack (ts : List Draft) :
    (placeBack loc parent next ts).reverse = placeAll loc parent next ts.reverse :=
  List.reverse_reverse _

theorem reverse_placePartsBack (ts : List Draft) :
    (placePartsBack loc parent inner outer ts).reverse =
      placeParts loc parent inner outer ts.reverse := List.reverse_reverse _

theorem add_sizeAll_cons {α : Type} (next : Nat) (t : Tree α) (ts : List (Tree α)) :
    next + sizeAll (t :: ts) = next + sizeAll ts + t.size := by
  rw [sizeAll, Nat.add_comm t.size, ← Nat.add_assoc]

theorem placeBack_cons (t : Draft) (ts : List Draft) :
    placeBack loc parent next (t :: ts) =
      place loc parent (next + sizeAll ts) t :: placeBack loc parent next ts := by
  rw [placeBack, List.reverse_cons, placeAll_append, sizeAll_reverse, List.reverse_append]
  rfl

theorem wrappedAll_reverse {α : Type} (ts : List (Tree α)) :
    wrappedAll ts.reverse = wrappedAll ts := by
  induction ts with
  | nil => rfl
  | cons t rest ih =>
    rw [List.reverse_cons, wrappedAll_append, ih, wrappedAll, wrappedAll, wrappedAll, Nat.add_zero,
      Nat.add_comm]

theorem wrappingAll_reverse {α : Type} (ts : List (Tree α)) :
    wrappingAll ts.reverse = wrappingAll ts := by
  induction ts with
  | nil => rfl
  | cons t rest ih =>
    rw [List.reverse_cons, wrappingAll_append, ih, wrappingAll, wrappingAll, wrappingAll,
      Nat.add_zero, Nat.add_comm]

theorem placePartsBack_cons (t : Draft) (ts : List Draft) :
    placePartsBack loc parent inner outer (t :: ts) =
      placePart loc parent (inner + wrappedAll ts) (outer + wrappingAll ts) t ::
        placePartsBack loc parent inner outer ts := by
  rw [placePartsBack, List.reverse_cons, placeParts_append, wrappedAll_reverse,
    wrappingAll_reverse, List.reverse_append]
  rfl

/-! ### Listed and unlisted -/

theorem withParent_link (t : Numbered) :
    (link loc none t).withParent parent = link loc parent t := by
  obtain ⟨⟨id, line⟩, content, children⟩ := t
  rfl

theorem withParent_place (t : Draft) :
    (place loc none next t).withParent parent = place loc parent next t :=
  withParent_link loc parent _

theorem adopt_linkAll (owner : NodeId) (ts : List Numbered) :
    adopt owner (linkAll loc none ts) = linkAll loc (some owner) ts := by
  induction ts with
  | nil => rfl
  | cons t rest ih =>
    rw [linkAll, linkAll, ← ih, ← withParent_link loc (some owner) t]
    rfl

theorem adopt_placeAll (owner : NodeId) (ts : List Draft) :
    adopt owner (placeAll loc none next ts) = placeAll loc (some owner) next ts :=
  adopt_linkAll loc owner _

theorem adopt_placeParts (owner : NodeId) (ts : List Draft) :
    adopt owner (placeParts loc none inner outer ts) =
      placeParts loc (some owner) inner outer ts := adopt_linkAll loc owner _

/-! ### Nodes -/

theorem claimKey_nil (content : Content) : claimKey content [] = content := by
  cases content with
  | placeholder name key => cases key <;> rfl
  | _ => rfl

theorem paramKey?_place (t : Draft) :
    (place loc parent next t).content.paramKey? = t.content.paramKey? := by
  have hclaim : ∀ content us, (claimKey content us).paramKey? = content.paramKey? := by
    intro content us
    cases content with
    | placeholder name key => cases key <;> cases us <;> rfl
    | _ => rfl
  obtain ⟨line, content, ts⟩ := t
  by_cases h : content.holdsParts
  · rw [place, number_of_holdsParts _ _ _ _ h]
    exact hclaim content _
  · rw [place, number_of_not_holdsParts _ _ _ _ h]
    exact hclaim content _

/-- A new node is a placed leaf. -/
theorem new_eq_place (line : Nat) (content : Content) :
    new next (loc line) content = place loc none next (leaf line content) := by
  rw [place, leaf]
  by_cases h : content.holdsParts
  · rw [number_of_holdsParts _ _ _ _ h, numberParts, link, claimKey_nil]
    rfl
  · rw [number_of_not_holdsParts _ _ _ _ h, numberAll, link, claimKey_nil]
    rfl

end Tree

/-- The contents whose nodes are numbered in the order of the text: each before its
    children, and these one after the other. -/
def Content.inOrder (content : Content) : Bool := !content.wraps && !content.holdsParts

namespace Tree

section Counts

variable {α : Type} {t : Tree α} {content : Content}

theorem not_wraps_of_inOrder (h : content.inOrder) : ¬ content.wraps := by
  intro hwraps
  simp [Content.inOrder, hwraps] at h

theorem not_holdsParts_of_inOrder (h : content.inOrder) : ¬ content.holdsParts := by
  intro hparts
  simp [Content.inOrder, hparts] at h

theorem wrapped_of_inOrder (h : t.content.inOrder) : t.wrapped = t.size := by
  obtain ⟨mark, content, children⟩ := t
  rw [content_node] at h
  rw [wrapped, if_neg (not_wraps_of_inOrder h), size]

theorem wrapping_of_inOrder (h : t.content.inOrder) : t.wrapping = 0 := by
  obtain ⟨mark, content, children⟩ := t
  rw [content_node] at h
  rw [wrapping, if_neg (not_wraps_of_inOrder h)]

theorem wrapped_node (h : content.wraps) (mark : α) (ts : List (Tree α)) :
    (node mark content ts).wrapped = wrappedAll ts := by
  rw [wrapped, if_pos h]

theorem wrapping_node (h : content.wraps) (mark : α) (ts : List (Tree α)) :
    (node mark content ts).wrapping = wrappingAll ts + 1 := by
  rw [wrapping, if_pos h]

end Counts

variable (loc : Nat → Location) (parent : Option NodeId) (next inner outer line : Nat)
  {content : Content} (ts : List Draft)

theorem place_node (h : content.inOrder) :
    place loc parent next (node line content ts) =
      node ⟨next, parent, loc line⟩ content (placeAll loc (some next) (next + 1) ts) := by
  have hclaim : ∀ us, claimKey content us = content := by
    intro us
    cases content with
    | placeholder name key => cases h
    | _ => rfl
  rw [place, number_of_not_holdsParts _ _ _ _ (not_holdsParts_of_inOrder h), link, hclaim]
  rfl

theorem place_eq {t : Draft} (h : t.content.inOrder) :
    place loc parent next t =
      node ⟨next, parent, loc t.mark⟩ t.content
        (placeAll loc (some next) (next + 1) t.children) := by
  cases t
  exact place_node _ _ _ _ _ h

section

variable {t : Draft} (h : t.content.inOrder)
include h

theorem content_place : (place loc parent next t).content = t.content :=
  congrArg Tree.content (place_eq loc parent next h)

theorem id_place : (place loc parent next t).id = next :=
  congrArg Tree.id (place_eq loc parent next h)

theorem loc_place : (place loc parent next t).loc = loc t.mark :=
  congrArg Tree.loc (place_eq loc parent next h)

end

theorem place_node_of_holdsParts (h : content.holdsParts) :
    place loc parent next (node line content ts) =
      node ⟨next, parent, loc line⟩ content
        (placeParts loc (some next) (next + 1) (next + 1 + wrappedAll ts) ts) := by
  have hclaim : ∀ us, claimKey content us = content := by
    intro us
    cases content with
    | placeholder name key => cases h
    | _ => rfl
  rw [place, number_of_holdsParts _ _ _ _ h, link, hclaim]
  rfl

theorem mark_numberPart {t : Draft} (h : t.content.inOrder) :
    (numberPart inner outer t).1.mark = (inner, t.mark) := by
  obtain ⟨line, content, ts⟩ := t
  rw [content_node] at h
  rw [numberPart_of_not_wraps _ _ _ _ _ (not_wraps_of_inOrder h)]
  rfl

theorem numberPart_of_inOrder {t : Draft} (h : t.content.inOrder) :
    (numberPart inner outer t).1 = (number inner t).1 := by
  obtain ⟨line, content, ts⟩ := t
  rw [content_node] at h
  rw [numberPart_of_not_wraps _ _ _ _ _ (not_wraps_of_inOrder h),
    number_of_not_holdsParts _ _ _ _ (not_holdsParts_of_inOrder h)]

/-- A part that does not belong to the wrapping is placed like a statement. -/
theorem placePart_of_inOrder {t : Draft} (h : t.content.inOrder) :
    placePart loc parent inner outer t = place loc parent inner t := by
  rw [placePart, numberPart_of_inOrder _ _ h, place]

theorem placePart_node (hwraps : content.wraps) :
    placePart loc parent inner outer (node line content ts) =
      node ⟨outer + wrappingAll ts, parent, loc line⟩
        (claimKey content (numberParts inner outer ts).1)
        (placeParts loc (some (outer + wrappingAll ts)) inner outer ts) := by
  rw [placePart, numberPart_of_wraps _ _ _ _ _ hwraps, link, numberParts_free]
  rfl

/-- A placeholder is placed after the statement in it, and the own key of a call's
    placeholder is the identity of the call. -/
theorem placePart_placeholder {t : Draft} (h : t.content.inOrder) (name : String)
    (key : PlaceholderKey) :
    placePart loc parent inner outer (node line (.placeholder name key) [t]) =
      node ⟨outer, parent, loc line⟩
        (.placeholder name (match key with | .shared text => .shared text | .own _ => .own inner))
        [place loc (some outer) inner t] := by
  have hclaim : claimKey (.placeholder name key) (numberParts inner outer [t]).1 =
      .placeholder name (match key with | .shared text => .shared text | .own _ => .own inner) := by
    cases key with
    | shared text => rfl
    | own call =>
      rw [numberParts_cons, claimKey, mark_numberPart _ _ h]
  rw [placePart_node _ _ _ _ _ _ rfl, hclaim, wrappingAll, wrapping_of_inOrder h, wrappingAll,
    placeParts_cons, placePart_of_inOrder _ _ _ _ h]
  rfl

/-! ### Nodes that grow -/

theorem push_place {content : Content} (h : content.inOrder) (t : Draft) :
    (place loc none next (node line content ts.reverse)).push
        (place loc none (next + 1 + sizeAll ts) t) =
      place loc none next (node line content (t :: ts).reverse) := by
  rw [place_node _ _ _ _ _ h, place_node _ _ _ _ _ h, push_node, List.reverse_cons,
    placeAll_append, sizeAll_reverse, ← adopt_placeAll loc _ _ [t]]
  rfl

theorem pushAll_new (h : content.inOrder) :
    (new next (loc line) content).pushAll (placeAll loc none (next + 1) ts) =
      place loc none next (node line content ts) := by
  rw [place_node _ _ _ _ _ h, ← adopt_placeAll]
  exact pushAll_node _ _ _ _

theorem pushAll_new_of_holdsParts (h : content.holdsParts) :
    (new next (loc line) content).pushAll
        (placeParts loc none (next + 1) (next + 1 + wrappedAll ts) ts) =
      place loc none next (node line content ts) := by
  rw [place_node_of_holdsParts _ _ _ _ _ h, ← adopt_placeParts]
  exact pushAll_node _ _ _ _

end Tree

end Stencil
