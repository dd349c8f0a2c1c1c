/-
  Stencil/Proofs/Check/Forwarding.lean
  ====================================
  **What forwarded data reaches**, said without an index and without a search.

  A call resolves to the templates of a file set that it may reach.  Where an
  index can be built of the templates, it finds exactly these
  (`mem_calleesOf_iff`).  A forwarding walk follows calls that pass all data; a
  template contributes a parameter when a walk that never passes the parameter
  explicitly leads to it.
-/
import Stencil.Check.IndirectParams
import Stencil.Proofs.Check.Indexing

namespace Stencil

/-! ### Resolving calls -/

/-- A call may reach a template: the one that it names, or any implementation of
    the delegate that it names, whatever the variant. -/
def Resolves (templates : List PlacedTemplate) (call : Node) (u : PlacedTemplate) : Prop :=
  u ∈ templates ∧
    match call.target? with
    | some (.basic name _) => u.delegate? = none ∧ u.info.name = name
    | some (.delegate name _) => ∃ d, u.delegate? = some d ∧ d.name = name
    | none => False

/-- A call of a template by its name. -/
def CallsByName (call : Node) : Prop := ∃ name written, call.target? = some (.basic name written)

/-- A call of a delegate. -/
def CallsDelegate (call : Node) : Prop :=
  ∃ name variant, call.target? = some (.delegate name variant)

namespace TemplateIndex

/-- An index finds exactly the templates that a call resolves to. -/
theorem mem_calleesOf_iff {templates : List PlacedTemplate} {index : TemplateIndex}
    (h : build templates = .ok index) {call : Node} {u : PlacedTemplate} :
    u ∈ index.calleesOf call ↔ Resolves templates call u := by
  have hrefines := refines_of_build_eq_ok h
  unfold calleesOf Resolves
  cases call.target? with
  | none => simp
  | some target =>
    cases target with
    | basic name written =>
      have hstores : u ∈ index.callees (.basic name written) ↔ index.Stores (.basic name) u :=
        Option.mem_toList
      exact hstores.trans (hrefines.stores_iff.trans (and_congr_right' Template.slot_eq_basic_iff))
    | delegate name variant =>
      change u ∈ index.implementations name ↔ _
      rw [hrefines.implementations_eq, List.mem_filter, hrefines.perm.mem_iff]
      refine and_congr_right' ?_
      rw [Template.implements]
      cases u.delegate? <;> simp

theorem isExternalCall_iff {templates : List PlacedTemplate} {index : TemplateIndex}
    (h : build templates = .ok index) {call : Node} :
    index.isExternalCall call = true ↔ CallsByName call ∧ ∀ u, ¬ Resolves templates call u := by
  have hmem : ∀ u, u ∈ index.calleesOf call ↔ Resolves templates call u :=
    fun u => mem_calleesOf_iff h
  unfold calleesOf at hmem
  unfold isExternalCall CallsByName
  cases hcall : call.target? with
  | none => simp
  | some target =>
    rw [hcall] at hmem
    cases target with
    | basic name written => simp [← hmem, List.isEmpty_iff, List.eq_nil_iff_forall_not_mem]
    | delegate name variant => simp

theorem isExternalDelcall_iff {templates : List PlacedTemplate} {index : TemplateIndex}
    (h : build templates = .ok index) {call : Node} :
    index.isExternalDelcall call = true ↔
      CallsDelegate call ∧ ∀ u, ¬ Resolves templates call u := by
  have hmem : ∀ u, u ∈ index.calleesOf call ↔ Resolves templates call u :=
    fun u => mem_calleesOf_iff h
  unfold calleesOf at hmem
  unfold isExternalDelcall CallsDelegate
  cases hcall : call.target? with
  | none => simp
  | some target =>
    rw [hcall] at hmem
    cases target with
    | basic name written => simp
    | delegate name variant => simp [← hmem, List.isEmpty_iff, List.eq_nil_iff_forall_not_mem]

end TemplateIndex

/-! ### Forwarding walks -/

/-- A template forwards its data to another by a call that passes all data. -/
def Forwards (templates : List PlacedTemplate) (t : PlacedTemplate) (call : Node)
    (u : PlacedTemplate) : Prop :=
  call ∈ Tree.calls t.body ∧ call.passesAll = true ∧ Resolves templates call u

/-- The calls of a walk along forwarded data, and the template that it ends at. -/
inductive ForwardingWalk (templates : List PlacedTemplate) (start : PlacedTemplate) :
    List Node → PlacedTemplate → Prop
  | here : ForwardingWalk templates start [] start
  | step {calls : List Node} {t u : PlacedTemplate} {call : Node}
      (walk : ForwardingWalk templates start calls t) (forwards : Forwards templates t call u) :
      ForwardingWalk templates start (calls ++ [call]) u

/-- A template declares a parameter. -/
def Declares (t : PlacedTemplate) (name : String) : Prop := ∃ p ∈ t.info.params, p.name = name

/-- A template contributes a parameter to another: it declares the parameter, the
    other one does not, and a walk of at least one call leads there on which no
    call passes the parameter explicitly. -/
def Contributes (templates : List PlacedTemplate) (start : PlacedTemplate) (name : String)
    (t : PlacedTemplate) : Prop :=
  Declares t name ∧ ¬ Declares start name ∧
    ∃ calls, calls ≠ [] ∧ ForwardingWalk templates start calls t ∧
      ∀ call ∈ calls, name ∉ call.paramKeys

/-- A walk stays within the templates. -/
theorem ForwardingWalk.mem {templates : List PlacedTemplate} {start t : PlacedTemplate}
    {calls : List Node} (walk : ForwardingWalk templates start calls t)
    (hstart : start ∈ templates) : t ∈ templates := by
  cases walk with
  | here => exact hstart
  | step _ forwards => exact forwards.2.2.1

end Stencil
