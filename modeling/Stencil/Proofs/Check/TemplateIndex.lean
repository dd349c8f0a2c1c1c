/-
  Stencil/Proofs/Check/TemplateIndex.lean
  =======================================
  **The index of templates is complete and exact** (`build_complete_exact`).

  It can be built unless two templates clash, and then it names two that do.  An
  index that is built finds every template where it belongs and nowhere else.
  Both are read off what building refines: the list of the templates themselves.
-/
import Stencil.Proofs.Check.Indexing

namespace Stencil

/-! ### Clashing templates -/

namespace Template

/-- Two templates that no index holds both: two with the same name of their own,
    or two implementations of a delegate with the same name, variant, priority
    and package. -/
def Clashes (t u : PlacedTemplate) : Prop :=
  match t.info.form, u.info.form with
  | .basic _, .basic _ => t.info.name = u.info.name
  | .delegate d, .delegate e =>
    d.name = e.name ∧ d.variant = e.variant ∧ d.priority = e.priority ∧ d.package = e.package
  | _, _ => False

theorem clashes_iff {t u : PlacedTemplate} : t.Clashes u ↔ t.slot = u.slot := by
  unfold Clashes slot
  cases t.info.form <;> cases u.info.form <;> simp

end Template

namespace TemplateIndex

variable {ts : List PlacedTemplate} {index : TemplateIndex}

/-- Whether a clash is found. -/
theorem exists_build_eq_error_iff :
    (∃ clash, build ts = .error clash) ↔ ∃ t u, [t, u].Sublist ts ∧ t.Clashes u := by
  have hbuilt : (∃ clash, build ts = .error clash) ↔ ¬ ∃ index, build ts = .ok index := by
    cases build ts <;> simp
  rw [hbuilt, exists_build_iff, List.Nodup, List.pairwise_map, List.pairwise_iff_forall_sublist]
  simp only [not_forall, Classical.not_not, Template.clashes_iff]
  exact ⟨fun ⟨t, u, hsub, hslot⟩ => ⟨t, u, hsub, hslot⟩,
    fun ⟨t, u, hsub, hslot⟩ => ⟨t, u, hsub, hslot⟩⟩

/-! ### What an index answers -/

/-- What the index of some templates answers.  Of a name, the template with that
    name of its own.  Of a delegate and a variant, divisions of falling priority;
    each has some implementations, one for a package, and these are the templates
    that implement the delegate with that variant and priority in that package.
    Of a delegate alone, the templates that implement it. -/
structure Indexes (index : TemplateIndex) (ts : List PlacedTemplate) : Prop where
  basic : ∀ name t, index.basic? name = some t ↔ t ∈ ts ∧ t.delegate? = none ∧ t.info.name = name
  falling : ∀ name variant,
    (index.divisions name variant).Pairwise fun d e => e.priority < d.priority
  inhabited : ∀ name variant, ∀ division ∈ index.divisions name variant, division.templates ≠ []
  packages : ∀ name variant, ∀ division ∈ index.divisions name variant,
    (division.templates.map (·.1)).Nodup
  exact : ∀ name variant, ∀ division ∈ index.divisions name variant, ∀ package t,
    (package, t) ∈ division.templates ↔
      t ∈ ts ∧ t.delegate? = some ⟨name, variant, package, division.priority⟩
  complete : ∀ t ∈ ts, ∀ d, t.delegate? = some d →
    ∃! division, division ∈ index.divisions d.name d.variant ∧
      (d.package, t) ∈ division.templates
  implementations : ∀ name, (index.implementations name).Perm (ts.filter (·.implements name))

section

variable {name variant : String} {division : Division}

theorem Refines.mem_templates_iff (h : index.Refines ts)
    (hdivision : division ∈ index.divisions name variant) {package : Option String}
    {t : PlacedTemplate} :
    (package, t) ∈ division.templates ↔
      t ∈ ts ∧ t.delegate? = some ⟨name, variant, package, division.priority⟩ := by
  rw [← Template.slot_eq_delegate_iff, ← h.stores_iff]
  constructor
  · exact fun ht => ⟨division, hdivision, rfl, ht⟩
  · rintro ⟨other, hother, hpriority, ht⟩
    rwa [← Division.eq_of_priority_eq (h.falling name variant) hother hdivision hpriority]

/-- An implementation is in one division. -/
theorem Refines.existsUnique_division (h : index.Refines ts) {t : PlacedTemplate} {d : Delegate}
    (ht : t ∈ ts) (hd : t.delegate? = some d) :
    ∃! division, division ∈ index.divisions d.name d.variant ∧
      (d.package, t) ∈ division.templates := by
  obtain ⟨division, hdivision, hpriority, hmem⟩ :=
    h.stores_iff.2 ⟨ht, Template.slot_eq_delegate_iff.2 hd⟩
  refine ⟨division, ⟨hdivision, hmem⟩, fun other ⟨hother, hmem'⟩ => ?_⟩
  refine Division.eq_of_priority_eq (h.falling _ _) hother hdivision ?_
  rw [h.mem_templates_iff hother, hd] at hmem'
  rw [hpriority, Option.some.inj hmem'.2]

end

theorem Refines.indexes (h : index.Refines ts) : index.Indexes ts where
  basic name t := by
    rw [← Template.slot_eq_basic_iff, ← h.stores_iff]
    exact Iff.rfl
  falling := h.falling
  inhabited := h.inhabited
  packages name variant division _ := by
    rw [List.Nodup, List.pairwise_map]
    exact division.byPackage.ascending.imp fun hlt heq => by simp [heq] at hlt
  exact name variant division hdivision package t := h.mem_templates_iff hdivision
  complete t ht d hd := h.existsUnique_division ht hd
  implementations name := by
    rw [h.implementations_eq]
    exact h.perm.filter _

/-- An index can be built of templates unless two of them clash; then it names two
    that clash, in their order.  An index that can be built finds every template,
    and nothing else. -/
theorem build_complete_exact (ts : List PlacedTemplate) :
    ((∃ clash, build ts = .error clash) ↔ ∃ t u, [t, u].Sublist ts ∧ t.Clashes u) ∧
      (∀ clash, build ts = .error clash →
        ∃ t u, [t, u].Sublist ts ∧ t.Clashes u ∧ clash = ⟨t.slot, t.mark.loc, u.mark.loc⟩) ∧
      ∀ index, build ts = .ok index → index.Indexes ts := by
  refine ⟨exists_build_eq_error_iff, fun clash hclash => ?_, fun index hbuild => ?_⟩
  · simpa only [Template.clashes_iff] using exists_of_build_eq_error hclash
  · exact (refines_of_build_eq_ok hbuild).indexes

/-- An implementation of the delegate `d` without a body. -/
def implementation (variant : String) (package : Option String) (priority line : Nat) :
    PlacedTemplate where
  mark := ⟨⟨line, line⟩, none, ⟨some "t.soy", line⟩⟩
  info :=
    { name := "d", shortName := none, form := .delegate ⟨"d", variant, package, priority⟩
      autoescape := .contextual, contentKind := none }
  body := []

/-- Implementations of one delegate whose priorities neither rise nor fall. -/
def unordered : List PlacedTemplate :=
  [implementation "" none 3 1, implementation "" (some "p") 7 2, implementation "v" none 0 3,
    implementation "" (some "q") 5 4, implementation "" none 7 5]

theorem build_complete_exact_unordered :
    ∃ index, build unordered = .ok index ∧ index.Indexes unordered := by
  have hcheck : (build unordered).isOk = true := by decide +kernel
  cases hbuild : build unordered with
  | error clash =>
    rw [hbuild] at hcheck
    cases hcheck
  | ok index => exact ⟨index, rfl, (build_complete_exact unordered).2.2 index hbuild⟩

end TemplateIndex

end Stencil
