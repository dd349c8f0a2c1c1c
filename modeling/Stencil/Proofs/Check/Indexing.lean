/-
  Stencil/Proofs/Check/Indexing.lean
  ==================================
  **An index holds the templates that it was built of** (`build_refines`).

  An index keeps templates in tables and divisions.  What it stands for is a list
  of templates without order, and a list is also all that building needs: a template
  is added if no template has its slot.  Building an index refines building this list.
  The step is the insertion of one template: it keeps the index sound, divisions in
  falling order above all, and adds the template and nothing else.
-/
import Mathlib.Data.List.Nodup
import Stencil.Check.TemplateIndex
import Stencil.Proofs.Outcome

namespace Stencil

/-! ### Lists -/

section Lists

variable {α : Type}

theorem insertIdx_length_append (before after : List α) (a : α) :
    (before ++ after).insertIdx before.length a = before ++ a :: after := by
  induction before with
  | nil => rfl
  | cons b rest ih => exact congrArg (b :: ·) ih

theorem modify_length_append (before after : List α) (a : α) (f : α → α) :
    (before ++ a :: after).modify before.length f = before ++ f a :: after := by
  induction before with
  | nil => rfl
  | cons b rest ih => exact congrArg (b :: ·) ih

/-- A list splits where a property is first met. -/
theorem exists_split_of_findIdx? {p : α → Bool} {l : List α} {i : Nat} (h : l.findIdx? p = some i) :
    ∃ before a after, l = before ++ a :: after ∧ i = before.length ∧ p a = true ∧
      ∀ b ∈ before, p b = false := by
  obtain ⟨hi, hp, hbefore⟩ := List.findIdx?_eq_some_iff_getElem.1 h
  refine ⟨l.take i, l[i], l.drop (i + 1), ?_, ?_, hp, fun b hb => ?_⟩
  · rw [← List.drop_eq_getElem_cons hi, List.take_append_drop]
  · rw [List.length_take, Nat.min_eq_left (Nat.le_of_lt hi)]
  · obtain ⟨j, hj, rfl⟩ := List.mem_take_iff_getElem.1 hb
    simpa using hbefore j (by omega)

/-- What a list gives, kept or not by what it is given by. -/
theorem filter_flatMap_eq {β : Type} {l : List α} {f : α → List β} {p : β → Bool} {q : α → Bool}
    (h : ∀ a ∈ l, ∀ b ∈ f a, p b = q a) : (l.flatMap f).filter p = (l.filter q).flatMap f := by
  induction l with
  | nil => rfl
  | cons a rest ih =>
    have hrest := ih fun a ha => h a (List.mem_cons_of_mem _ ha)
    have ha := h a List.mem_cons_self
    rw [List.flatMap_cons, List.filter_append, hrest]
    cases hq : q a with
    | true =>
      rw [List.filter_cons_of_pos hq, List.flatMap_cons,
        List.filter_eq_self.2 fun b hb => (ha b hb).trans hq]
    | false =>
      have hnil : (f a).filter p = [] := List.filter_eq_nil_iff.2 fun b hb => by simp [ha b hb, hq]
      rw [List.filter_cons_of_neg (by simp [hq]), hnil, List.nil_append]

end Lists

/-! ### Divisions -/

namespace Table

variable {κ β : Type} [Ord κ] [Std.TransOrd κ] [Std.LawfulEqOrd κ]

theorem get?_insert [DecidableEq κ] (table : Table κ β) (key key' : κ) (value : β) :
    (table.insert key value).get? key' = if key' = key then some value else table.get? key' := by
  ext v
  rw [← mem_entries_iff, mem_insert_iff, mem_entries_iff, Prod.mk.injEq]
  by_cases hkey : key' = key
  · simp [hkey, eq_comm]
  · simp [hkey]

/-- Another value under a key changes what all values give as it changes what that one gives. -/
theorem perm_flatMap_insert {γ : Type} {table : Table κ β} {key : κ} {value : β} {f : β → List γ}
    {c : γ} (h : (f value).Perm (c :: (table.get? key).toList.flatMap f)) :
    ((table.insert key value).values.flatMap f).Perm (c :: table.values.flatMap f) := by
  obtain ⟨before, after, hentries, -, hinsert⟩ := table.exists_entries_split key
  have hold : table.values =
      before.map (·.2) ++ ((table.get? key).toList ++ after.map (·.2)) := by
    rw [values, hentries, List.map_append, List.map_append, List.map_map]
    exact congrArg (fun l => _ ++ (l ++ _)) (List.map_id _)
  have hnew : (table.insert key value).values = before.map (·.2) ++ value :: after.map (·.2) := by
    rw [values, hinsert, List.map_append, List.map_cons]
  rw [hold, hnew, List.flatMap_append, List.flatMap_append, List.flatMap_append, List.flatMap_cons]
  exact ((h.append_right _).append_left _).trans List.perm_middle

/-- A value under a new key is one more value. -/
theorem perm_values_insert {table : Table κ β} {key : κ} (h : table.get? key = none) (value : β) :
    (table.insert key value).values.Perm (value :: table.values) := by
  obtain ⟨before, after, hentries, -, hinsert⟩ := table.exists_entries_split key
  rw [h] at hentries
  rw [values, values, hinsert, hentries]
  exact (List.perm_middle (a := (key, value))).map (·.2)

end Table

namespace Division

/-- The highest priority comes first, and no two divisions share one. -/
def Falling (divisions : List Division) : Prop :=
  divisions.Pairwise fun d e => e.priority < d.priority

/-- The implementations in divisions. -/
def implementations (divisions : List Division) : List PlacedTemplate :=
  divisions.flatMap (·.byPackage.values)

variable {divisions : List Division}

/-- Divisions split at the one of a priority, which is new and empty if there was none. -/
structure Opened (divisions : List Division) (priority : Nat) (before : List Division)
    (division : Division) (after : List Division) : Prop where
  priority_eq : division.priority = priority
  falling : Falling (before ++ division :: after)
  old_or_new : divisions = before ++ division :: after ∨
    divisions = before ++ after ∧ division = { priority }

/-- The division of a priority is found, or inserted where the priority belongs. -/
theorem exists_openAt (h : Falling divisions) (priority : Nat) :
    ∃ before division after,
      openAt priority divisions = (before ++ division :: after, before.length) ∧
      Opened divisions priority before division after := by
  cases hfind : divisions.findIdx? (·.priority ≤ priority) with
  | none =>
    have habove : ∀ d ∈ divisions, priority < d.priority := fun d hd => by
      simpa using List.findIdx?_eq_none_iff.1 hfind d hd
    refine ⟨divisions, { priority }, [], ?_, rfl, ?_, .inr ⟨(List.append_nil _).symm, rfl⟩⟩
    · rw [openAt, hfind]
    · refine List.pairwise_append.2 ⟨h, List.pairwise_singleton _ _, fun d hd e he => ?_⟩
      rw [List.mem_singleton.1 he]
      exact habove d hd
  | some i =>
    obtain ⟨before, d, after, rfl, rfl, hd, hbefore⟩ := exists_split_of_findIdx? hfind
    have habove : ∀ e ∈ before, priority < e.priority := fun e he => by simpa using hbefore e he
    have hat : (before ++ d :: after)[before.length]? = some d := by simp
    have hopen : openAt priority (before ++ d :: after) =
        if d.priority == priority then (before ++ d :: after, before.length)
        else (before ++ { priority } :: d :: after, before.length) := by
      rw [openAt, hfind]
      dsimp only
      rw [hat, insertIdx_length_append]
      rfl
    rw [hopen]
    by_cases heq : d.priority = priority
    · rw [if_pos (beq_iff_eq.2 heq)]
      exact ⟨before, d, after, rfl, heq, h, .inl rfl⟩
    · rw [if_neg (mt beq_iff_eq.1 heq)]
      refine ⟨before, { priority }, d :: after, rfl, rfl, ?_, .inr ⟨rfl, rfl⟩⟩
      have hlow : d.priority < priority := Nat.lt_of_le_of_ne (of_decide_eq_true hd) heq
      obtain ⟨hfirst, hrest, hcross⟩ := List.pairwise_append.1 h
      refine List.pairwise_append.2 ⟨hfirst, List.pairwise_cons.2 ⟨fun e he => ?_, hrest⟩, ?_⟩
      · rcases List.mem_cons.1 he with rfl | he
        · exact hlow
        · exact Nat.lt_trans (List.rel_of_pairwise_cons hrest he) hlow
      · intro e he e' he'
        rcases List.mem_cons.1 he' with rfl | he'
        · exact habove e he
        · exact hcross e he e' he'

theorem mem_implementations {t : PlacedTemplate} :
    t ∈ implementations divisions ↔
      ∃ division ∈ divisions, ∃ package, (package, t) ∈ division.templates := by
  simp [implementations, templates, Table.values]

/-- Divisions that fall have one of a priority. -/
theorem eq_of_priority_eq (h : Falling divisions) {d e : Division} (hd : d ∈ divisions)
    (he : e ∈ divisions) (hpriority : d.priority = e.priority) : d = e := by
  refine List.inj_on_of_nodup_map ?_ hd he hpriority
  rw [List.Nodup, List.pairwise_map]
  exact h.imp fun hlt => Nat.ne_of_gt hlt

theorem mem_templates_add {division : Division} {package package' : Option String}
    {t s : PlacedTemplate} :
    (package', s) ∈ (division.add package t).templates ↔
      package' = package ∧ s = t ∨ (package', s) ∈ division.templates ∧ package' ≠ package := by
  rw [templates, add, Table.mem_insert_iff, Prod.mk.injEq]
  exact Iff.rfl

namespace Opened

variable {priority : Nat} {before after : List Division} {division : Division}
  {package : Option String} {s t : PlacedTemplate} (h : Opened divisions priority before division after)
include h

/-- The division has what the divisions had with its priority. -/
theorem mem_templates_iff : (package, s) ∈ division.templates ↔
    ∃ d ∈ divisions, d.priority = priority ∧ (package, s) ∈ d.templates := by
  constructor
  · intro hs
    rcases h.old_or_new with rfl | ⟨-, rfl⟩
    · exact ⟨division, by simp, h.priority_eq, hs⟩
    · cases hs
  · rintro ⟨d, hd, hpriority, hs⟩
    have hmem : d ∈ before ++ division :: after := by
      rcases h.old_or_new with rfl | ⟨rfl, -⟩
      · exact hd
      · simp only [List.mem_append, List.mem_cons] at hd ⊢
        exact hd.imp_right .inr
    rwa [← eq_of_priority_eq h.falling hmem (by simp) (hpriority.trans h.priority_eq.symm)]

/-- An implementation more leaves the priorities as they are. -/
theorem falling_add (package : Option String) (t : PlacedTemplate) :
    Falling (before ++ division.add package t :: after) := by
  have hfalling := h.falling
  rw [Falling, List.pairwise_append, List.pairwise_cons] at hfalling ⊢
  simpa [add] using hfalling

theorem mem_add {d : Division} (hd : d ∈ before ++ division.add package t :: after) :
    d = division.add package t ∨ d ∈ divisions := by
  rcases h.old_or_new with rfl | ⟨rfl, -⟩ <;> simp only [List.mem_append, List.mem_cons] at hd ⊢ <;>
    tauto

/-- An implementation for a free package is one implementation more. -/
theorem perm_add (hfree : division.byPackage.get? package = none) :
    (implementations (before ++ division.add package t :: after)).Perm
      (t :: implementations divisions) := by
  have hold : implementations divisions = implementations (before ++ division :: after) := by
    rcases h.old_or_new with rfl | ⟨rfl, rfl⟩
    · rfl
    · rw [implementations, implementations, List.flatMap_append, List.flatMap_append]
      rfl
  rw [hold, implementations, implementations, List.flatMap_append, List.flatMap_append,
    List.flatMap_cons, List.flatMap_cons]
  refine List.Perm.trans ?_ List.perm_middle
  exact ((Table.perm_values_insert hfree t).append_right _).append_left _

end Opened

end Division

/-! ### Where a template is stored -/

namespace Template

/-- Whether a template implements a delegate. -/
def implements (t : PlacedTemplate) (name : String) : Bool :=
  t.delegate?.any (·.name == name)

theorem slot_eq_basic_iff {t : PlacedTemplate} {name : String} :
    t.slot = .basic name ↔ t.delegate? = none ∧ t.info.name = name := by
  unfold slot delegate?
  split <;> simp_all

theorem slot_eq_delegate_iff {t : PlacedTemplate} {d : Delegate} :
    t.slot = .delegate d.name d.variant d.priority d.package ↔ t.delegate? = some d := by
  unfold slot delegate?
  cases t.info.form with
  | basic isPrivate => simp
  | delegate e =>
    obtain ⟨name, variant, package, priority⟩ := d
    obtain ⟨name', variant', package', priority'⟩ := e
    simp only [Slot.delegate.injEq, Option.some.injEq, Delegate.mk.injEq]
    constructor <;> rintro ⟨rfl, rfl, rfl, rfl⟩ <;> exact ⟨rfl, rfl, rfl, rfl⟩

end Template

namespace TemplateIndex

variable {index index' : TemplateIndex} {ts : List PlacedTemplate} {s t : PlacedTemplate}

/-- A template is where the templates of a slot are looked for. -/
def Stores (index : TemplateIndex) (slot : Slot) (t : PlacedTemplate) : Prop :=
  match slot with
  | .basic name => index.basic? name = some t
  | .delegate name variant priority package => ∃ division ∈ index.divisions name variant,
      division.priority = priority ∧ (package, t) ∈ division.templates

/-- Divisions fall, none is empty, and templates are stored where they belong. -/
structure Sound (index : TemplateIndex) : Prop where
  falling : ∀ name variant, Division.Falling (index.divisions name variant)
  inhabited : ∀ name variant, ∀ division ∈ index.divisions name variant, division.templates ≠ []
  slots : ∀ slot t, index.Stores slot t → t.slot = slot

theorem mem_divisions_iff {name variant : String} {division : Division} :
    division ∈ index.divisions name variant ↔
      ∃ divisions, (⟨name, variant⟩, divisions) ∈ index.byKey.entries ∧ division ∈ divisions := by
  simp only [divisions, Table.mem_entries_iff]
  cases index.byKey.get? ⟨name, variant⟩ <;> simp

theorem mem_templates_iff : t ∈ index.templates ↔ ∃ slot, index.Stores slot t := by
  have hbasic : t ∈ index.basics ↔ ∃ name, index.basic? name = some t := by
    simp [basics, Table.values, basic?, Table.mem_entries_iff]
  have hdelegate : t ∈ index.byKey.values.flatMap Division.implementations ↔
      ∃ name variant, ∃ division ∈ index.divisions name variant,
        ∃ package, (package, t) ∈ division.templates := by
    simp only [Table.values, List.mem_flatMap, List.mem_map, Division.mem_implementations,
      mem_divisions_iff]
    constructor
    · rintro ⟨_, ⟨⟨⟨name, variant⟩, divisions⟩, hentry, rfl⟩, division, hdivision, hmem⟩
      exact ⟨name, variant, division, ⟨divisions, hentry, hdivision⟩, hmem⟩
    · rintro ⟨name, variant, division, ⟨divisions, hentry, hdivision⟩, hmem⟩
      exact ⟨divisions, ⟨_, hentry, rfl⟩, division, hdivision, hmem⟩
  rw [templates, List.mem_append, hbasic]
  refine Iff.trans (or_congr_right hdelegate) ⟨?_, ?_⟩
  · rintro (⟨name, h⟩ | ⟨name, variant, division, hdivision, package, h⟩)
    · exact ⟨.basic name, h⟩
    · exact ⟨.delegate name variant division.priority package, division, hdivision, rfl, h⟩
  · rintro ⟨_ | ⟨name, variant, priority, package⟩, h⟩
    · exact .inl ⟨_, h⟩
    · obtain ⟨division, hdivision, -, h⟩ := h
      exact .inr ⟨name, variant, division, hdivision, package, h⟩

namespace Sound

variable (h : index.Sound)
include h

theorem stores_iff {slot : Slot} : index.Stores slot t ↔ t ∈ index.templates ∧ t.slot = slot := by
  constructor
  · exact fun hstores => ⟨mem_templates_iff.2 ⟨slot, hstores⟩, h.slots slot t hstores⟩
  · rintro ⟨hmem, rfl⟩
    obtain ⟨slot, hstores⟩ := mem_templates_iff.1 hmem
    rwa [h.slots slot t hstores]

theorem delegate?_eq {name variant : String} {division : Division} {package : Option String}
    (hdivision : division ∈ index.divisions name variant)
    (ht : (package, t) ∈ division.templates) :
    t.delegate? = some ⟨name, variant, package, division.priority⟩ :=
  Template.slot_eq_delegate_iff.1
    (h.slots (.delegate name variant division.priority package) t ⟨division, hdivision, rfl, ht⟩)

/-- The implementations of a delegate are the templates that implement it, in their order. -/
theorem implementations_eq (name : String) :
    index.implementations name = index.templates.filter (·.implements name) := by
  have hbasics : index.basics.filter (·.implements name) = [] := by
    refine List.filter_eq_nil_iff.2 fun t ht => ?_
    obtain ⟨⟨name', u⟩, hentry, rfl⟩ := List.mem_map.1 ht
    have hslot := h.slots (.basic name') _ (Table.mem_entries_iff.1 hentry)
    simp [Template.implements, (Template.slot_eq_basic_iff.1 hslot).1]
  have hdelegates : ∀ e ∈ index.byKey.entries, ∀ t ∈ Division.implementations e.2,
      t.implements name = (e.1.name == name) := by
    rintro ⟨⟨name', variant⟩, divisions⟩ hentry t ht
    obtain ⟨division, hdivision, package, hmem⟩ := Division.mem_implementations.1 ht
    have hd := h.delegate?_eq (mem_divisions_iff.2 ⟨divisions, hentry, hdivision⟩) hmem
    simp [Template.implements, hd]
  rw [templates, List.filter_append, hbasics, List.nil_append, implementations, allDivisions,
    Table.values, List.flatMap_map, List.flatMap_assoc]
  exact (filter_flatMap_eq hdelegates).symm

end Sound

/-! ### The list that an index stands for -/

/-- A list with one more template, whose slot must be free. -/
def addFlat (ts : List PlacedTemplate) (t : PlacedTemplate) :
    Except SlotClash (List PlacedTemplate) :=
  match ts.find? (·.slot == t.slot) with
  | some earlier => .error ⟨t.slot, earlier.mark.loc, t.mark.loc⟩
  | none => .ok (ts ++ [t])

/-- The index is sound, and it has the templates of a list without two of one slot. -/
structure Refines (index : TemplateIndex) (ts : List PlacedTemplate) : Prop
    extends index.Sound where
  perm : index.templates.Perm ts
  nodup : (ts.map (·.slot)).Nodup

namespace Refines

variable (h : index.Refines ts)
include h

theorem stores_iff {slot : Slot} : index.Stores slot t ↔ t ∈ ts ∧ t.slot = slot := by
  rw [h.toSound.stores_iff, h.perm.mem_iff]

/-- A template that the index stores is the one that the list has. -/
theorem addFlat_eq_error (hs : index.Stores t.slot s) :
    addFlat ts t = .error ⟨t.slot, s.mark.loc, t.mark.loc⟩ := by
  obtain ⟨hmem, hslot⟩ := h.stores_iff.1 hs
  cases hfind : ts.find? (·.slot == t.slot) with
  | none =>
    have hne := List.find?_eq_none.1 hfind s hmem
    exact absurd (beq_iff_eq.2 hslot) hne
  | some u =>
    have hu : u.slot = t.slot := by simpa using List.find?_some hfind
    cases List.inj_on_of_nodup_map h.nodup (List.mem_of_find?_eq_some hfind) hmem
      (hu.trans hslot.symm)
    rw [addFlat, hfind]

/-- If the index stores nothing in the slot, the list has room for the template. -/
theorem addFlat_eq_ok (hfree : ∀ s, ¬ index.Stores t.slot s) : addFlat ts t = .ok (ts ++ [t]) := by
  have hfind : ts.find? (·.slot == t.slot) = none := by
    refine List.find?_eq_none.2 fun s hs hslot => hfree s ?_
    exact h.stores_iff.2 ⟨hs, beq_iff_eq.1 hslot⟩
  rw [addFlat, hfind]

theorem refines_of_perm (hfree : ∀ s, ¬ index.Stores t.slot s) (hsound : index'.Sound)
    (hperm : index'.templates.Perm (t :: index.templates)) : index'.Refines (ts ++ [t]) where
  toSound := hsound
  perm := (hperm.trans (h.perm.cons t)).trans (List.perm_append_singleton t ts).symm
  nodup := by
    rw [List.map_append, List.map_singleton]
    refine (List.perm_append_singleton t.slot _).nodup_iff.2 (List.nodup_cons.2 ⟨?_, h.nodup⟩)
    rintro hmem
    obtain ⟨s, hs, hslot⟩ := List.mem_map.1 hmem
    exact hfree s (h.stores_iff.2 ⟨hs, hslot⟩)

end Refines

/-! ### Adding a template -/

namespace Sound

variable (h : index.Sound)
include h

theorem insert_name {name : String} (hslot : t.slot = .basic name) :
    Sound { index with byName := index.byName.insert name t } where
  falling := h.falling
  inhabited := h.inhabited
  slots
    | .basic name', u, hu => by
      rw [Stores, basic?, Table.get?_insert] at hu
      split at hu
      · rename_i hname
        cases hu
        rw [hname, hslot]
      · exact h.slots (.basic name') u hu
    | .delegate name variant priority package, u, hu =>
      h.slots (.delegate name variant priority package) u hu

variable {d : Delegate} {before after : List Division} {division : Division}

theorem insert_divisions (hd : t.delegate? = some d)
    (hopened : Division.Opened (index.divisions d.name d.variant) d.priority before division after) :
    Sound { index with
      byKey := index.byKey.insert ⟨d.name, d.variant⟩ (before ++ division.add d.package t :: after) } := by
  have hat : ∀ name variant, TemplateIndex.divisions { index with
      byKey := index.byKey.insert ⟨d.name, d.variant⟩
        (before ++ division.add d.package t :: after) } name variant =
      if name = d.name ∧ variant = d.variant then before ++ division.add d.package t :: after
      else index.divisions name variant := by
    intro name variant
    rw [TemplateIndex.divisions, Table.get?_insert]
    by_cases hkey : name = d.name ∧ variant = d.variant <;> simp [hkey, TemplateIndex.divisions]
  refine ⟨fun name variant => ?_, fun name variant e he => ?_, ?_⟩
  · rw [hat]
    split
    · exact hopened.falling_add d.package t
    · exact h.falling name variant
  · rw [hat] at he
    split at he
    · rcases hopened.mem_add he with rfl | he
      · exact List.ne_nil_of_mem (Division.mem_templates_add.2 (.inl ⟨rfl, rfl⟩))
      · exact h.inhabited _ _ e he
    · exact h.inhabited name variant e he
  · rintro (name | ⟨name, variant, priority, package⟩) u hu
    · exact h.slots (.basic name) u hu
    · obtain ⟨e, he, rfl, hmem⟩ := hu
      rw [hat] at he
      split at he
      · rename_i hkey
        obtain ⟨rfl, rfl⟩ := hkey
        rcases hopened.mem_add he with rfl | he
        · rcases Division.mem_templates_add.1 hmem with ⟨rfl, rfl⟩ | ⟨hmem, -⟩
          · exact hopened.priority_eq ▸ Template.slot_eq_delegate_iff.2 hd
          · obtain ⟨e, he, hpriority, hmem⟩ := hopened.mem_templates_iff.1 hmem
            exact h.slots (.delegate _ _ _ _) u
              ⟨e, he, hpriority.trans hopened.priority_eq.symm, hmem⟩
        · exact h.slots (.delegate _ _ _ _) u ⟨e, he, rfl, hmem⟩
      · exact h.slots (.delegate _ _ _ _) u ⟨e, he, rfl, hmem⟩

end Sound

namespace Refines

variable (h : index.Refines ts)
include h

theorem tallies_addBasic (ht : t.delegate? = none) :
    Tallies Eq Refines (index.addBasic t) (addFlat ts t) := by
  have hslot : t.slot = .basic t.info.name := Template.slot_eq_basic_iff.2 ⟨ht, rfl⟩
  cases hold : index.byName.get? t.info.name with
  | some s =>
    have hs : index.Stores t.slot s := hslot ▸ hold
    rw [addBasic, hold, h.addFlat_eq_error hs]
    exact .error rfl
  | none =>
    have hfree : ∀ s, ¬ index.Stores t.slot s := by
      intro s hs
      rw [hslot, Stores, basic?, hold] at hs
      cases hs
    rw [addBasic, hold, h.addFlat_eq_ok hfree]
    refine .ok (h.refines_of_perm hfree (h.insert_name hslot) ?_)
    exact (Table.perm_values_insert hold t).append_right _

theorem tallies_addDelegate {d : Delegate} (hd : t.delegate? = some d) :
    Tallies Eq Refines (index.addDelegate d t) (addFlat ts t) := by
  have hslot : t.slot = .delegate d.name d.variant d.priority d.package :=
    Template.slot_eq_delegate_iff.2 hd
  obtain ⟨before, division, after, hopen, hopened⟩ :=
    Division.exists_openAt (h.falling d.name d.variant) d.priority
  have hstores : ∀ s, index.Stores t.slot s ↔ division.byPackage.get? d.package = some s := by
    intro s
    rw [hslot, ← Table.mem_entries_iff]
    exact hopened.mem_templates_iff.symm
  have hadd : index.addDelegate d t = match division.byPackage.get? d.package with
      | some earlier => .error ⟨t.slot, earlier.mark.loc, t.mark.loc⟩
      | none => .ok { index with
          byKey := index.byKey.insert ⟨d.name, d.variant⟩
            (before ++ division.add d.package t :: after) } := by
    have hat : (before ++ division :: after)[before.length]? = some division := by simp
    rw [addDelegate, hopen]
    dsimp only
    rw [hat, modify_length_append]
    rfl
  rw [hadd]
  cases hold : division.byPackage.get? d.package with
  | some s =>
    rw [h.addFlat_eq_error ((hstores s).2 hold)]
    exact .error rfl
  | none =>
    have hfree : ∀ s, ¬ index.Stores t.slot s := by
      intro s hs
      rw [hstores, hold] at hs
      cases hs
    rw [h.addFlat_eq_ok hfree]
    refine .ok (h.refines_of_perm hfree (h.insert_divisions hd hopened) ?_)
    refine List.Perm.trans (List.Perm.append_left _ (Table.perm_flatMap_insert ?_)) List.perm_middle
    refine (hopened.perm_add hold).trans (List.Perm.of_eq ?_)
    rw [divisions]
    cases index.byKey.get? ⟨d.name, d.variant⟩ <;> simp [Division.implementations]

/-- **One template more.**  Adding a template to an index does what adding it to a list does:
    it is added, and the divisions still fall, or the same clash is found. -/
theorem tallies_add (t : PlacedTemplate) : Tallies Eq Refines (index.add t) (addFlat ts t) := by
  rw [add]
  cases hd : t.delegate? with
  | none => exact h.tallies_addBasic hd
  | some d => exact h.tallies_addDelegate hd

end Refines

theorem refines_empty : Refines {} [] where
  falling _ _ := .nil
  inhabited _ _ _ h := by cases h
  slots
    | .basic _, _, h => by cases h
    | .delegate .., _, ⟨_, h, _⟩ => by cases h
  perm := .nil
  nodup := .nil

/-- **Building an index refines building a list.** -/
theorem build_refines (ts : List PlacedTemplate) :
    Tallies Eq Refines (build ts) (ts.foldlM addFlat []) :=
  tallies_foldlM (fun t _ _ _ h => h.tallies_add t) refines_empty

/-! ### Building the list -/

theorem foldlM_addFlat_of_nodup {before : List PlacedTemplate}
    (h : ((before ++ ts).map (·.slot)).Nodup) : ts.foldlM addFlat before = .ok (before ++ ts) := by
  induction ts generalizing before with
  | nil => rw [List.append_nil]; rfl
  | cons t rest ih =>
    have hfind : before.find? (·.slot == t.slot) = none := by
      refine List.find?_eq_none.2 fun s hs hslot => ?_
      rw [List.map_append, List.map_cons] at h
      have hne := (List.nodup_append.1 h).2.2 _ (List.mem_map_of_mem hs) _ List.mem_cons_self
      exact hne (beq_iff_eq.1 hslot)
    rw [List.foldlM_cons, addFlat, hfind]
    rw [List.append_cons] at h
    exact (ih h).trans (by rw [List.append_assoc]; rfl)

theorem eq_of_foldlM_addFlat {before after : List PlacedTemplate}
    (h : ts.foldlM addFlat before = .ok after) : after = before ++ ts := by
  induction ts generalizing before with
  | nil =>
    cases h
    exact (List.append_nil _).symm
  | cons t rest ih =>
    rw [List.foldlM_cons, addFlat] at h
    cases hfind : before.find? (·.slot == t.slot) with
    | some earlier =>
      rw [hfind] at h
      cases h
    | none =>
      rw [hfind] at h
      simpa using ih h

/-- A clash names a template and an earlier one. -/
theorem exists_of_foldlM_addFlat {before : List PlacedTemplate} {clash : SlotClash}
    (h : ts.foldlM addFlat before = .error clash) :
    ∃ t u, [t, u].Sublist (before ++ ts) ∧ t.slot = u.slot ∧
      clash = ⟨t.slot, t.mark.loc, u.mark.loc⟩ := by
  induction ts generalizing before with
  | nil => cases h
  | cons u rest ih =>
    rw [List.foldlM_cons, addFlat] at h
    cases hfind : before.find? (·.slot == u.slot) with
    | none =>
      rw [hfind] at h
      simpa using ih h
    | some t =>
      rw [hfind] at h
      cases h
      have hslot : t.slot = u.slot := by simpa using List.find?_some hfind
      have ht := List.singleton_sublist.2 (List.mem_of_find?_eq_some hfind)
      have hu := List.singleton_sublist.2 (List.mem_cons_self (a := u) (l := rest))
      exact ⟨t, u, ht.append hu, hslot, by rw [hslot]⟩

/-! ### What building comes to -/

/-- An index that can be built has the templates, and their slots differ. -/
theorem refines_of_build_eq_ok (h : build ts = .ok index) : index.Refines ts := by
  have hbuild := build_refines ts
  rw [h] at hbuild
  cases hflat : ts.foldlM addFlat [] with
  | error clash =>
    rw [hflat] at hbuild
    cases hbuild
  | ok flat =>
    rw [hflat] at hbuild
    cases hbuild with
    | ok hrefines => rwa [eq_of_foldlM_addFlat hflat, List.nil_append] at hrefines

/-- An index can be built of templates exactly if their slots differ. -/
theorem exists_build_iff :
    (∃ index, build ts = .ok index) ↔ (ts.map (·.slot)).Nodup := by
  constructor
  · rintro ⟨index, h⟩
    exact (refines_of_build_eq_ok h).nodup
  · intro hnodup
    have hbuild := build_refines ts
    have hflat : ts.foldlM addFlat [] = .ok ts := foldlM_addFlat_of_nodup hnodup
    rw [hflat] at hbuild
    cases hindex : build ts with
    | ok index => exact ⟨index, rfl⟩
    | error clash =>
      rw [hindex] at hbuild
      cases hbuild

/-- A clash names two templates of one slot, the earlier first. -/
theorem exists_of_build_eq_error {clash : SlotClash} (h : build ts = .error clash) :
    ∃ t u, [t, u].Sublist ts ∧ t.slot = u.slot ∧ clash = ⟨t.slot, t.mark.loc, u.mark.loc⟩ := by
  have hbuild := build_refines ts
  rw [h] at hbuild
  cases hflat : ts.foldlM addFlat [] with
  | ok flat =>
    rw [hflat] at hbuild
    cases hbuild
  | error clash' =>
    rw [hflat] at hbuild
    cases hbuild with
    | error heq => exact heq ▸ exists_of_foldlM_addFlat hflat

end TemplateIndex

end Stencil
