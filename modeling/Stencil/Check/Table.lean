/-
  Stencil/Check/Table.lean
  ========================
  **Tables**: values under keys, listed in ascending order of key.

  A value goes in where its key belongs, in place of the value that was there.
  What that does to the list is said by how the list splits at the key
  (`exists_split`); all else about tables follows from it.
-/

namespace Stencil

/-- Values under keys, one for a key, in ascending order of key. -/
structure Table (κ β : Type) [Ord κ] where
  entries : List (κ × β) := []
  ascending : entries.Pairwise (fun a b => compare a.1 b.1 = .lt) := by exact .nil

namespace Table

variable {κ β : Type} [Ord κ]

/-- The value under a key among entries. -/
def valueAt? (key : κ) : List (κ × β) → Option β
  | [] => none
  | (k, v) :: rest => if compare key k = .eq then some v else valueAt? key rest

/-- Ascending entries with a value under a key. -/
def insertEntry (key : κ) (value : β) : List (κ × β) → List (κ × β)
  | [] => [(key, value)]
  | (k, v) :: rest =>
    match compare key k with
    | .lt => (key, value) :: (k, v) :: rest
    | .eq => (key, value) :: rest
    | .gt => (k, v) :: insertEntry key value rest

theorem valueAt?_eq_none {key : κ} {entries : List (κ × β)}
    (h : ∀ e ∈ entries, compare key e.1 = .lt) : valueAt? key entries = none := by
  induction entries with
  | nil => rfl
  | cons first rest ih =>
    have hfirst := h first List.mem_cons_self
    rw [valueAt?, hfirst]
    exact ih fun e he => h e (List.mem_cons_of_mem _ he)

section Order

variable [Std.TransOrd κ] [Std.LawfulEqOrd κ]

/-- Ascending entries split at a key: lower keys, the value under the key if there is one,
    and higher keys; and another value comes in its place. -/
theorem exists_split {entries : List (κ × β)}
    (h : entries.Pairwise fun a b => compare a.1 b.1 = .lt) (key : κ) :
    ∃ before after,
      entries = before ++ ((valueAt? key entries).toList.map (key, ·) ++ after) ∧
      (∀ e ∈ before, compare e.1 key = .lt) ∧ (∀ e ∈ after, compare key e.1 = .lt) ∧
      ∀ value, insertEntry key value entries = before ++ (key, value) :: after := by
  induction entries with
  | nil =>
    refine ⟨[], [], rfl, fun _ he => ?_, fun _ he => ?_, fun _ => rfl⟩ <;> cases he
  | cons first rest ih =>
    obtain ⟨k, v⟩ := first
    obtain ⟨hfirst, hrest⟩ := List.pairwise_cons.1 h
    cases hkey : compare key k with
    | lt =>
      have hafter : ∀ e ∈ (k, v) :: rest, compare key e.1 = .lt := by
        intro e he
        rcases List.mem_cons.1 he with rfl | he
        · exact hkey
        · exact Std.TransCmp.lt_trans hkey (hfirst e he)
      refine ⟨[], (k, v) :: rest, ?_, fun _ he => (by cases he), hafter, fun value => ?_⟩
      · rw [valueAt?_eq_none hafter]
        rfl
      · rw [insertEntry, hkey]
        rfl
    | eq =>
      cases Std.LawfulEqCmp.eq_of_compare hkey
      refine ⟨[], rest, ?_, fun _ he => (by cases he), hfirst, fun value => ?_⟩
      · rw [valueAt?, if_pos hkey]
        rfl
      · rw [insertEntry, hkey]
        rfl
    | gt =>
      have hk : compare k key = .lt := Std.OrientedCmp.gt_iff_lt.1 hkey
      obtain ⟨before, after, hentries, hbefore, hafter, hinsert⟩ := ih hrest
      refine ⟨(k, v) :: before, after, ?_, ?_, hafter, fun value => ?_⟩
      · rw [valueAt?, if_neg (by rw [hkey]; decide), List.cons_append, ← hentries]
      · exact List.forall_mem_cons.2 ⟨hk, hbefore⟩
      · rw [insertEntry, hkey]
        exact congrArg ((k, v) :: ·) (hinsert value)

theorem ascending_insertEntry {entries : List (κ × β)}
    (h : entries.Pairwise fun a b => compare a.1 b.1 = .lt) (key : κ) (value : β) :
    (insertEntry key value entries).Pairwise fun a b => compare a.1 b.1 = .lt := by
  obtain ⟨before, after, hentries, hbefore, hafter, hinsert⟩ := exists_split h key
  rw [hentries, List.pairwise_append, List.pairwise_append] at h
  rw [hinsert, List.pairwise_append, List.pairwise_cons]
  refine ⟨h.1, ⟨hafter, h.2.1.2.1⟩, fun e he e' he' => ?_⟩
  rcases List.mem_cons.1 he' with rfl | he'
  · exact hbefore e he
  · exact h.2.2 e he e' (List.mem_append_right _ he')

end Order

/-! ### Tables -/

/-- The value under a key. -/
def get? (table : Table κ β) (key : κ) : Option β := valueAt? key table.entries

/-- The values in ascending order of key. -/
def values (table : Table κ β) : List β := table.entries.map (·.2)

variable [Std.TransOrd κ] [Std.LawfulEqOrd κ]

/-- The table with a value under a key. -/
def insert (table : Table κ β) (key : κ) (value : β) : Table κ β where
  entries := insertEntry key value table.entries
  ascending := ascending_insertEntry table.ascending key value

/-- The entries of a table split at a key, and another value comes there. -/
theorem exists_entries_split (table : Table κ β) (key : κ) :
    ∃ before after, table.entries = before ++ ((table.get? key).toList.map (key, ·) ++ after) ∧
      (∀ e ∈ before ++ after, e.1 ≠ key) ∧
      ∀ value, (table.insert key value).entries = before ++ (key, value) :: after := by
  obtain ⟨before, after, hentries, hbefore, hafter, hinsert⟩ := exists_split table.ascending key
  refine ⟨before, after, hentries, fun e he hkey => ?_, hinsert⟩
  have hself : compare key key = .eq := Std.ReflCmp.compare_self
  rcases List.mem_append.1 he with he | he
  · have hlt := hbefore e he
    rw [hkey, hself] at hlt
    cases hlt
  · have hlt := hafter e he
    rw [hkey, hself] at hlt
    cases hlt

/-- A table finds exactly its entries. -/
theorem mem_entries_iff {table : Table κ β} {key : κ} {value : β} :
    (key, value) ∈ table.entries ↔ table.get? key = some value := by
  obtain ⟨before, after, hentries, hother, -⟩ := table.exists_entries_split key
  rw [hentries, List.mem_append, List.mem_append]
  constructor
  · rintro (h | h | h)
    · exact absurd rfl (hother _ (List.mem_append_left _ h))
    · obtain ⟨v, hv, heq⟩ := List.mem_map.1 h
      cases heq
      exact Option.mem_toList.1 hv
    · exact absurd rfl (hother _ (List.mem_append_right _ h))
  · exact fun h => .inr (.inl (List.mem_map.2 ⟨value, Option.mem_toList.2 h, rfl⟩))

theorem mem_insert_iff {table : Table κ β} {key : κ} {value : β} {e : κ × β} :
    e ∈ (table.insert key value).entries ↔
      e = (key, value) ∨ e ∈ table.entries ∧ e.1 ≠ key := by
  obtain ⟨before, after, hentries, hother, hinsert⟩ := table.exists_entries_split key
  rw [hinsert, hentries, List.mem_append, List.mem_cons, List.mem_append, List.mem_append]
  constructor
  · rintro (h | h | h)
    · exact .inr ⟨.inl h, hother e (List.mem_append_left _ h)⟩
    · exact .inl h
    · exact .inr ⟨.inr (.inr h), hother e (List.mem_append_right _ h)⟩
  · rintro (rfl | ⟨h | h | h, hne⟩)
    · exact .inr (.inl rfl)
    · exact .inl h
    · obtain ⟨v, -, rfl⟩ := List.mem_map.1 h
      exact absurd rfl hne
    · exact .inr (.inr h)

end Table

end Stencil
