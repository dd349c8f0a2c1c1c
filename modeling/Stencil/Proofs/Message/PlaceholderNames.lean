/-
  Stencil/Proofs/Message/PlaceholderNames.lean
  ============================================
  **What final names tell apart.**

  Placeholders of one base name get one final name exactly if they have one key.
  Numbered names of different bases differ, since a number holds no underscore.
  What is left is a base name that is not numbered itself but reads like a
  numbered name of another base: where that happens two different placeholders
  share a name, and it is the only way (`namesIdentify_iff`).
-/
import Mathlib.Data.List.Basic
import Std.Data.String.ToNat
import Stencil.Message.Placeholder

namespace Stencil.Message

variable {α : Type}

/-! ### Numbered names -/

theorem underscore_notMem_repr (n : Nat) : '_' ∉ (toString n).toList := by
  intro h
  rw [Nat.toString_eq_repr, Nat.toList_repr] at h
  have hdigit := Nat.isDigit_of_mem_toDigits (by decide) (by decide) h
  exact absurd hdigit (by decide)

theorem numbered_inj {base other : String} {m n : Nat}
    (h : base ++ "_" ++ toString m = other ++ "_" ++ toString n) : base = other ∧ m = n := by
  have hlist := congrArg (fun s : String => s.toList.reverse) h
  have hsplit : (toString m).toList.reverse ++ '_' :: base.toList.reverse =
      (toString n).toList.reverse ++ '_' :: other.toList.reverse := by simpa using hlist
  -- the number ends at the last underscore
  have htake := congrArg (List.takeWhile (· ≠ '_')) hsplit
  have hdrop := congrArg (List.dropWhile (· ≠ '_')) hsplit
  have hdigits : ∀ k : Nat, ∀ c ∈ (toString k).toList.reverse, decide (c ≠ '_') = true := by
    intro k c hc
    rw [decide_eq_true_eq]
    rintro rfl
    exact underscore_notMem_repr k (List.mem_reverse.1 hc)
  rw [List.takeWhile_append_of_pos (hdigits m), List.takeWhile_append_of_pos (hdigits n)] at htake
  rw [List.dropWhile_append_of_pos (hdigits m), List.dropWhile_append_of_pos (hdigits n)] at hdrop
  refine ⟨?_, ?_⟩
  · exact String.toList_inj.1 (by simpa using hdrop)
  · apply Nat.repr_injective
    apply String.toList_inj.1
    simpa using htake

/-! ### Labels of a named body -/

/-- The base name and key of a placeholder. -/
def label? (part : Tree α) : Option (String × PlaceholderKey) :=
  match part.content with
  | .placeholder name key => some (name, key)
  | _ => none

/-- A placeholder renamed by its label, and any other content as it is. -/
def rename (g : String → PlaceholderKey → String) : Content → Content
  | .placeholder base key => .placeholder (g base key) key
  | other => other

theorem nameAll_eq (body : List (Tree α)) :
    nameAll body = mapPlaceholders (rename (finalName (labels body))) body := rfl

theorem labels_eq (body : List (Tree α)) :
    labels body = (placeholders body).filterMap label? := rfl

mutual

theorem placeholders_mapPlaceholder (g : String → PlaceholderKey → String) :
    (part : Tree α) → partPlaceholders (mapPlaceholder (rename g) part) =
      (partPlaceholders part).map fun p => p.withContent (rename g p.content)
  | .node mark content children => by
    have hchildren := placeholders_mapPlaceholders g children
    cases content <;>
      simp only [mapPlaceholder, partPlaceholders, rename, hchildren, List.map_nil,
        List.map_cons, Tree.withContent, Tree.content_node]

theorem placeholders_mapPlaceholders (g : String → PlaceholderKey → String) :
    (body : List (Tree α)) → placeholders (mapPlaceholders (rename g) body) =
      (placeholders body).map fun p => p.withContent (rename g p.content)
  | [] => rfl
  | part :: rest => by
    rw [mapPlaceholders, placeholders, placeholders, List.map_append,
      placeholders_mapPlaceholder g part, placeholders_mapPlaceholders g rest]

end

theorem label?_withContent_rename (g : String → PlaceholderKey → String) (part : Tree α) :
    label? (part.withContent (rename g part.content)) =
      (label? part).map fun p => (g p.1 p.2, p.2) := by
  obtain ⟨mark, content, children⟩ := part
  cases content <;> rfl

/-- Naming keeps the placeholders in place and their keys. -/
theorem labels_nameAll (body : List (Tree α)) :
    labels (nameAll body) =
      (labels body).map fun p => (finalName (labels body) p.1 p.2, p.2) := by
  rw [labels_eq, nameAll_eq, placeholders_mapPlaceholders, List.filterMap_map, labels_eq,
    List.map_filterMap]
  apply List.filterMap_congr
  intro part _
  exact label?_withContent_rename _ part

/-! ### The keys under a base name -/

theorem nodup_eraseDups {β : Type} [BEq β] [LawfulBEq β] (l : List β) : l.eraseDups.Nodup := by
  -- what is left after the head is a filtered tail, hence induction on the length
  induction hn : l.length using Nat.strongRecOn generalizing l with
  | ind n ih =>
    cases l with
    | nil => simp
    | cons x rest =>
      rw [List.eraseDups_cons, List.nodup_cons]
      constructor
      · simp
      · have hlen := List.length_filter_le (fun b => !b == x) rest
        simp only [List.length_cons] at hn
        exact ih _ (by omega) _ rfl

@[simp] theorem mem_keysOf {all : List (String × PlaceholderKey)} {base : String}
    {key : PlaceholderKey} : key ∈ keysOf all base ↔ (base, key) ∈ all := by
  simp [keysOf]

theorem nodup_keysOf (all : List (String × PlaceholderKey)) (base : String) :
    (keysOf all base).Nodup := nodup_eraseDups _

/-! ### When final names are equal -/

/-- The placeholders with a base name have several keys, so that they are
    numbered. -/
def Numbered (all : List (String × PlaceholderKey)) (base : String) : Prop :=
  1 < (keysOf all base).length

/-- A base name that is not numbered is the final name of the placeholder
    with another label. -/
def ReadsLike (all : List (String × PlaceholderKey)) (base other : String)
    (key : PlaceholderKey) : Prop :=
  ¬ Numbered all base ∧ Numbered all other ∧
    base = other ++ "_" ++ toString ((keysOf all other).idxOf key + 1)

variable {all : List (String × PlaceholderKey)} {base other : String}
  {key key' : PlaceholderKey}

theorem finalName_of_numbered (h : Numbered all base) (key : PlaceholderKey) :
    finalName all base key = base ++ "_" ++ toString ((keysOf all base).idxOf key + 1) :=
  if_pos h

theorem finalName_of_not_numbered (h : ¬ Numbered all base) (key : PlaceholderKey) :
    finalName all base key = base := if_neg h

theorem key_eq_of_not_numbered (h : ¬ Numbered all base) (hkey : (base, key) ∈ all)
    (hkey' : (base, key') ∈ all) : key = key' := by
  have hmem := mem_keysOf.2 hkey
  have hmem' := mem_keysOf.2 hkey'
  rw [Numbered, Nat.not_lt] at h
  obtain ⟨only, honly⟩ := List.length_eq_one_iff.1
    (Nat.le_antisymm h (List.length_pos_of_mem hmem))
  rw [honly, List.mem_singleton] at hmem hmem'
  rw [hmem, hmem']

theorem base_ne_of_readsLike (h : ReadsLike all base other key) : base ≠ other := by
  rintro rfl
  exact h.1 h.2.1

/-- Two placeholders of a message have one final name if they have one label,
    or if the base name of one reads like the numbered name of the other. -/
theorem finalName_eq_iff (hmem : (base, key) ∈ all) (hmem' : (other, key') ∈ all) :
    finalName all base key = finalName all other key' ↔
      (base, key) = (other, key') ∨ ReadsLike all base other key' ∨
        ReadsLike all other base key := by
  constructor
  · intro h
    by_cases hb : Numbered all base <;> by_cases ho : Numbered all other
    · rw [finalName_of_numbered hb, finalName_of_numbered ho] at h
      obtain ⟨rfl, hidx⟩ := numbered_inj h
      have hkey := (List.idxOf_inj (mem_keysOf.2 hmem)).1 (Nat.succ.inj hidx)
      exact .inl (by rw [hkey])
    · rw [finalName_of_numbered hb, finalName_of_not_numbered ho] at h
      exact .inr (.inr ⟨ho, hb, h.symm⟩)
    · rw [finalName_of_not_numbered hb, finalName_of_numbered ho] at h
      exact .inr (.inl ⟨hb, ho, h⟩)
    · rw [finalName_of_not_numbered hb, finalName_of_not_numbered ho] at h
      subst h
      exact .inl (by rw [key_eq_of_not_numbered hb hmem hmem'])
  · rintro (h | h | h)
    · obtain ⟨rfl, rfl⟩ := Prod.mk.inj h
      rfl
    · rw [finalName_of_not_numbered h.1, finalName_of_numbered h.2.1, ← h.2.2]
    · rw [finalName_of_not_numbered h.1, finalName_of_numbered h.2.1, ← h.2.2]

/-! ### What final names identify -/

/-- The names of the placeholders of a named body in order. -/
def finalNames (body : List (Tree α)) : List String :=
  (placeholders (nameAll body)).filterMap placeholderName?

/-- Any two placeholders have the same final name just in case they had the same
    base name and the same key. -/
def NamesIdentify (body : List (Tree α)) : Prop :=
  ∀ i j, i < (placeholders body).length → j < (placeholders body).length →
    ((finalNames body)[i]? = (finalNames body)[j]? ↔ (labels body)[i]? = (labels body)[j]?)

theorem placeholderName?_eq (part : Tree α) : placeholderName? part = (label? part).map (·.1) := by
  obtain ⟨mark, content, children⟩ := part
  cases content <;> rfl

theorem finalNames_eq (body : List (Tree α)) :
    finalNames body = (labels body).map fun p => finalName (labels body) p.1 p.2 := by
  have hnames : finalNames body = (labels (nameAll body)).map (·.1) := by
    rw [finalNames, labels_eq, List.map_filterMap]
    exact List.filterMap_congr fun part _ => placeholderName?_eq part
  rw [hnames, labels_nameAll, List.map_map]
  rfl

mutual

theorem isSome_label?_of_mem_part :
    (part : Tree α) → ∀ p ∈ partPlaceholders part, (label? p).isSome
  | .node mark content children => by
    have hchildren := isSome_label?_of_mem children
    cases content <;> simp_all [partPlaceholders, label?]

theorem isSome_label?_of_mem :
    (body : List (Tree α)) → ∀ p ∈ placeholders body, (label? p).isSome
  | [] => by simp [placeholders]
  | part :: rest => by
    intro p hp
    rw [placeholders, List.mem_append] at hp
    rcases hp with hp | hp
    · exact isSome_label?_of_mem_part part p hp
    · exact isSome_label?_of_mem rest p hp

end

/-- Every placeholder has a label. -/
theorem length_labels (body : List (Tree α)) :
    (labels body).length = (placeholders body).length := by
  rw [labels_eq, List.filterMap_length_eq_length]
  exact isSome_label?_of_mem body

/-- It is enough to compare the labels of a body with each other. -/
theorem namesIdentify_iff_labels (body : List (Tree α)) :
    NamesIdentify body ↔ ∀ p ∈ labels body, ∀ q ∈ labels body,
      finalName (labels body) p.1 p.2 = finalName (labels body) q.1 q.2 ↔ p = q := by
  have hget : ∀ i (hi : i < (labels body).length), (finalNames body)[i]? =
      some (finalName (labels body) (labels body)[i].1 (labels body)[i].2) := by
    intro i hi
    rw [finalNames_eq, List.getElem?_map, List.getElem?_eq_getElem hi, Option.map_some]
  rw [NamesIdentify, ← length_labels]
  constructor
  · intro h p hp q hq
    obtain ⟨i, hi, rfl⟩ := List.mem_iff_getElem.1 hp
    obtain ⟨j, hj, rfl⟩ := List.mem_iff_getElem.1 hq
    have hij := h i j hi hj
    rwa [hget i hi, hget j hj, List.getElem?_eq_getElem hi, List.getElem?_eq_getElem hj,
      Option.some.injEq, Option.some.injEq] at hij
  · intro h i j hi hj
    rw [hget i hi, hget j hj, List.getElem?_eq_getElem hi, List.getElem?_eq_getElem hj,
      Option.some.injEq, Option.some.injEq]
    exact h _ (List.getElem_mem hi) _ (List.getElem_mem hj)

/-- Final names identify the placeholders of a message body, unless a base name
    with a single key is another base name of the body with several keys, an
    underscore, and the number of one of these keys. -/
theorem namesIdentify_iff (body : List (Tree α)) :
    NamesIdentify body ↔
      ¬ ∃ base other n, base ∈ (labels body).map (·.1) ∧
        ¬ Numbered (labels body) base ∧ Numbered (labels body) other ∧
        n < (keysOf (labels body) other).length ∧
        base = other ++ "_" ++ toString (n + 1) := by
  rw [namesIdentify_iff_labels]
  constructor
  · rintro h ⟨_, other, n, hbase, hplain, hnumbered, hn, hreads⟩
    obtain ⟨⟨base, key⟩, hmem, rfl⟩ := List.mem_map.1 hbase
    -- the key with the number that the base name ends in
    have hmem' : (other, (keysOf (labels body) other)[n]) ∈ labels body :=
      mem_keysOf.1 (List.getElem_mem hn)
    have hlike : ReadsLike (labels body) base other (keysOf (labels body) other)[n] := by
      refine ⟨hplain, hnumbered, ?_⟩
      rw [(nodup_keysOf _ _).idxOf_getElem n hn]
      exact hreads
    have hsame := (h _ hmem _ hmem').1 ((finalName_eq_iff hmem hmem').2 (.inr (.inl hlike)))
    exact base_ne_of_readsLike hlike (Prod.mk.inj hsame).1
  · rintro h ⟨base, key⟩ hmem ⟨other, key'⟩ hmem'
    have hunlike : ∀ {base other key key'}, (base, key) ∈ labels body →
        (other, key') ∈ labels body → ¬ ReadsLike (labels body) base other key' := by
      intro base other key key' hmem hmem' ⟨hplain, hnumbered, hreads⟩
      exact h ⟨base, other, _, List.mem_map_of_mem hmem, hplain, hnumbered,
        List.idxOf_lt_length_of_mem (mem_keysOf.2 hmem'), hreads⟩
    rw [finalName_eq_iff hmem hmem']
    constructor
    · rintro (hsame | hlike | hlike)
      · exact hsame
      · exact absurd hlike (hunlike hmem hmem')
      · exact absurd hlike (hunlike hmem' hmem)
    · exact .inl

/-- Prints of `$a.foo`, `$b.foo` and `$foo_1`: the first of the two called `FOO`
    gets the name that the third one has. -/
theorem not_namesIdentify_foo : ¬ NamesIdentify
    ([.leaf 1 (.placeholder "FOO" (.shared "print:$a.foo|")),
      .leaf 1 (.placeholder "FOO" (.shared "print:$b.foo|")),
      .leaf 1 (.placeholder "FOO_1" (.shared "print:$foo_1|"))] : List Draft) := by
  intro h
  have hsame := (h 0 2 (by decide) (by decide)).1 (by decide)
  revert hsame
  decide

end Stencil.Message
