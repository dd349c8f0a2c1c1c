/-
  Stencil/Proofs/Build/Names.lean
  ===============================
  **Naming placed placeholders.**

  In a draft calls are told apart by numbers, once placed by their identities.
  Names only depend on which keys are equal, so naming the placed body of a message
  is placing the named one, as long as no two calls of the message share a
  number or an identity.
-/
import Stencil.Proofs.Message.PlaceholderNames
import Stencil.Proofs.Tree.Growth

namespace Stencil

/-! ### Lists whose members a map tells apart -/

section Lists

variable {α β : Type} [BEq α] [LawfulBEq α] [BEq β] [LawfulBEq β] {f : α → β} {l : List α}

theorem idxOf_map_of_injOn {a : α} (h : ∀ b ∈ l, f b = f a → b = a) :
    (l.map f).idxOf (f a) = l.idxOf a := by
  induction l with
  | nil => rfl
  | cons b rest ih =>
    have hb : (f b == f a) = (b == a) := by
      rw [Bool.eq_iff_iff, beq_iff_eq, beq_iff_eq]
      exact ⟨h b (List.mem_cons_self ..), congrArg f⟩
    rw [List.map_cons, List.idxOf_cons, List.idxOf_cons, hb,
      ih fun c hc => h c (List.mem_cons_of_mem _ hc)]

theorem eraseDups_map_of_injOn (h : ∀ a ∈ l, ∀ b ∈ l, f a = f b → a = b) :
    (l.map f).eraseDups = l.eraseDups.map f := by
  -- what is left after the head is a filtered tail, hence induction on the length
  induction hn : l.length using Nat.strongRecOn generalizing l with
  | ind n ih =>
    cases l with
    | nil => rfl
    | cons a rest =>
      have hrest : ∀ b ∈ rest, ((fun c => !c == f a) ∘ f) b = !b == a := by
        intro b hb
        have hab : (f b == f a) = (b == a) := by
          rw [Bool.eq_iff_iff, beq_iff_eq, beq_iff_eq]
          exact ⟨h b (List.mem_cons_of_mem _ hb) a (List.mem_cons_self ..), congrArg f⟩
        rw [Function.comp_apply, hab]
      have hlen := List.length_filter_le (fun b => !b == a) rest
      rw [List.length_cons] at hn
      rw [List.map_cons, List.eraseDups_cons, List.eraseDups_cons, List.map_cons, List.filter_map,
        List.filter_congr hrest]
      refine congrArg (f a :: ·) (ih _ (by omega) (fun b hb c hc => ?_) rfl)
      exact h b (List.mem_cons_of_mem _ (List.mem_filter.1 hb).1) c
        (List.mem_cons_of_mem _ (List.mem_filter.1 hc).1)

end Lists

namespace Message

open Stencil.Tree (claimKey)

/-! ### Keys of placed placeholders -/

/-- The base name of a placeholder, its key in a draft, and its key once it is
    placed. -/
structure Claim where
  base : String
  key : PlaceholderKey
  claimed : PlaceholderKey

namespace Claim

/-- The label of the placeholder in the draft. -/
def draftLabel (c : Claim) : String × PlaceholderKey := (c.base, c.key)

/-- The label of the placeholder once it is placed. -/
def placedLabel (c : Claim) : String × PlaceholderKey := (c.base, c.claimed)

end Claim

/-- Claims with one key in the draft are those with one key once they are placed. -/
def SameKeys (claims : List Claim) : Prop :=
  ∀ c ∈ claims, ∀ c' ∈ claims, c.key = c'.key ↔ c.claimed = c'.claimed

/-- Placing changes no name. -/
theorem finalName_claimed {claims : List Claim} (h : SameKeys claims) {c : Claim}
    (hc : c ∈ claims) :
    finalName (claims.map Claim.placedLabel) c.base c.claimed =
      finalName (claims.map Claim.draftLabel) c.base c.key := by
  -- the pairs of keys under the base name, of which either key tells the other
  let pairs := (claims.filter (·.base == c.base)).map fun c => (c.key, c.claimed)
  have hpair : (c.key, c.claimed) ∈ pairs :=
    List.mem_map_of_mem (List.mem_filter.2 ⟨hc, beq_self_eq_true c.base⟩)
  have hkey : ∀ p ∈ pairs, ∀ q ∈ pairs, p.1 = q.1 → p = q := by
    intro p hp q hq hpq
    obtain ⟨d, hd, rfl⟩ := List.mem_map.1 hp
    obtain ⟨e, he, rfl⟩ := List.mem_map.1 hq
    exact Prod.ext hpq ((h d (List.mem_filter.1 hd).1 e (List.mem_filter.1 he).1).1 hpq)
  have hclaimed : ∀ p ∈ pairs, ∀ q ∈ pairs, p.2 = q.2 → p = q := by
    intro p hp q hq hpq
    obtain ⟨d, hd, rfl⟩ := List.mem_map.1 hp
    obtain ⟨e, he, rfl⟩ := List.mem_map.1 hq
    exact Prod.ext ((h d (List.mem_filter.1 hd).1 e (List.mem_filter.1 he).1).2 hpq) hpq
  have hdraft : keysOf (claims.map Claim.draftLabel) c.base = pairs.eraseDups.map Prod.fst := by
    rw [← eraseDups_map_of_injOn hkey, keysOf, List.filter_map, List.map_map, List.map_map]
    rfl
  have hplaced : keysOf (claims.map Claim.placedLabel) c.base = pairs.eraseDups.map Prod.snd := by
    rw [← eraseDups_map_of_injOn hclaimed, keysOf, List.filter_map, List.map_map, List.map_map]
    rfl
  have hmem : ∀ p ∈ pairs.eraseDups, p ∈ pairs := fun p hp => List.mem_eraseDups.1 hp
  have hidx := idxOf_map_of_injOn (l := pairs.eraseDups) (f := Prod.fst) (a := (c.key, c.claimed))
    fun p hp => hkey p (hmem p hp) _ hpair
  have hidx' := idxOf_map_of_injOn (l := pairs.eraseDups) (f := Prod.snd) (a := (c.key, c.claimed))
    fun p hp => hclaimed p (hmem p hp) _ hpair
  dsimp only at hidx hidx'
  rw [finalName, finalName, hdraft, hplaced, hidx, hidx', List.length_map, List.length_map]

/-! ### Claims of numbered bodies -/

/-- What a numbered placeholder claims once it is linked. -/
def claim? (n : Tree.Numbered) : Option Claim :=
  match n.content, claimKey n.content n.children with
  | .placeholder base key, .placeholder _ claimed => some ⟨base, key, claimed⟩
  | _, _ => none

/-- What the placeholders of a numbered body claim, in order. -/
def claims (body : List Tree.Numbered) : List Claim := (placeholders body).filterMap claim?

theorem placeholders_append {α : Type} (body rest : List (Tree α)) :
    placeholders (body ++ rest) = placeholders body ++ placeholders rest := by
  induction body with
  | nil => rfl
  | cons part body ih => rw [List.cons_append, placeholders, placeholders, ih, List.append_assoc]

theorem claims_append (body rest : List Tree.Numbered) :
    claims (body ++ rest) = claims body ++ claims rest := by
  rw [claims, placeholders_append, List.filterMap_append]
  rfl

theorem labels_eq_claims (body : List Tree.Numbered) :
    labels body = (claims body).map Claim.draftLabel := by
  rw [labels_eq, claims, List.map_filterMap]
  apply List.filterMap_congr
  intro part _
  obtain ⟨mark, content, children⟩ := part
  cases content with
  | placeholder name key => cases key <;> cases children <;> rfl
  | _ => rfl

/-- The placeholder of a call claims the identity of the call. -/
theorem claims_own {t : Draft} (h : t.content.inOrder) (inner outer line call : Nat)
    (name : String) :
    claims [(Tree.numberPart inner outer (.node line (.placeholder name (.own call)) [t])).1] =
      [⟨name, .own call, .own inner⟩] := by
  rw [Tree.numberPart_of_wraps _ _ _ _ _ rfl, Tree.numberParts_cons]
  change [Claim.mk name (.own call) (.own (Tree.numberPart inner outer t).1.mark.1)] = _
  rw [Tree.mark_numberPart _ _ h]

variable (loc : Nat → Location)

mutual

theorem labels_link (parent : Option NodeId) : (part : Tree.Numbered) →
    (partPlaceholders (Tree.link loc parent part)).filterMap label? =
      ((partPlaceholders part).filterMap claim?).map Claim.placedLabel
  | .node (id, line) content children => by
    have hchildren := labels_linkAll (some id) children
    cases content with
    | placeholder name key => cases key <;> cases children <;> rfl
    | plural | select | case => exact hchildren
    | _ => rfl

theorem labels_linkAll (parent : Option NodeId) : (body : List Tree.Numbered) →
    (placeholders (Tree.linkAll loc parent body)).filterMap label? =
      ((placeholders body).filterMap claim?).map Claim.placedLabel
  | [] => rfl
  | part :: rest => by
    rw [Tree.linkAll, placeholders, placeholders, List.filterMap_append, List.filterMap_append,
      List.map_append, labels_link parent part, labels_linkAll parent rest]

end

mutual

/-- Renaming before linking is renaming after it, by a function that gives the keys as
    they are claimed the names of those in the draft. -/
theorem link_mapPlaceholder {g g' : String → PlaceholderKey → String} (parent : Option NodeId) :
    (part : Tree.Numbered) →
      (∀ c ∈ (partPlaceholders part).filterMap claim?, g' c.base c.claimed = g c.base c.key) →
      Tree.link loc parent (mapPlaceholder (rename g) part) =
        mapPlaceholder (rename g') (Tree.link loc parent part)
  | .node (id, line) content children, h => by
    cases content with
    | placeholder name key =>
      cases key with
      | shared text =>
        have hname := h ⟨name, .shared text, .shared text⟩ (List.mem_singleton_self _)
        change Tree.node _ (.placeholder (g name (.shared text)) _) _ =
          Tree.node _ (.placeholder (g' name (.shared text)) _) _
        rw [hname]
      | own call =>
        cases children with
        | nil =>
          have hname := h ⟨name, .own call, .own call⟩ (List.mem_singleton_self _)
          change Tree.node _ (.placeholder (g name (.own call)) _) _ =
            Tree.node _ (.placeholder (g' name (.own call)) _) _
          rw [hname]
        | cons first rest =>
          have hname := h ⟨name, .own call, .own first.mark.1⟩ (List.mem_singleton_self _)
          change Tree.node _ (.placeholder (g name (.own call)) _) _ =
            Tree.node _ (.placeholder (g' name (.own first.mark.1)) _) _
          rw [hname]
    | plural | select | case =>
      exact congrArg (Tree.node _ _) (linkAll_mapPlaceholders (some id) children h)
    | _ => rfl

theorem linkAll_mapPlaceholders {g g' : String → PlaceholderKey → String} (parent : Option NodeId) :
    (body : List Tree.Numbered) → (∀ c ∈ claims body, g' c.base c.claimed = g c.base c.key) →
      Tree.linkAll loc parent (mapPlaceholders (rename g) body) =
        mapPlaceholders (rename g') (Tree.linkAll loc parent body)
  | [], _ => rfl
  | part :: rest, h => by
    rw [claims, placeholders, List.filterMap_append] at h
    rw [mapPlaceholders, Tree.linkAll, Tree.linkAll, mapPlaceholders,
      link_mapPlaceholder parent part fun c hc => h c (List.mem_append_left _ hc),
      linkAll_mapPlaceholders parent rest fun c hc => h c (List.mem_append_right _ hc)]

end

/-! ### Numbering a renamed body -/

section Numbering

variable {α : Type} (g : String → PlaceholderKey → String)

mutual

theorem size_mapPlaceholder : (part : Tree α) →
    (mapPlaceholder (rename g) part).size = part.size
  | .node mark content children => by
    have hchildren := sizeAll_mapPlaceholders children
    cases content <;> simp only [mapPlaceholder, Tree.size, hchildren]

theorem sizeAll_mapPlaceholders : (body : List (Tree α)) →
    Tree.sizeAll (mapPlaceholders (rename g) body) = Tree.sizeAll body
  | [] => rfl
  | part :: rest => by
    rw [mapPlaceholders, Tree.sizeAll, Tree.sizeAll, size_mapPlaceholder part,
      sizeAll_mapPlaceholders rest]

end

mutual

theorem wrapped_mapPlaceholder : (part : Tree α) →
    (mapPlaceholder (rename g) part).wrapped = part.wrapped
  | .node mark content children => by
    have hchildren := wrappedAll_mapPlaceholders children
    have hsize := sizeAll_mapPlaceholders g children
    cases content <;> simp [mapPlaceholder, rename, Tree.wrapped, hsize, Content.wraps]

theorem wrappedAll_mapPlaceholders : (body : List (Tree α)) →
    Tree.wrappedAll (mapPlaceholders (rename g) body) = Tree.wrappedAll body
  | [] => rfl
  | part :: rest => by
    rw [mapPlaceholders, Tree.wrappedAll, Tree.wrappedAll, wrapped_mapPlaceholder part,
      wrappedAll_mapPlaceholders rest]

end

mutual

theorem number_mapPlaceholder (next : NodeId) : (part : Draft) →
    Tree.number next (mapPlaceholder (rename g) part) =
      (mapPlaceholder (rename g) (Tree.number next part).1, (Tree.number next part).2)
  | .node line content children => by
    cases content with
    | plural | select =>
      have hchildren := numberAll_mapPlaceholders (next + 1) children
      simp only [mapPlaceholder, Tree.number, Content.holdsParts, hchildren, Bool.false_eq_true,
        if_false]
    | case =>
      have hchildren := numberParts_mapPlaceholders (next + 1)
        (next + 1 + Tree.wrappedAll children) children
      simp only [mapPlaceholder, Tree.number, Content.holdsParts, wrappedAll_mapPlaceholders,
        hchildren, if_true]
    | _ => rfl

theorem numberAll_mapPlaceholders (next : NodeId) : (body : List Draft) →
    Tree.numberAll next (mapPlaceholders (rename g) body) =
      (mapPlaceholders (rename g) (Tree.numberAll next body).1, (Tree.numberAll next body).2)
  | [] => rfl
  | part :: rest => by
    rw [mapPlaceholders, Tree.numberAll_cons, Tree.numberAll_cons, number_mapPlaceholder next part,
      numberAll_mapPlaceholders _ rest, mapPlaceholders]

theorem numberPart_mapPlaceholder (inner outer : NodeId) : (part : Draft) →
    Tree.numberPart inner outer (mapPlaceholder (rename g) part) =
      (mapPlaceholder (rename g) (Tree.numberPart inner outer part).1,
        (Tree.numberPart inner outer part).2)
  | .node line content children => by
    cases content with
    | plural | select | case =>
      have hchildren := numberAll_mapPlaceholders (inner + 1) children
      simp only [mapPlaceholder, Tree.numberPart, Content.wraps, hchildren, Bool.false_eq_true,
        if_false]
    | _ => rfl

theorem numberParts_mapPlaceholders (inner outer : NodeId) : (body : List Draft) →
    Tree.numberParts inner outer (mapPlaceholders (rename g) body) =
      (mapPlaceholders (rename g) (Tree.numberParts inner outer body).1,
        (Tree.numberParts inner outer body).2)
  | [] => rfl
  | part :: rest => by
    rw [mapPlaceholders, Tree.numberParts_cons, Tree.numberParts_cons,
      numberPart_mapPlaceholder inner outer part, numberParts_mapPlaceholders _ _ rest,
      mapPlaceholders]

end

end Numbering

/-! ### Names of placed bodies -/

section Marks

variable {α β : Type} (f : α → β)

mutual

theorem placeholders_map : (part : Tree α) →
    partPlaceholders (part.map f) = (partPlaceholders part).map (Tree.map f)
  | .node mark content children => by
    have hchildren := placeholders_mapAll children
    cases content <;> simp only [Tree.map, partPlaceholders, hchildren, List.map_nil, List.map_cons]

theorem placeholders_mapAll : (body : List (Tree α)) →
    placeholders (Tree.mapAll f body) = (placeholders body).map (Tree.map f)
  | [] => rfl
  | part :: rest => by
    rw [Tree.mapAll, placeholders, placeholders, List.map_append, placeholders_map part,
      placeholders_mapAll rest]

end

theorem labels_mapAll (body : List (Tree α)) : labels (Tree.mapAll f body) = labels body := by
  rw [labels_eq, labels_eq, placeholders_mapAll, List.filterMap_map]
  apply List.filterMap_congr
  intro part _
  cases part
  rfl

end Marks

/-- Naming the placed body of a message is placing the named one. -/
theorem nameAll_placeParts {parent : Option NodeId} {inner outer : NodeId} {body : List Draft}
    (h : SameKeys (claims (Tree.numberParts inner outer body).1)) :
    nameAll (Tree.placeParts loc parent inner outer body) =
      Tree.placeParts loc parent inner outer (nameAll body) := by
  have hlabels : labels (Tree.numberParts inner outer body).1 = labels body := by
    rw [← labels_mapAll Prod.snd, Tree.mapAll_numberParts]
  rw [nameAll_eq, nameAll_eq, Tree.placeParts, Tree.placeParts, numberParts_mapPlaceholders,
    ← hlabels, labels_eq_claims]
  refine (linkAll_mapPlaceholders loc parent _ fun c hc => ?_).symm
  rw [labels_eq (Tree.linkAll loc parent _), labels_linkAll]
  exact finalName_claimed h hc

/-! ### Calls in the order of the text -/

/-- Claims whose calls have numbers from `lo` up to `hi` and identities from `first` up to
    `next`, each call its own. -/
structure InOrder (lo hi first next : Nat) (claims : List Claim) : Prop where
  keys : ∀ c ∈ claims, (∃ text, c.key = .shared text ∧ c.claimed = .shared text) ∨
    ∃ i j, c.key = .own i ∧ c.claimed = .own j ∧ lo ≤ i ∧ i < hi ∧ first ≤ j ∧ j < next
  same : SameKeys claims

namespace InOrder

variable {lo mid hi first middle next : Nat} {cs ds : List Claim}

theorem nil : InOrder lo hi first next [] := ⟨fun _ hc => (nomatch hc), fun _ hc => (nomatch hc)⟩

theorem mono (h : InOrder lo mid first middle cs) (hhi : mid ≤ hi) (hnext : middle ≤ next) :
    InOrder lo hi first next cs := by
  refine ⟨fun c hc => ?_, h.same⟩
  rcases h.keys c hc with hshared | ⟨i, j, hi', hj', hown⟩
  · exact .inl hshared
  · exact .inr ⟨i, j, hi', hj', by omega⟩

/-- Later calls have higher numbers and identities. -/
theorem append (h : InOrder lo mid first middle cs) (h' : InOrder mid hi middle next ds)
    (hlo : lo ≤ mid) (hhi : mid ≤ hi) (hfirst : first ≤ middle) (hnext : middle ≤ next) :
    InOrder lo hi first next (cs ++ ds) := by
  have hapart : ∀ c ∈ cs, ∀ d ∈ ds, c.key = d.key ↔ c.claimed = d.claimed := by
    intro c hc d hd
    rcases h.keys c hc with ⟨text, hkey, hclaimed⟩ | ⟨i, j, hkey, hclaimed, hown⟩ <;>
      rcases h'.keys d hd with ⟨text', hkey', hclaimed'⟩ | ⟨i', j', hkey', hclaimed', hown'⟩ <;>
      rw [hkey, hkey', hclaimed, hclaimed']
    · simp
    · simp
    · rw [PlaceholderKey.own.injEq, PlaceholderKey.own.injEq]
      omega
  constructor
  · intro c hc
    rcases List.mem_append.1 hc with hc | hc
    · exact (h.mono hhi hnext).keys c hc
    · rcases h'.keys c hc with hshared | ⟨i, j, hi', hj', hown⟩
      · exact .inl hshared
      · exact .inr ⟨i, j, hi', hj', by omega⟩
  · intro c hc d hd
    rcases List.mem_append.1 hc with hc | hc <;> rcases List.mem_append.1 hd with hd | hd
    · exact h.same c hc d hd
    · exact hapart c hc d hd
    · rw [eq_comm, hapart d hd c hc, eq_comm]
    · exact h'.same c hc d hd

theorem shared (base text : String) : InOrder lo hi first next [⟨base, .shared text, .shared text⟩] := by
  constructor
  · intro c hc
    rw [List.mem_singleton.1 hc]
    exact .inl ⟨text, rfl, rfl⟩
  · intro c hc d hd
    rw [List.mem_singleton.1 hc, List.mem_singleton.1 hd]

theorem own (base : String) {free : Nat} (h : next < free) :
    InOrder hi (hi + 1) next free [⟨base, .own hi, .own next⟩] := by
  constructor
  · intro c hc
    rw [List.mem_singleton.1 hc]
    exact .inr ⟨hi, next, rfl, rfl, by omega⟩
  · intro c hc d hd
    rw [List.mem_singleton.1 hc, List.mem_singleton.1 hd]
    exact iff_of_true rfl rfl

end InOrder

end Message

end Stencil
