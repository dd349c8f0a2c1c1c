/-
  Stencil/Proofs/Renaming.lean
  ============================
  **What an identifier remembers does not show.**

  Identifiers that remember nothing, next to a record of every time a map was looked
  into, are the reference: a name comes from the map each time, and the record says
  whether the map has to be looked into for it.  An identifier remembers the map of its
  latest entry in the record that found a name, and that name (`Remembers`).  Each step
  keeps this (`Follows.step`), so over every history both give the same answers
  (`answers_eq_uncached`).
-/
import Stencil.Xid

namespace Stencil

/-- The answers to the steps of a history; none if one of them cannot be done. -/
def answers? {σ α β : Type} (step : σ → α → Option (β × σ)) : σ → List α → Option (List β)
  | _, [] => some []
  | s, a :: rest =>
    match step s a with
    | none => none
    | some (answer, s) => (answers? step s rest).map (answer :: ·)

/-! ### Identifiers that remember nothing -/

/-- A look into a map for the name of an identifier. -/
structure Lookup where
  index : Nat
  map : RenamingMap
  found : Bool

/-- Identifiers that remember nothing, and the looks into maps for them, the latest
    first. -/
structure Uncached where
  texts : List String
  lookups : List Lookup := []

namespace Uncached

/-- The map that the latest successful look for an identifier was into. -/
def latestFound? (u : Uncached) (index : Nat) : Option RenamingMap :=
  (u.lookups.find? fun l => l.index = index && l.found).map Lookup.map

/-- The answer to a step and what is there after it.  The name is that of the map or
    the text itself; a map is looked into unless the latest successful look was into it. -/
def step (u : Uncached) : XidStep → Option (XidAnswer × Uncached)
  | .rename index none => u.texts[index]?.map fun text => (.name text false, u)
  | .rename index (some map) =>
    u.texts[index]?.map fun text =>
      let lookup : Lookup := ⟨index, map, (map.find? text).isSome⟩
      let name := (map.find? text).getD text
      if u.latestFound? index = some map then (.name name false, u)
      else (.name name true, { u with lookups := lookup :: u.lookups })
  | .copy index =>
    u.texts[index]?.map fun text =>
      (.copied u.texts.length, { u with texts := u.texts ++ [text] })

theorem latestFound?_cons (u : Uncached) (l : Lookup) (index : Nat) :
    ({ u with lookups := l :: u.lookups } : Uncached).latestFound? index =
      if l.index = index ∧ l.found then some l.map else u.latestFound? index := by
  unfold latestFound?
  by_cases h : l.index = index ∧ l.found
  · rw [if_pos h, List.find?_cons_of_pos (by simpa using h)]
    rfl
  · rw [if_neg h, List.find?_cons_of_neg (by simpa using h)]

/-- For what came later than every look, no look was successful. -/
theorem latestFound?_eq_none {u : Uncached} {index : Nat} (h : ∀ l ∈ u.lookups, l.index < index) :
    u.latestFound? index = none := by
  have hfind : (u.lookups.find? fun l => l.index = index && l.found) = none := by
    simp only [List.find?_eq_none]
    intro l hl
    simp [Nat.ne_of_lt (h l hl)]
  rw [latestFound?, hfind]
  rfl

end Uncached

/-! ### What is remembered -/

/-- The map that a step is given. -/
def XidStep.map? : XidStep → Option RenamingMap
  | rename _ map => map
  | copy _ => none

/-- No map of the history changes: what goes by one identity is one map. -/
def MapsFixed (steps : List XidStep) : Prop :=
  ∀ map ∈ steps.filterMap XidStep.map?, ∀ map' ∈ steps.filterMap XidStep.map?,
    map.id = map'.id → map = map'

instance (steps : List XidStep) : Decidable (MapsFixed steps) :=
  inferInstanceAs (Decidable (∀ map ∈ _, ∀ map' ∈ _, _ → _))

/-- What is remembered for an identifier, with the map of its latest successful look. -/
inductive Remembers (maps : List RenamingMap) (text : String) :
    Option RenamingMap → Option (Nat × String) → Prop
  | nothing : Remembers maps text none none
  | found {map : RenamingMap} {name : String} : map ∈ maps → map.find? text = some name →
      Remembers maps text (some map) (some (map.id, name))

/-- The identifiers have the same texts as those that remember nothing, and remember
    what the record says. -/
structure Follows (maps : List RenamingMap) (xids : List Xid) (u : Uncached) : Prop where
  texts : u.texts = xids.map Xid.text
  memo : ∀ i x, xids[i]? = some x → Remembers maps x.text (u.latestFound? i) x.memo
  lookups : ∀ l ∈ u.lookups, l.index < xids.length

variable {maps : List RenamingMap} {xids : List Xid} {u : Uncached}

/-- A name is remembered for a map exactly if the latest successful look was into it. -/
theorem Remembers.remembered? {x : Xid} {latest : Option RenamingMap}
    (h : Remembers maps x.text latest x.memo) {map : RenamingMap}
    (hmap : ∀ m ∈ maps, m.id = map.id → m = map) :
    x.remembered? map = if latest = some map then map.find? x.text else none := by
  unfold Xid.remembered?
  generalize x.memo = memo at h
  cases h with
  | nothing => rfl
  | @found last name hlast hname =>
    by_cases heq : last = map
    · subst heq
      rw [if_pos rfl, hname]
      exact if_pos rfl
    · have hid : last.id ≠ map.id := fun hid => heq (hmap last hlast hid)
      have hsome : some last ≠ some map := fun h => heq (Option.some.inj h)
      rw [if_neg hsome]
      exact if_neg hid

theorem Remembers.exists_name {text : String} {map : RenamingMap} {memo : Option (Nat × String)}
    (h : Remembers maps text (some map) memo) : ∃ name, map.find? text = some name := by
  cases h with
  | found _ hname => exact ⟨_, hname⟩

theorem follows_start (texts : List String) :
    Follows maps (texts.map fun text => { text }) { texts } where
  texts := by rw [List.map_map]; exact (List.map_id texts).symm
  memo := by
    intro i x hx
    rw [List.getElem?_map] at hx
    obtain ⟨text, -, rfl⟩ := Option.map_eq_some_iff.1 hx
    exact .nothing
  lookups := List.forall_mem_nil _

/-- Copying an identifier makes one that remembers nothing. -/
theorem Follows.copy (h : Follows maps xids u) (x : Xid) :
    Follows maps (xids ++ [x.copy]) { u with texts := u.texts ++ [x.text] } where
  texts := by simp [h.texts, Xid.copy]
  memo := by
    intro i y hy
    rw [List.getElem?_append] at hy
    split at hy
    · exact h.memo i y hy
    · rename_i hi
      rw [List.getElem?_singleton] at hy
      split at hy
      · cases hy
        have hnone : u.latestFound? i = none :=
          Uncached.latestFound?_eq_none fun l hl =>
            Nat.lt_of_lt_of_le (h.lookups l hl) (Nat.le_of_not_lt hi)
        change Remembers maps x.text (u.latestFound? i) none
        rw [hnone]
        exact .nothing
      · cases hy
  lookups := by
    intro l hl
    rw [List.length_append]
    exact Nat.lt_add_right 1 (h.lookups l hl)

/-- An identifier that keeps its text may remember something else, if the record says so. -/
theorem Follows.set (h : Follows maps xids u) {index : Nat} {x x' : Xid}
    (hx : xids[index]? = some x) (htext : x'.text = x.text) {lookups : List Lookup}
    (hlookups : ∀ l ∈ lookups, l.index < xids.length)
    (hmemo : Remembers maps x.text (({ u with lookups } : Uncached).latestFound? index) x'.memo)
    (hothers : ∀ i, i ≠ index → ({ u with lookups } : Uncached).latestFound? i = u.latestFound? i) :
    Follows maps (xids.set index x') { u with lookups } where
  texts := by
    obtain ⟨hindex, hget⟩ := List.getElem?_eq_some_iff.1 hx
    have hlength : index < (xids.map Xid.text).length := by rwa [List.length_map]
    have hself : (xids.map Xid.text)[index] = x.text := by rw [List.getElem_map, hget]
    change u.texts = _
    rw [h.texts, List.map_set, htext, ← hself, List.set_getElem_self]
  memo := by
    intro i y hy
    by_cases hi : i = index
    · subst hi
      rw [List.getElem?_set_self (List.getElem?_eq_some_iff.1 hx).1] at hy
      cases hy
      rw [htext]
      exact hmemo
    · rw [List.getElem?_set_ne (Ne.symm hi)] at hy
      rw [hothers i hi]
      exact h.memo i y hy
  lookups := by
    rw [List.length_set]
    exact hlookups

/-! ### Histories -/

/-- The step cannot be done, or the answers are one and what follows goes together. -/
inductive StepsAlike (maps : List RenamingMap) :
    Option (XidAnswer × List Xid) → Option (XidAnswer × Uncached) → Prop
  | none : StepsAlike maps none none
  | some {xids : List Xid} {u : Uncached} (answer : XidAnswer) (h : Follows maps xids u) :
      StepsAlike maps (some (answer, xids)) (some (answer, u))

theorem Follows.getElem? (h : Follows maps xids u) (index : Nat) :
    u.texts[index]? = xids[index]?.map Xid.text := by
  rw [h.texts, List.getElem?_map]

/-- A map that is looked into is remembered if it has a name; if not, what was
    remembered stays. -/
theorem Follows.look (h : Follows maps xids u) {index : Nat} {x : Xid}
    (hx : xids[index]? = some x) {map : RenamingMap} (hmem : map ∈ maps) :
    Follows maps
      (xids.set index
        { x with memo := (map.find? x.text).elim x.memo fun name => some (map.id, name) })
      { u with lookups := ⟨index, map, (map.find? x.text).isSome⟩ :: u.lookups } := by
  have hbound : index < xids.length := (List.getElem?_eq_some_iff.1 hx).1
  refine h.set hx ?_ ?_ ?_ fun i hi => ?_
  · rfl
  · exact List.forall_mem_cons.2 ⟨hbound, h.lookups⟩
  · rw [u.latestFound?_cons]
    cases hname : map.find? x.text with
    | none =>
      rw [if_neg fun hl => Bool.false_ne_true hl.2]
      exact h.memo index x hx
    | some name =>
      rw [if_pos ⟨rfl, rfl⟩]
      exact .found hmem hname
  · rw [u.latestFound?_cons]
    exact if_neg fun hl => hi hl.1.symm

theorem Follows.rename (h : Follows maps xids u) (index : Nat) {map : RenamingMap}
    (hmem : map ∈ maps) (hmap : ∀ m ∈ maps, m.id = map.id → m = map) :
    StepsAlike maps ((XidStep.rename index (some map)).run xids)
      (u.step (.rename index (some map))) := by
  simp only [XidStep.run, Uncached.step, h.getElem?]
  cases hx : xids[index]? with
  | none => exact .none
  | some x =>
    have hmemo := h.memo index x hx
    simp only [Option.map_some, Xid.rename, hmemo.remembered? hmap]
    by_cases hlatest : u.latestFound? index = some map
    · obtain ⟨name, hname⟩ := (hlatest ▸ hmemo).exists_name
      simp only [if_pos hlatest, hname]
      exact .some _ (h.set hx rfl h.lookups hmemo fun _ _ => rfl)
    · have hlook := h.look hx hmem
      simp only [if_neg hlatest]
      cases hname : map.find? x.text with
      | none =>
        rw [hname] at hlook
        exact .some _ hlook
      | some name =>
        rw [hname] at hlook
        exact .some _ hlook

/-- A step that is given one of the maps keeps what is remembered in line with the
    record, and has one answer. -/
theorem Follows.step (h : Follows maps xids u) (step : XidStep)
    (hmem : ∀ map ∈ step.map?, map ∈ maps)
    (hfixed : ∀ map ∈ maps, ∀ map' ∈ maps, map.id = map'.id → map = map') :
    StepsAlike maps (step.run xids) (u.step step) := by
  cases step with
  | rename index map? =>
    cases map? with
    | some map => exact h.rename index (hmem map rfl) fun m hm => hfixed m hm map (hmem map rfl)
    | none =>
      simp only [XidStep.run, Uncached.step, h.getElem?]
      cases hx : xids[index]? with
      | none => exact .none
      | some x => exact .some _ (h.set hx rfl h.lookups (h.memo index x hx) fun _ _ => rfl)
  | copy index =>
    have hlength : u.texts.length = xids.length := by rw [h.texts, List.length_map]
    simp only [XidStep.run, Uncached.step, h.getElem?, hlength]
    cases hx : xids[index]? with
    | none => exact .none
    | some x => exact .some _ (h.copy x)

theorem Follows.answers? (h : Follows maps xids u) {steps : List XidStep}
    (hmem : ∀ map ∈ steps.filterMap XidStep.map?, map ∈ maps)
    (hfixed : ∀ map ∈ maps, ∀ map' ∈ maps, map.id = map'.id → map = map') :
    answers? XidStep.run xids steps = answers? Uncached.step u steps := by
  induction steps generalizing xids u with
  | nil => rfl
  | cons step steps ih =>
    have hstep : ∀ map ∈ step.map?, map ∈ maps := fun map hmap =>
      hmem map (List.mem_filterMap.2 ⟨step, List.mem_cons_self, hmap⟩)
    have hsteps : ∀ map ∈ steps.filterMap XidStep.map?, map ∈ maps := by
      intro map hmap
      obtain ⟨later, hlater, hgiven⟩ := List.mem_filterMap.1 hmap
      exact hmem map (List.mem_filterMap.2 ⟨later, List.mem_cons_of_mem step hlater, hgiven⟩)
    have hnext := h.step step hstep hfixed
    simp only [Stencil.answers?]
    generalize step.run xids = x, u.step step = y at hnext
    cases hnext with
    | none => rfl
    | some answer hfollows => exact congrArg (Option.map (answer :: ·)) (ih hfollows hsteps)

/-- Whatever identifiers remember, over every history of renaming and copying they get
    the names that the maps have for them or keep their own, and a map is looked into
    unless the latest successful look for that identifier was into it. -/
theorem answers_eq_uncached (texts : List String) (steps : List XidStep) (h : MapsFixed steps) :
    answers? XidStep.run (texts.map fun text => { text }) steps =
      answers? Uncached.step { texts } steps :=
  (follows_start texts).answers? (fun _ hmap => hmap) h

theorem answers_eq_uncached_foo :
    answers? XidStep.run [{ text := "foo" }]
      [.rename 0 (some ⟨0, [("foo", "a")]⟩), .rename 0 (some ⟨1, []⟩),
       .rename 0 (some ⟨0, [("foo", "a")]⟩), .copy 0, .rename 0 none,
       .rename 1 (some ⟨2, [("foo", "b")]⟩), .rename 1 (some ⟨0, [("foo", "a")]⟩)] =
      some [.name "a" true, .name "foo" true, .name "a" false, .copied 1, .name "foo" false,
        .name "b" true, .name "a" true] :=
  (answers_eq_uncached ["foo"] _ (by decide +kernel)).trans (by decide +kernel)

end Stencil
