/-
  Stencil/Proofs/Check/IndirectParams.lean
  ========================================
  **The search for indirect parameters is exact.**

  What the search finds comes from forwarding walks, since every visit stands
  at the end of a walk and carries the keys passed on it (`visit_sound`).  For
  the other direction one fact about visits is kept: wherever a visit forwards
  data to, the callee is recorded, and it was visited with the same keys or
  with fewer (`Closed`).  Fewer keys lose nothing.  A visit that is cut off
  because the template is on the chain already was opened with fewer keys, and
  a repeated one with the same, so neither kind of cut breaks the fact
  (`visit_progress`).
-/
import Mathlib.Data.String.Basic
import Stencil.Proofs.Check.Forwarding

namespace Stencil

/-! ### Lists of indirect parameters -/

namespace IndirectParam

/-- A declaration of a callee is among the parameters. -/
def Records (params : List IndirectParam) (callee : String) (p : Param) : Prop :=
  ∃ e ∈ params, e.name = p.name ∧ callee ∈ e.callees ∧ p.ty ∈ e.types

theorem eq_of_mem_insert {callee : String} {p : Param} {params : List IndirectParam}
    {e : IndirectParam} (h : e ∈ insert callee p params) :
    e ∈ params ∨ e = ofDeclaration callee p ∨
      ∃ old ∈ params, old.name = p.name ∧ e = old.add callee p.ty := by
  induction params with
  | nil => exact .inr (.inl (by simpa [insert] using h))
  | cons head rest ih =>
    unfold insert at h
    split at h
    · rcases List.mem_cons.1 h with h | h
      · exact .inr (.inl h)
      · exact .inl h
    · split at h
      · rename_i hname
        rcases List.mem_cons.1 h with h | h
        · exact .inr (.inr ⟨head, by simp, hname.symm, h⟩)
        · exact .inl (List.mem_cons_of_mem _ h)
      · rcases List.mem_cons.1 h with h | h
        · exact .inl (by simp [h])
        · rcases ih h with h | h | ⟨old, hold, hname, h⟩
          · exact .inl (List.mem_cons_of_mem _ h)
          · exact .inr (.inl h)
          · exact .inr (.inr ⟨old, List.mem_cons_of_mem _ hold, hname, h⟩)

/-- An entry stays, with at least the callees and types it had. -/
theorem exists_mem_insert_of_mem {callee : String} {p : Param} {params : List IndirectParam}
    {e : IndirectParam} (h : e ∈ params) :
    ∃ e' ∈ insert callee p params,
      e'.name = e.name ∧ e.callees ⊆ e'.callees ∧ e.types ⊆ e'.types := by
  induction params with
  | nil => cases h
  | cons head rest ih =>
    unfold insert
    split
    · exact ⟨e, List.mem_cons_of_mem _ h, rfl, fun _ h => h, fun _ h => h⟩
    · split
      · rcases List.mem_cons.1 h with rfl | h
        · refine ⟨e.add callee p.ty, by simp, rfl, ?_, ?_⟩
          · intro c hc
            exact mem_sortedNames.2 (List.mem_cons_of_mem _ hc)
          · intro ty hty
            exact Ty.mem_insertSorted.2 (.inr hty)
        · exact ⟨e, List.mem_cons_of_mem _ h, rfl, fun _ h => h, fun _ h => h⟩
      · rcases List.mem_cons.1 h with rfl | h
        · exact ⟨e, by simp, rfl, fun _ h => h, fun _ h => h⟩
        · obtain ⟨e', he', hkeeps⟩ := ih h
          exact ⟨e', List.mem_cons_of_mem _ he', hkeeps⟩

theorem records_insert (callee : String) (p : Param) (params : List IndirectParam) :
    Records (insert callee p params) callee p := by
  have hnew : Records [ofDeclaration callee p] callee p :=
    ⟨_, List.mem_singleton_self _, rfl, List.mem_singleton_self _, List.mem_singleton_self _⟩
  induction params with
  | nil => exact hnew
  | cons head rest ih =>
    unfold insert
    split
    · obtain ⟨e, he, hrecords⟩ := hnew
      exact ⟨e, by simp [List.mem_singleton.1 he], hrecords⟩
    · split
      · rename_i hname
        exact ⟨head.add callee p.ty, by simp, hname.symm,
          mem_sortedNames.2 (by simp), Ty.mem_insertSorted.2 (.inl rfl)⟩
      · obtain ⟨e, he, hrecords⟩ := ih
        exact ⟨e, List.mem_cons_of_mem _ he, hrecords⟩

theorem Records.insert {params : List IndirectParam} {callee : String} {p : Param}
    (h : Records params callee p) (callee' : String) (p' : Param) :
    Records (insert callee' p' params) callee p := by
  obtain ⟨e, he, hname, hcallee, hty⟩ := h
  obtain ⟨e', he', hname', hcallees, htypes⟩ := exists_mem_insert_of_mem he
  exact ⟨e', he', hname'.trans hname, hcallees hcallee, htypes hty⟩

/-- The parameters stand in ascending order of name, each once. -/
def Ascending (params : List IndirectParam) : Prop := params.Pairwise (·.name < ·.name)

theorem Ascending.insert {params : List IndirectParam} (h : Ascending params) (callee : String)
    (p : Param) : Ascending (insert callee p params) := by
  induction params with
  | nil => exact List.pairwise_singleton _ _
  | cons head rest ih =>
    obtain ⟨hhead, hrest⟩ := List.pairwise_cons.1 h
    unfold IndirectParam.insert
    split
    · rename_i hlt
      refine List.pairwise_cons.2 ⟨?_, h⟩
      intro e he
      rcases List.mem_cons.1 he with rfl | he
      · exact hlt
      · exact lt_trans hlt (hhead e he)
    · split
      · exact List.pairwise_cons.2 ⟨hhead, hrest⟩
      · rename_i hlt hne
        have hgt : head.name < p.name := lt_of_le_of_ne (not_lt.1 hlt) (Ne.symm hne)
        refine List.pairwise_cons.2 ⟨?_, ih hrest⟩
        intro e he
        rcases eq_of_mem_insert he with he | rfl | ⟨old, hold, -, rfl⟩
        · exact hhead e he
        · exact hgt
        · exact hhead old hold

theorem Ascending.eq_of_name_eq {params : List IndirectParam} (h : Ascending params)
    {d e : IndirectParam} (hd : d ∈ params) (he : e ∈ params) (hname : d.name = e.name) :
    d = e := by
  have hnodup : (params.map (·.name)).Nodup :=
    List.pairwise_map.2 (h.imp fun hlt => ne_of_lt hlt)
  exact List.inj_on_of_nodup_map hnodup hd he hname

end IndirectParam

/-! ### What the search should find -/

/-- An entry that holds contributed declarations only. -/
structure IndirectParam.Sound (templates : List PlacedTemplate) (start : PlacedTemplate)
    (e : IndirectParam) : Prop where
  param : ∃ t, Contributes templates start e.name t ∧ e.param ∈ t.info.params ∧
    e.param.name = e.name
  callees : ∀ c ∈ e.callees, ∃ t, Contributes templates start e.name t ∧ t.info.name = c
  types : ∀ ty ∈ e.types, ∃ t, Contributes templates start e.name t ∧
    ∃ p ∈ t.info.params, p.name = e.name ∧ p.ty = ty

/-- Forwarded data goes to a call of a kind that resolves to nothing. -/
def ForwardsOutside (templates : List PlacedTemplate) (start : PlacedTemplate)
    (kind : Node → Prop) : Prop :=
  ∃ calls t, ForwardingWalk templates start calls t ∧
    ∃ call ∈ Tree.calls t.body, call.passesAll = true ∧ kind call ∧
      ∀ u, ¬ Resolves templates call u

/-- What was found about a template, and nothing else, is so. -/
structure IndirectParams.Sound (templates : List PlacedTemplate) (start : PlacedTemplate)
    (found : IndirectParams) : Prop where
  ascending : IndirectParam.Ascending found.params
  params : ∀ e ∈ found.params, e.Sound templates start
  externalCalls : found.externalCalls = true → ForwardsOutside templates start CallsByName
  externalDelcalls : found.externalDelcalls = true → ForwardsOutside templates start CallsDelegate

namespace ParamSearch

variable {templates : List PlacedTemplate} {index : TemplateIndex} {start : PlacedTemplate}
  {own : List String}

/-! ### Soundness -/

/-- A walk leads to a template, and its calls pass exactly these keys. -/
def WalkPassing (templates : List PlacedTemplate) (start : PlacedTemplate) (calls : List Node)
    (t : PlacedTemplate) (keys : List String) : Prop :=
  ForwardingWalk templates start calls t ∧ ∀ k, k ∈ keys ↔ ∃ call ∈ calls, k ∈ call.paramKeys

theorem mem_arrivals_iff (hbuild : TemplateIndex.build templates = .ok index) {t u : PlacedTemplate}
    {keys keys' : List String} :
    (u, keys') ∈ arrivals index t keys ↔
      ∃ call, Forwards templates t call u ∧ keys' = passed keys call := by
  simp only [arrivals, TemplateIndex.forwards, List.mem_flatMap, List.mem_filter, List.mem_map,
    Prod.mk.injEq, TemplateIndex.mem_calleesOf_iff hbuild, Forwards]
  constructor
  · rintro ⟨call, ⟨hcall, hall⟩, u', hu', rfl, rfl⟩
    exact ⟨call, ⟨hcall, hall, hu'⟩, rfl⟩
  · rintro ⟨call, ⟨hcall, hall, hu⟩, rfl⟩
    exact ⟨call, ⟨hcall, hall⟩, u, hu, rfl, rfl⟩

theorem mem_passed {k : String} {keys : List String} {call : Node} :
    k ∈ passed keys call ↔ k ∈ keys ∨ k ∈ call.paramKeys := by
  simp [passed, mem_sortedNames]

theorem WalkPassing.arrive (hbuild : TemplateIndex.build templates = .ok index)
    {calls : List Node} {t u : PlacedTemplate} {keys keys' : List String}
    (walk : WalkPassing templates start calls t keys) (h : (u, keys') ∈ arrivals index t keys) :
    ∃ call, WalkPassing templates start (calls ++ [call]) u keys' := by
  obtain ⟨call, forwards, rfl⟩ := (mem_arrivals_iff hbuild).1 h
  refine ⟨call, walk.1.step forwards, ?_⟩
  intro k
  rw [mem_passed, walk.2 k]
  simp [or_and_right, exists_or]

theorem sound_enter (hbuild : TemplateIndex.build templates = .ok index) {calls : List Node}
    {t : PlacedTemplate} {keys : List String} {s : ParamSearch}
    (walk : ForwardingWalk templates start calls t) (hs : s.found.Sound templates start) :
    (s.enter index t keys).found.Sound templates start := by
  refine ⟨hs.ascending, hs.params, ?_, ?_⟩
  · intro h
    rcases Bool.or_eq_true _ _ ▸ h with h | h
    · exact hs.externalCalls h
    · obtain ⟨call, hcall, hext⟩ := List.any_eq_true.1 h
      obtain ⟨hcall, hall⟩ := List.mem_filter.1 hcall
      exact ⟨calls, t, walk, call, hcall, hall, (TemplateIndex.isExternalCall_iff hbuild).1 hext⟩
  · intro h
    rcases Bool.or_eq_true _ _ ▸ h with h | h
    · exact hs.externalDelcalls h
    · obtain ⟨call, hcall, hext⟩ := List.any_eq_true.1 h
      obtain ⟨hcall, hall⟩ := List.mem_filter.1 hcall
      exact ⟨calls, t, walk, call, hcall, hall, (TemplateIndex.isExternalDelcall_iff hbuild).1 hext⟩

/-- A contributed declaration may be added. -/
theorem sound_insert {callee : PlacedTemplate} {p : Param} {params : List IndirectParam}
    (hcontributes : Contributes templates start p.name callee) (hp : p ∈ callee.info.params)
    (hparams : ∀ e ∈ params, e.Sound templates start) :
    ∀ e ∈ IndirectParam.insert callee.info.name p params, e.Sound templates start := by
  intro e he
  rcases IndirectParam.eq_of_mem_insert he with he | rfl | ⟨old, hold, hname, rfl⟩
  · exact hparams e he
  · refine ⟨⟨callee, hcontributes, hp, rfl⟩, ?_, ?_⟩
    · intro c hc
      exact ⟨callee, hcontributes, (List.mem_singleton.1 hc).symm⟩
    · intro ty hty
      exact ⟨callee, hcontributes, p, hp, rfl, (List.mem_singleton.1 hty).symm⟩
  · have sound := hparams old hold
    have hcontributes' : Contributes templates start old.name callee := hname ▸ hcontributes
    refine ⟨sound.param, ?_, ?_⟩
    · intro c hc
      rcases List.mem_cons.1 (mem_sortedNames.1 hc) with rfl | hc
      · exact ⟨callee, hcontributes', rfl⟩
      · exact sound.callees c hc
    · intro ty hty
      rcases Ty.mem_insertSorted.1 hty with rfl | hty
      · exact ⟨callee, hcontributes', p, hp, hname.symm, rfl⟩
      · exact sound.types ty hty

theorem mem_recorded {params : List Param} {keys : List String} {p : Param} :
    p ∈ params.filter (fun p => !own.contains p.name && !keys.contains p.name) ↔
      p ∈ params ∧ p.name ∉ own ∧ p.name ∉ keys := by
  simp

theorem sound_record {calls : List Node} {callee : PlacedTemplate} {keys : List String}
    {s : ParamSearch} (hown : ∀ n, n ∈ own ↔ Declares start n)
    (walk : WalkPassing templates start calls callee keys) (hne : calls ≠ [])
    (hs : s.found.Sound templates start) :
    (s.record own callee keys).found.Sound templates start := by
  have hcontributes : ∀ p ∈ callee.info.params, p.name ∉ own → p.name ∉ keys →
      Contributes templates start p.name callee := by
    intro p hp hpown hpkeys
    refine ⟨⟨p, hp, rfl⟩, fun h => hpown ((hown _).2 h), calls, hne, walk.1, ?_⟩
    intro call hcall hkey
    exact hpkeys ((walk.2 _).2 ⟨call, hcall, hkey⟩)
  have hfound := List.foldlRecOn
    (motive := fun found => IndirectParam.Ascending found ∧ ∀ e ∈ found, e.Sound templates start)
    (callee.info.params.filter fun p => !own.contains p.name && !keys.contains p.name)
    (fun found p => IndirectParam.insert callee.info.name p found)
    ⟨hs.ascending, hs.params⟩
    (by
      rintro found ⟨hascending, hparams⟩ p hp
      obtain ⟨hp, hpown, hpkeys⟩ := mem_recorded.1 hp
      exact ⟨hascending.insert _ _, sound_insert (hcontributes p hp hpown hpkeys) hp hparams⟩)
  exact ⟨hfound.1, hfound.2, hs.externalCalls, hs.externalDelcalls⟩

mutual

/-- A visit at the end of a walk finds nothing but what is so. -/
theorem visit_sound (hbuild : TemplateIndex.build templates = .ok index)
    (hown : ∀ n, n ∈ own ↔ Declares start n) (free : List NodeId) (t : PlacedTemplate)
    (keys : List String) (s : ParamSearch) {calls : List Node}
    (walk : WalkPassing templates start calls t keys) (hs : s.found.Sound templates start) :
    (visit index own free t keys s).found.Sound templates start := by
  rw [visit]
  split
  · split
    · exact hs
    · refine visitAll_sound hbuild hown _ _ _ ?_ (sound_enter hbuild walk.1 hs)
      intro u keys' harrive
      obtain ⟨call, walk'⟩ := walk.arrive hbuild harrive
      exact ⟨calls ++ [call], by simp, walk'⟩
  · exact hs
termination_by (free.length, 0)
decreasing_by exact Prod.Lex.left _ _ (length_without_lt (by assumption))

theorem visitAll_sound (hbuild : TemplateIndex.build templates = .ok index)
    (hown : ∀ n, n ∈ own ↔ Declares start n) (free : List NodeId)
    (items : List (PlacedTemplate × List String)) (s : ParamSearch)
    (walks : ∀ u keys, (u, keys) ∈ items →
      ∃ calls, calls ≠ [] ∧ WalkPassing templates start calls u keys)
    (hs : s.found.Sound templates start) :
    (visitAll index own free items s).found.Sound templates start := by
  match items with
  | [] =>
    rw [visitAll]
    exact hs
  | (callee, keys) :: rest =>
    rw [visitAll]
    obtain ⟨calls, hne, walk⟩ := walks callee keys (by simp)
    have hrecord := sound_record hown walk hne hs
    exact visitAll_sound hbuild hown free rest _
      (fun u keys' h => walks u keys' (List.mem_cons_of_mem _ h))
      (visit_sound hbuild hown free callee keys _ walk hrecord)
termination_by (free.length, items.length + 1)
decreasing_by
  · exact Prod.Lex.right _ (Nat.succ_pos _)
  · exact Prod.Lex.right _ (Nat.lt_succ_self _)

end

/-! ### Completeness -/

/-- The declarations of a callee are recorded, as far as they are not the
    template's own and not passed explicitly. -/
def Recorded (own : List String) (s : ParamSearch) (u : PlacedTemplate) (keys : List String) :
    Prop :=
  ∀ p ∈ u.info.params, p.name ∉ own → p.name ∉ keys →
    IndirectParam.Records s.found.params u.info.name p

/-- A template was visited with some of the keys. -/
def Covered (s : ParamSearch) (u : PlacedTemplate) (keys : List String) : Prop :=
  ∃ fewer, fewer ⊆ keys ∧ (u.mark.id, fewer) ∈ s.visited

/-- All that a visited template forwards data to is recorded and covered, and its
    calls of what is not known are noted. -/
structure Closed (templates : List PlacedTemplate) (index : TemplateIndex) (own : List String)
    (s : ParamSearch) (visit : NodeId × List String) : Prop where
  arrivals : ∀ t ∈ templates, t.mark.id = visit.1 → ∀ u keys,
    (u, keys) ∈ arrivals index t visit.2 → Recorded own s u keys ∧ Covered s u keys
  externalCalls : ∀ t ∈ templates, t.mark.id = visit.1 →
    ∀ call ∈ TemplateIndex.forwards t, index.isExternalCall call = true →
      s.found.externalCalls = true
  externalDelcalls : ∀ t ∈ templates, t.mark.id = visit.1 →
    ∀ call ∈ TemplateIndex.forwards t, index.isExternalDelcall call = true →
      s.found.externalDelcalls = true

/-- A search knows all that another knows. -/
structure Extends (s' s : ParamSearch) : Prop where
  visited : ∀ visit ∈ s.visited, visit ∈ s'.visited
  records : ∀ callee p, IndirectParam.Records s.found.params callee p →
    IndirectParam.Records s'.found.params callee p
  externalCalls : s.found.externalCalls = true → s'.found.externalCalls = true
  externalDelcalls : s.found.externalDelcalls = true → s'.found.externalDelcalls = true

theorem Extends.refl (s : ParamSearch) : Extends s s :=
  ⟨fun _ h => h, fun _ _ h => h, fun h => h, fun h => h⟩

theorem Extends.trans {s s' s'' : ParamSearch} (h : Extends s'' s') (h' : Extends s' s) :
    Extends s'' s :=
  ⟨fun v hv => h.visited v (h'.visited v hv), fun c p hp => h.records c p (h'.records c p hp),
    fun he => h.externalCalls (h'.externalCalls he),
    fun he => h.externalDelcalls (h'.externalDelcalls he)⟩

theorem Recorded.extend {s s' : ParamSearch} {u : PlacedTemplate} {keys : List String}
    (h : Recorded own s u keys) (hext : Extends s' s) : Recorded own s' u keys :=
  fun p hp hown hkeys => hext.records _ _ (h p hp hown hkeys)

theorem Covered.extend {s s' : ParamSearch} {u : PlacedTemplate} {keys : List String}
    (h : Covered s u keys) (hext : Extends s' s) : Covered s' u keys := by
  obtain ⟨fewer, hsub, hvisited⟩ := h
  exact ⟨fewer, hsub, hext.visited _ hvisited⟩

theorem Covered.more {s : ParamSearch} {u : PlacedTemplate} {keys keys' : List String}
    (h : Covered s u keys) (hsub : keys ⊆ keys') : Covered s u keys' := by
  obtain ⟨fewer, hfewer, hvisited⟩ := h
  exact ⟨fewer, fun k hk => hsub (hfewer hk), hvisited⟩

theorem Closed.extend {s s' : ParamSearch} {visit : NodeId × List String}
    (h : Closed templates index own s visit) (hext : Extends s' s) :
    Closed templates index own s' visit := by
  refine ⟨?_, ?_, ?_⟩
  · intro t ht hid u keys hu
    obtain ⟨hrecorded, hcovered⟩ := h.arrivals t ht hid u keys hu
    exact ⟨hrecorded.extend hext, hcovered.extend hext⟩
  · intro t ht hid call hcall hexternal
    exact hext.externalCalls (h.externalCalls t ht hid call hcall hexternal)
  · intro t ht hid call hcall hexternal
    exact hext.externalDelcalls (h.externalDelcalls t ht hid call hcall hexternal)

/-- A later search knows all that an earlier one knows, and the visits between
    them are closed. -/
structure Progress (templates : List PlacedTemplate) (index : TemplateIndex) (own : List String)
    (s' s : ParamSearch) : Prop extends Extends s' s where
  closed : ∀ visit ∈ s'.visited, visit ∈ s.visited ∨ Closed templates index own s' visit

theorem Progress.refl (s : ParamSearch) : Progress templates index own s s :=
  ⟨Extends.refl s, fun _ h => .inl h⟩

theorem Progress.trans {s s' s'' : ParamSearch} (h : Progress templates index own s'' s')
    (h' : Progress templates index own s' s) : Progress templates index own s'' s := by
  refine ⟨h.toExtends.trans h'.toExtends, ?_⟩
  intro v hv
  rcases h.closed v hv with hv | hv
  · rcases h'.closed v hv with hv | hv
    · exact .inl hv
    · exact .inr (hv.extend h.toExtends)
  · exact .inr hv

theorem progress_record (callee : PlacedTemplate) (keys : List String) (s : ParamSearch) :
    Progress templates index own (s.record own callee keys) s := by
  refine ⟨⟨fun _ h => h, ?_, fun h => h, fun h => h⟩, fun _ h => .inl h⟩
  intro c p hp
  exact List.foldlRecOn (motive := fun found => IndirectParam.Records found c p) _ _ hp
    fun found h q _ => h.insert _ q

theorem recorded_record (callee : PlacedTemplate) (keys : List String) (s : ParamSearch) :
    Recorded own (s.record own callee keys) callee keys := by
  intro p hp hown hkeys
  have hmem := mem_recorded.2 ⟨hp, hown, hkeys⟩
  -- the declaration is recorded at its turn, and what is recorded stays so
  obtain ⟨before, after, hsplit⟩ := List.append_of_mem hmem
  simp only [record]
  rw [hsplit, List.foldl_append, List.foldl_cons]
  exact List.foldlRecOn (motive := fun found => IndirectParam.Records found callee.info.name p) _ _
    (IndirectParam.records_insert _ _ _) fun found h q _ => h.insert _ q

theorem extends_enter (t : PlacedTemplate) (keys : List String) (s : ParamSearch) :
    Extends (s.enter index t keys) s := by
  refine ⟨fun _ h => List.mem_cons_of_mem _ h, fun _ _ h => h, ?_, ?_⟩
  · intro h
    simp [enter, h]
  · intro h
    simp [enter, h]

/-- Every template on the chain was opened with keys that are still passed. -/
def ChainCovered (templates : List PlacedTemplate) (free : List NodeId) (s : ParamSearch)
    (keys : List String) : Prop :=
  ∀ u ∈ templates, u.mark.id ∉ free → Covered s u keys

theorem ChainCovered.extend {free : List NodeId} {s s' : ParamSearch} {keys : List String}
    (h : ChainCovered templates free s keys) (hext : Extends s' s) :
    ChainCovered templates free s' keys :=
  fun u hu hfree => (h u hu hfree).extend hext

/-- The chain goes on from a template to what it forwards data to. -/
theorem ChainCovered.arrive (hbuild : TemplateIndex.build templates = .ok index)
    {free : List NodeId} {s : ParamSearch} {t u : PlacedTemplate} {keys keys' : List String}
    (h : ChainCovered templates free s keys) (harrive : (u, keys') ∈ arrivals index t keys) :
    ChainCovered templates (without t.mark.id free) (s.enter index t keys) keys' := by
  obtain ⟨call, -, rfl⟩ := (mem_arrivals_iff hbuild).1 harrive
  have hsub : keys ⊆ passed keys call := fun k hk => mem_passed.2 (.inl hk)
  intro v hv hfree
  by_cases hid : v.mark.id = t.mark.id
  · exact ⟨keys, hsub, by simp [enter, hid]⟩
  · have hfree' : v.mark.id ∉ free := by simpa [without, hid] using hfree
    exact ((h v hv hfree').extend (extends_enter t keys s)).more hsub

theorem closed_enter (hids : (templates.map (·.mark.id)).Nodup) {t : PlacedTemplate}
    (ht : t ∈ templates) {keys : List String} {s s' : ParamSearch}
    (hext : Extends s' (s.enter index t keys))
    (harrivals : ∀ u keys', (u, keys') ∈ arrivals index t keys →
      Recorded own s' u keys' ∧ Covered s' u keys') :
    Closed templates index own s' (t.mark.id, keys) := by
  have hsame : ∀ t' ∈ templates, t'.mark.id = t.mark.id → t' = t :=
    fun t' ht' hid => List.inj_on_of_nodup_map hids ht' ht hid
  refine ⟨?_, ?_, ?_⟩
  · intro t' ht' hid
    rw [hsame t' ht' hid]
    exact harrivals
  · intro t' ht' hid call hcall hexternal
    rw [hsame t' ht' hid] at hcall
    exact hext.externalCalls (by simp [enter, List.any_eq_true.2 ⟨call, hcall, hexternal⟩])
  · intro t' ht' hid call hcall hexternal
    rw [hsame t' ht' hid] at hcall
    exact hext.externalDelcalls (by simp [enter, List.any_eq_true.2 ⟨call, hcall, hexternal⟩])

mutual

/-- After a visit the template is covered, and every visit since is closed. -/
theorem visit_progress (own : List String) (hbuild : TemplateIndex.build templates = .ok index)
    (hids : (templates.map (·.mark.id)).Nodup) (free : List NodeId) (t : PlacedTemplate)
    (keys : List String) (s : ParamSearch) (ht : t ∈ templates)
    (hchain : ChainCovered templates free s keys) :
    Progress templates index own (visit index own free t keys s) s ∧
      Covered (visit index own free t keys s) t keys := by
  rw [visit]
  split
  · split
    · rename_i hvisited
      exact ⟨Progress.refl s, keys, fun _ h => h, hvisited⟩
    · obtain ⟨hprogress, harrivals⟩ := visitAll_progress own hbuild hids (without t.mark.id free)
        (arrivals index t keys) (s.enter index t keys)
        (by
          intro u keys' harrive
          obtain ⟨call, forwards, -⟩ := (mem_arrivals_iff hbuild).1 harrive
          exact ⟨forwards.2.2.1, hchain.arrive hbuild harrive⟩)
      have hclosed := closed_enter hids ht hprogress.toExtends harrivals
      refine ⟨⟨hprogress.toExtends.trans (extends_enter t keys s), ?_⟩, keys, fun _ h => h,
        hprogress.visited _ (by simp [enter])⟩
      intro v hv
      rcases hprogress.closed v hv with hv | hv
      · rcases List.mem_cons.1 hv with rfl | hv
        · exact .inr hclosed
        · exact .inl hv
      · exact .inr hv
  · rename_i hfree
    exact ⟨Progress.refl s, hchain t ht hfree⟩
termination_by (free.length, 0)
decreasing_by exact Prod.Lex.left _ _ (length_without_lt (by assumption))

theorem visitAll_progress (own : List String) (hbuild : TemplateIndex.build templates = .ok index)
    (hids : (templates.map (·.mark.id)).Nodup) (free : List NodeId)
    (items : List (PlacedTemplate × List String)) (s : ParamSearch)
    (hitems : ∀ u keys, (u, keys) ∈ items →
      u ∈ templates ∧ ChainCovered templates free s keys) :
    Progress templates index own (visitAll index own free items s) s ∧
      ∀ u keys, (u, keys) ∈ items →
        Recorded own (visitAll index own free items s) u keys ∧
          Covered (visitAll index own free items s) u keys := by
  match items with
  | [] =>
    rw [visitAll]
    exact ⟨Progress.refl s, by simp⟩
  | (callee, keys) :: rest =>
    rw [visitAll]
    obtain ⟨hcallee, hchain⟩ := hitems callee keys (by simp)
    have hrecord : Progress templates index own (s.record own callee keys) s :=
      progress_record callee keys s
    obtain ⟨hvisit, hcovered⟩ := visit_progress own hbuild hids free callee keys _ hcallee
      (hchain.extend hrecord.toExtends)
    have hhead := hvisit.trans hrecord
    obtain ⟨hrest, harrivals⟩ := visitAll_progress own hbuild hids free rest _
      (by
        intro u keys' h
        obtain ⟨hu, hchain'⟩ := hitems u keys' (List.mem_cons_of_mem _ h)
        exact ⟨hu, hchain'.extend hhead.toExtends⟩)
    refine ⟨hrest.trans hhead, ?_⟩
    intro u keys' h
    rcases List.mem_cons.1 h with h | h
    · obtain ⟨rfl, rfl⟩ := Prod.mk.inj h
      have hrecorded : Recorded own (s.record own u keys') u keys' := recorded_record u keys' s
      exact ⟨(hrecorded.extend hvisit.toExtends).extend hrest.toExtends,
        hcovered.extend hrest.toExtends⟩
    · exact harrivals u keys' h
termination_by (free.length, items.length + 1)
decreasing_by
  · exact Prod.Lex.right _ (Nat.succ_pos _)
  · exact Prod.Lex.right _ (Nat.lt_succ_self _)

end

/-- Along a walk that never passes a key, some visit was without it. -/
theorem exists_visit_of_walk (hbuild : TemplateIndex.build templates = .ok index)
    {s : ParamSearch} (hstart : start ∈ templates) (hroot : Covered s start [])
    (hclosed : ∀ visit ∈ s.visited, Closed templates index own s visit) {calls : List Node}
    {t : PlacedTemplate} (walk : ForwardingWalk templates start calls t) (avoided : String → Prop)
    (havoids : ∀ call ∈ calls, ∀ k, avoided k → k ∉ call.paramKeys) :
    ∃ keys, (∀ k, avoided k → k ∉ keys) ∧ (t.mark.id, keys) ∈ s.visited := by
  induction walk with
  | here =>
    obtain ⟨keys, hsub, hvisited⟩ := hroot
    exact ⟨keys, fun k _ hk => List.not_mem_nil (hsub hk), hvisited⟩
  | @step calls t u call walk forwards ih =>
    obtain ⟨keys, havoid, hvisited⟩ := ih fun c hc => havoids c (by simp [hc])
    have harrive : (u, passed keys call) ∈ arrivals index t keys :=
      (mem_arrivals_iff hbuild).2 ⟨call, forwards, rfl⟩
    obtain ⟨-, fewer, hsub, hvisited'⟩ :=
      (hclosed _ hvisited).arrivals t (walk.mem hstart) rfl u _ harrive
    refine ⟨fewer, ?_, hvisited'⟩
    intro k hk hmem
    rcases mem_passed.1 (hsub hmem) with h | h
    · exact havoid k hk h
    · exact havoids call (by simp) k hk h

/-- What a template contributes is recorded. -/
theorem records_of_contributes (hbuild : TemplateIndex.build templates = .ok index)
    (hown : ∀ n, n ∈ own ↔ Declares start n) {s : ParamSearch} (hstart : start ∈ templates)
    (hroot : Covered s start [])
    (hclosed : ∀ visit ∈ s.visited, Closed templates index own s visit)
    {t : PlacedTemplate} {p : Param} (hcontributes : Contributes templates start p.name t)
    (hp : p ∈ t.info.params) : IndirectParam.Records s.found.params t.info.name p := by
  obtain ⟨-, hnot, calls, hne, walk, havoids⟩ := hcontributes
  cases walk with
  | here => exact absurd rfl hne
  | @step calls t' _ call walk forwards =>
    obtain ⟨keys, havoid, hvisited⟩ := exists_visit_of_walk hbuild hstart hroot hclosed walk
      (· = p.name) (by
        rintro c hc k rfl
        exact havoids c (by simp [hc]))
    have harrive : (t, passed keys call) ∈ arrivals index t' keys :=
      (mem_arrivals_iff hbuild).2 ⟨call, forwards, rfl⟩
    obtain ⟨hrecorded, -⟩ := (hclosed _ hvisited).arrivals t' (walk.mem hstart) rfl t _ harrive
    refine hrecorded p hp (fun h => hnot ((hown _).1 h)) ?_
    intro hmem
    rcases mem_passed.1 hmem with h | h
    · exact havoid p.name rfl h
    · exact havoids call (by simp) h

end ParamSearch

/-! ### Exactness -/

namespace TemplateIndex

open ParamSearch

variable {templates : List PlacedTemplate} {index : TemplateIndex} {start : PlacedTemplate}
  (hbuild : build templates = .ok index) (hids : (templates.map (·.mark.id)).Nodup)
  (hstart : start ∈ templates)

include hbuild hids hstart

/-- The search from a template, and what is kept at its end. -/
theorem search_outcome :
    ∃ s : ParamSearch, index.indirectParams start = s.found ∧ s.found.Sound templates start ∧
      Covered s start [] ∧
      ∀ visit ∈ s.visited,
        Closed templates index (start.info.params.map (·.name)) s visit := by
  have hown : ∀ n, n ∈ start.info.params.map (·.name) ↔ Declares start n := by
    simp [Declares]
  have hsound : ({} : ParamSearch).found.Sound templates start :=
    ⟨List.Pairwise.nil, by simp, by simp, by simp⟩
  refine ⟨_, rfl, visit_sound hbuild hown _ start [] {} ⟨.here, by simp⟩ hsound, ?_⟩
  -- nothing is on the chain when the search starts
  have hchain : ChainCovered templates (start.mark.id :: index.templates.map (·.mark.id)) {} [] := by
    intro u hu hfree
    have hmem := (refines_of_build_eq_ok hbuild).perm.mem_iff.2 hu
    exact absurd (List.mem_cons_of_mem _ (List.mem_map_of_mem hmem)) hfree
  obtain ⟨hprogress, hcovered⟩ := visit_progress _ hbuild hids _ start [] {} hstart hchain
  refine ⟨hcovered, ?_⟩
  intro v hv
  rcases hprogress.closed v hv with hv | hv
  · cases hv
  · exact hv

theorem sound_indirectParams : (index.indirectParams start).Sound templates start := by
  obtain ⟨s, hs, hsound, -⟩ := search_outcome hbuild hids hstart
  exact hs ▸ hsound

/-- A contributed declaration is recorded under its name. -/
theorem records_indirectParams {t : PlacedTemplate} {p : Param}
    (hcontributes : Contributes templates start p.name t) (hp : p ∈ t.info.params) :
    IndirectParam.Records (index.indirectParams start).params t.info.name p := by
  obtain ⟨s, hs, -, hroot, hclosed⟩ := search_outcome hbuild hids hstart
  rw [hs]
  exact records_of_contributes hbuild (by simp [Declares]) hstart hroot hclosed hcontributes hp

/-- There is an entry exactly for the contributed parameters. -/
theorem exists_indirectParam_iff (name : String) :
    (∃ e ∈ (index.indirectParams start).params, e.name = name) ↔
      ∃ t, Contributes templates start name t := by
  constructor
  · rintro ⟨e, he, rfl⟩
    obtain ⟨t, hcontributes, -⟩ := ((sound_indirectParams hbuild hids hstart).params e he).param
    exact ⟨t, hcontributes⟩
  · rintro ⟨t, hcontributes⟩
    obtain ⟨p, hp, rfl⟩ := hcontributes.1
    obtain ⟨e, he, hname, -⟩ := records_indirectParams hbuild hids hstart hcontributes hp
    exact ⟨e, he, hname⟩

/-- A contributed declaration is in the entry of its name. -/
theorem mem_entry_of_contributes {e : IndirectParam}
    (he : e ∈ (index.indirectParams start).params) {t : PlacedTemplate} {p : Param}
    (hcontributes : Contributes templates start e.name t) (hp : p ∈ t.info.params)
    (hname : p.name = e.name) : t.info.name ∈ e.callees ∧ p.ty ∈ e.types := by
  have hsound := sound_indirectParams hbuild hids hstart
  obtain ⟨e', he', hname', hentry⟩ :=
    records_indirectParams hbuild hids hstart (hname ▸ hcontributes) hp
  rw [hsound.ascending.eq_of_name_eq he he' (hname.symm.trans hname'.symm)]
  exact hentry

theorem mem_types_iff {e : IndirectParam} (he : e ∈ (index.indirectParams start).params)
    (ty : Ty) :
    ty ∈ e.types ↔
      ∃ t, Contributes templates start e.name t ∧
        ∃ p ∈ t.info.params, p.name = e.name ∧ p.ty = ty := by
  refine ⟨((sound_indirectParams hbuild hids hstart).params e he).types ty, ?_⟩
  rintro ⟨t, hcontributes, p, hp, hname, rfl⟩
  exact (mem_entry_of_contributes hbuild hids hstart he hcontributes hp hname).2

theorem mem_callees_iff {e : IndirectParam} (he : e ∈ (index.indirectParams start).params)
    (name : String) :
    name ∈ e.callees ↔ ∃ t, Contributes templates start e.name t ∧ t.info.name = name := by
  refine ⟨((sound_indirectParams hbuild hids hstart).params e he).callees name, ?_⟩
  rintro ⟨t, hcontributes, rfl⟩
  obtain ⟨p, hp, hname⟩ := hcontributes.1
  exact (mem_entry_of_contributes hbuild hids hstart he hcontributes hp hname).1

/-- Wherever a walk leads to, the template was visited. -/
theorem closed_of_walk {calls : List Node} {t : PlacedTemplate}
    (walk : ForwardingWalk templates start calls t) :
    ∃ s : ParamSearch, index.indirectParams start = s.found ∧ ∃ keys,
      Closed templates index (start.info.params.map (·.name)) s (t.mark.id, keys) := by
  obtain ⟨s, hs, -, hroot, hclosed⟩ := search_outcome hbuild hids hstart
  obtain ⟨keys, -, hvisited⟩ := exists_visit_of_walk hbuild hstart hroot hclosed walk
    (fun _ => False) (fun _ _ _ h => h.elim)
  exact ⟨s, hs, keys, hclosed _ hvisited⟩

theorem externalCalls_iff :
    (index.indirectParams start).externalCalls = true ↔
      ForwardsOutside templates start CallsByName := by
  refine ⟨(sound_indirectParams hbuild hids hstart).externalCalls, ?_⟩
  rintro ⟨calls, t, walk, call, hcall, hall, hkind, hnone⟩
  obtain ⟨s, hs, keys, hclosed⟩ := closed_of_walk hbuild hids hstart walk
  rw [hs]
  exact hclosed.externalCalls t (walk.mem hstart) rfl call (List.mem_filter.2 ⟨hcall, hall⟩)
    ((isExternalCall_iff hbuild).2 ⟨hkind, hnone⟩)

theorem externalDelcalls_iff :
    (index.indirectParams start).externalDelcalls = true ↔
      ForwardsOutside templates start CallsDelegate := by
  refine ⟨(sound_indirectParams hbuild hids hstart).externalDelcalls, ?_⟩
  rintro ⟨calls, t, walk, call, hcall, hall, hkind, hnone⟩
  obtain ⟨s, hs, keys, hclosed⟩ := closed_of_walk hbuild hids hstart walk
  rw [hs]
  exact hclosed.externalDelcalls t (walk.mem hstart) rfl call (List.mem_filter.2 ⟨hcall, hall⟩)
    ((isExternalDelcall_iff hbuild).2 ⟨hkind, hnone⟩)

end TemplateIndex

/-- What was found about a template is what forwarding walks from it say: the
    names are those of the contributed parameters, each with all types and all
    callees that contribute it and one of their declarations, and the marks say
    whether data is forwarded to calls that resolve to nothing. -/
structure IndirectParams.Exact (templates : List PlacedTemplate) (start : PlacedTemplate)
    (found : IndirectParams) : Prop where
  ascending : found.params.Pairwise (·.name < ·.name)
  names : ∀ name, (∃ e ∈ found.params, e.name = name) ↔ ∃ t, Contributes templates start name t
  types : ∀ e ∈ found.params, ∀ ty, ty ∈ e.types ↔
    ∃ t, Contributes templates start e.name t ∧ ∃ p ∈ t.info.params, p.name = e.name ∧ p.ty = ty
  callees : ∀ e ∈ found.params, ∀ c, c ∈ e.callees ↔
    ∃ t, Contributes templates start e.name t ∧ t.info.name = c
  param : ∀ e ∈ found.params, ∃ t, Contributes templates start e.name t ∧
    e.param ∈ t.info.params ∧ e.param.name = e.name
  externalCalls : found.externalCalls = true ↔ ForwardsOutside templates start CallsByName
  externalDelcalls : found.externalDelcalls = true ↔ ForwardsOutside templates start CallsDelegate

open TemplateIndex in
/-- **Indirect parameters are exact**, on cyclic call graphs too. -/
theorem indirectParams_exact {set : FileSet} {index : TemplateIndex}
    (hbuild : TemplateIndex.build set.templates = .ok index)
    (hids : (set.templates.map (·.mark.id)).Nodup) {start : PlacedTemplate}
    (hstart : start ∈ set.templates) :
    (index.indirectParams start).Exact set.templates start where
  ascending := (sound_indirectParams hbuild hids hstart).ascending
  names := exists_indirectParam_iff hbuild hids hstart
  types _ he := mem_types_iff hbuild hids hstart he
  callees _ he := mem_callees_iff hbuild hids hstart he
  param e he := ((sound_indirectParams hbuild hids hstart).params e he).param
  externalCalls := externalCalls_iff hbuild hids hstart
  externalDelcalls := externalDelcalls_iff hbuild hids hstart

/-- A template of one declared parameter that forwards its data by calls, each
    with the keys that it passes explicitly. -/
def forwardingTemplate (id : NodeId) (name param : String) (ty : Ty)
    (calls : List (String × List String)) : PlacedTemplate :=
  { mark := ⟨id, none, .unknown⟩
    info :=
      { name, shortName := none, form := .basic false, autoescape := .strict
        contentKind := some .html
        params := [⟨param, ty, none, true, none, .header⟩] }
    body := calls.zipIdx.map fun ((callee, keys), i) =>
      let call := 100 * id + 10 * i
      .node ⟨call, some id, .unknown⟩ (.call (.basic callee callee) .all)
        (keys.zipIdx.map fun (key, j) =>
          .leaf ⟨(call + j + 1 : NodeId), some call, .unknown⟩ (.contentParam key (some .html))) }

/-- A file set whose templates call each other in a cycle, with the same callee
    once with and once without a key. -/
def forwardingCycle : FileSet :=
  { id := 9
    files :=
      [{ mark := ⟨(0 : NodeId), some 9, .unknown⟩
         info :=
          { path := "cycle", package := none, namespaceName := "n", autoescape := .strict
            aliases := [] }
         templates :=
          [forwardingTemplate 1 "n.a" "p" .int [("n.b", ["q"]), ("n.c", []), ("n.gone", [])],
           forwardingTemplate 2 "n.b" "q" .string [("n.c", []), ("n.a", ["r"])],
           forwardingTemplate 3 "n.c" "r" .bool [("n.b", []), ("n.c", ["q"])]] }]
    next := 10 }

theorem indirectParams_exact_forwardingCycle :
    let start := forwardingTemplate 1 "n.a" "p" .int
      [("n.b", ["q"]), ("n.c", []), ("n.gone", [])]
    ∃ index, TemplateIndex.build forwardingCycle.templates = .ok index ∧
      (forwardingCycle.templates.map (·.mark.id)).Nodup ∧ start ∈ forwardingCycle.templates ∧
      (index.indirectParams start).Exact forwardingCycle.templates start := by
  have hslots : (forwardingCycle.templates.map (·.slot)).Nodup := by decide
  obtain ⟨index, hbuild⟩ := TemplateIndex.exists_build_iff.2 hslots
  exact ⟨index, hbuild, by decide, .head _, indirectParams_exact hbuild (by decide) (.head _)⟩

end Stencil
