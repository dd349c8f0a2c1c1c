/-
  Stencil/Proofs/Compiler/Bodies.lean
  ===================================
  **Where the bodies of templates come from.**

  Every template of a file that is read has a body that the body reader made
  from some tokens, its lines counted from the start of the file.  Placing
  numbers and links that body and changes nothing else.
-/
import Mathlib.Data.List.Nodup
import Stencil.Proofs.Compiler.Reading
import Stencil.Proofs.Tree.Numbering

namespace Stencil

/-- Drafts that the body reader makes, their lines counted from further up. -/
def IsBody (drafts : List Draft) : Prop :=
  ∃ scope tokens endLine body line, Body.read scope tokens endLine = .ok body ∧
    drafts = Tree.mapAll (· + line) body

namespace RawTemplate

variable {scope : Scope} {raw : RawTemplate} {t : Template Nat}

/-- The declarations and the body of a template that is read, each from its part of
    the text. -/
theorem exists_parts_of_gives_read (h : Gives (raw.read scope) t) :
    ∃ scanned declared params info body, Body.scan raw.body = .ok scanned ∧
      raw.declare scope = .ok declared ∧
      Gives ((Header.splitParamTags none scanned.tokens).1.mapM Header.readParam) params ∧
      Header.addParams declared params = .ok info ∧
      Body.read scope (Header.splitParamTags none scanned.tokens).2 scanned.endLine = .ok body ∧
      t.info = info ∧ t.body = Tree.mapAll (· + raw.line) body := by
  obtain ⟨fromOpening, hopening, h⟩ := gives_bind h
  rw [← eq_of_gives_pure h]
  have hopening := gives_of_gives_adapt hopening
  rw [readFromOpening_eq] at hopening
  obtain ⟨scanned, hscan, h⟩ := gives_bind hopening
  obtain ⟨declared, hdeclared, h⟩ := gives_bind h
  obtain ⟨params, hparams, h⟩ := gives_bind h
  obtain ⟨info, hinfo, h⟩ := gives_bind h
  obtain ⟨body, hbody, h⟩ := gives_bind h
  rw [← eq_of_gives_pure h]
  exact ⟨scanned, declared, params, info, body, mapError_eq_ok.1 (eq_ok_of_gives_mk hscan),
    mapError_eq_ok.1 (eq_ok_of_gives_mk hdeclared), gives_of_gives_adapt hparams,
    mapError_eq_ok.1 (eq_ok_of_gives_mk hinfo), mapError_eq_ok.1 (eq_ok_of_gives_mk hbody), rfl, rfl⟩

/-- The body of a template that is read is read from the tokens after the declarations. -/
theorem exists_body_of_gives_read (h : Gives (raw.read scope) t) :
    ∃ scanned body, Body.scan raw.body = .ok scanned ∧
      Body.read scope (Header.splitParamTags none scanned.tokens).2 scanned.endLine = .ok body ∧
      t.body = Tree.mapAll (· + raw.line) body := by
  obtain ⟨scanned, -, -, -, body, hscan, -, -, -, hread, -, hbody⟩ := exists_parts_of_gives_read h
  exact ⟨scanned, body, hscan, hread, hbody⟩

theorem isBody_of_gives_read (h : Gives (raw.read scope) t) : IsBody t.body := by
  obtain ⟨scanned, body, -, hread, hbody⟩ := exists_body_of_gives_read h
  exact ⟨scope, _, _, body, raw.line, hread, hbody⟩

end RawTemplate

namespace File

variable {P : Template Nat → Prop}

theorem Reader.forall_of_gives_addTemplate {r r' : Reader Nat} {raw : RawTemplate}
    (hP : ∀ scope doc t, Gives (RawTemplate.read scope { raw with doc }) t → P t)
    (hr : ∀ t ∈ r.templates, P t) (h : Gives (r.addTemplate readTemplate raw) r') :
    ∀ t ∈ r'.templates, P t := by
  rw [Reader.addTemplate] at h
  split at h
  · exact absurd h not_gives_throw
  · obtain ⟨template, htemplate, h⟩ := gives_bind h
    rw [← eq_of_gives_pure h]
    intro t ht
    rcases List.mem_cons.1 ht with rfl | ht
    · exact hP _ _ _ (gives_of_gives_adapt htemplate)
    · exact hr t ht

theorem Reader.forall_of_gives_step {path : String} {r r' : Reader Nat} {t : Placed}
    (hP : ∀ raw, t.item = .template raw → ∀ scope doc t,
      Gives (RawTemplate.read scope { raw with doc }) t → P t)
    (hr : ∀ t ∈ r.templates, P t) (h : Gives (r.step readTemplate path t) r') : ∀ t ∈ r'.templates, P t := by
  have hdeclared : ∀ {result : Except Cause (Reader Nat)},
      (∀ r'', result = .ok r'' → r''.templates = r.templates) →
      Gives (Reader.declared t.line result : Header.Typing Cause _) r' → ∀ t ∈ r'.templates, P t := by
    intro result htemplates h
    cases result with
    | error cause => exact absurd h not_gives_throw
    | ok r'' =>
      rw [← eq_of_gives_pure h]
      change ∀ t ∈ r''.templates, _
      rw [htemplates r'' rfl]
      exact hr
  rw [Reader.step] at h
  split at h
  · rw [← eq_of_gives_pure h]
    exact hr
  · rw [← eq_of_gives_pure h]
    exact hr
  · exact hdeclared (fun _ => Reader.templates_eq.1 _) h
  · exact hdeclared (fun _ => Reader.templates_eq.2.1 _) h
  · exact hdeclared (fun _ => Reader.templates_eq.2.2 _ _) h
  · rename_i hitem
    exact Reader.forall_of_gives_addTemplate (hP _ hitem) hr h

/-- What is true of the templates that are read from the items of a text is true of
    the templates of its file. -/
theorem forall_of_gives_read {path : String} {text : List Char} {file : SourceFile Nat}
    (hP : ∀ raw line, ⟨.template raw, line⟩ ∈ (scan text).1 → ∀ scope doc t,
      Gives (RawTemplate.read scope { raw with doc }) t → P t)
    (h : Gives (read path text) file) : ∀ t ∈ file.templates, P t := by
  rw [read_eq] at h
  obtain ⟨r, hr, h⟩ := gives_bind h
  have hsound : ∀ t ∈ r.templates, P t := by
    have hstart : ∀ t ∈ ({} : Reader Nat).templates, P t := List.forall_mem_nil P
    refine foldlM_gives (P := fun r : Reader Nat => ∀ t ∈ r.templates, P t)
      (fun item hitem _ _ hs hstep => ?_) hstart hr
    refine Reader.forall_of_gives_step (fun raw hraw => hP raw item.line ?_) hs hstep
    rw [← hraw]
    exact hitem
  split at h
  · exact absurd h not_gives_throw
  · have hfinish := eq_ok_of_gives_mk h
    rw [Reader.finish] at hfinish
    split at hfinish
    · cases hfinish
    · cases hfinish
      exact fun t ht => hsound t (List.mem_reverse.1 ht)

theorem isBody_of_gives_read {path : String} {text : List Char} {file : SourceFile Nat}
    (h : Gives (read path text) file) : ∀ t ∈ file.templates, IsBody t.body :=
  forall_of_gives_read (fun _ _ _ _ _ _ => RawTemplate.isBody_of_gives_read) h

end File

/-! ### Placed bodies -/

/-- A placed body: numbered and linked, and nothing else changed. -/
def IsPlacedBody (body : List Node) : Prop :=
  ∃ drafts loc parent next, IsBody drafts ∧
    body = Tree.linkAll loc parent (Tree.numberAll next drafts).1

/-- No two nodes of a placed body have one identity. -/
theorem IsPlacedBody.eq_of_id_eq {body : List Node} (h : IsPlacedBody body) {n n' : Node}
    (hn : n ∈ Tree.preorderAll body) (hn' : n' ∈ Tree.preorderAll body) (hid : n.id = n'.id) :
    n = n' := by
  obtain ⟨drafts, loc, parent, next, -, rfl⟩ := h
  exact List.inj_on_of_nodup_map (Tree.nodup_ids_placed loc parent next drafts) hn hn' hid

theorem IsPlacedBody.claimsCall {body : List Node} (h : IsPlacedBody body) {n : Node}
    (hn : n ∈ Tree.preorderAll body) : Tree.ClaimsCall n := by
  obtain ⟨drafts, loc, parent, next, -, rfl⟩ := h
  exact Tree.claimsCall_of_mem_linkAll loc parent _ hn

namespace Template

variable {path : String} {parent : Option NodeId} {next : NodeId} {drafts : List (Template Nat)}

/-- Every template that is placed comes from a draft. -/
theorem exists_place_of_mem_placeAll : ∀ t ∈ (placeAll path parent next drafts).1,
    ∃ d ∈ drafts, ∃ start, t = (place path parent start d).1 := by
  induction drafts generalizing next with
  | nil => exact fun _ ht => (nomatch ht)
  | cons d rest ih =>
    intro t ht
    rw [placeAll] at ht
    rcases List.mem_cons.1 ht with rfl | ht
    · exact ⟨d, List.mem_cons_self, next, rfl⟩
    · obtain ⟨d', hd', start, rfl⟩ := ih t ht
      exact ⟨d', List.mem_cons_of_mem _ hd', start, rfl⟩

theorem isPlacedBody_of_mem_placeAll (hdrafts : ∀ t ∈ drafts, IsBody t.body) :
    ∀ t ∈ (placeAll path parent next drafts).1, IsPlacedBody t.body := by
  intro t ht
  obtain ⟨d, hd, start, rfl⟩ := exists_place_of_mem_placeAll t ht
  exact ⟨d.body, _, _, _, hdrafts d hd, rfl⟩

end Template

/-- The templates of a file that is read and placed have placed bodies. -/
theorem Compiler.isPlacedBody_of_parseFile {types : TypeRegistry} {source : Source}
    {file : SourceFile Mark} {next : NodeId}
    (h : (Compiler.parseFile types source).1 = .ok (file, next)) :
    ∀ t ∈ file.templates, IsPlacedBody t.body := by
  obtain ⟨draft, hgives, hplace⟩ := Compiler.exists_gives_of_parseFile h
  cases hplace
  exact Template.isPlacedBody_of_mem_placeAll (File.isBody_of_gives_read hgives)

end Stencil
