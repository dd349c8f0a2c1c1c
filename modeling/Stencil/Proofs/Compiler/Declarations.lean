/-
  Stencil/Proofs/Compiler/Declarations.lean
  =========================================
  **What the templates of a file declare, and what their calls name.**

  Once a template is read no declaration is taken that templates could see, so all
  templates of a file are read in one scope, that of the finished file
  (`File.exists_scope_of_gives_read`).  The names in the scope are well-formed, and so
  is what templates and calls make of them.
-/
import Stencil.Proofs.Body.Calls
import Stencil.Proofs.Body.Reader
import Stencil.Proofs.Compiler.Reading
import Stencil.Proofs.Template.Declarations

namespace Stencil

namespace File

open Text (isDottedName)

/-- The templates among some items. -/
def rawTemplates (items : List Placed) : List RawTemplate :=
  items.filterMap fun t =>
    match t.item with
    | .template raw => some raw
    | _ => none

/-- A template is read in a scope, with some doc comment. -/
def ReadIn (scope : Scope) (raw : RawTemplate) (t : Template Nat) : Prop :=
  ∃ doc, Gives (RawTemplate.read scope { raw with doc }) t

/-- The names that a reader has taken are well-formed, and its templates are read in
    the scope that it has now. -/
structure Reader.Sound (raws : List RawTemplate) (r : Reader Nat) : Prop where
  namespaceDecl : ∀ declared, r.namespaceDecl = some declared → isDottedName declared.1.toList
  aliases : ∀ a ∈ r.aliases, isDottedName a.namespaceName.toList
  distinct : (r.aliases.map (·.name)).Nodup
  templates : List.Forall₂ (fun raw t => ∃ scope, r.scope? = some scope ∧ ReadIn scope raw t) raws
    r.templates.reverse

namespace Reader.Sound

variable {raws : List RawTemplate} {r r' : Reader Nat} {path : String}

theorem withDoc (h : r.Sound raws) (doc : Option (List Char)) : Sound raws { r with doc } :=
  ⟨h.namespaceDecl, h.aliases, h.distinct, h.templates⟩

/-- Where nothing can be seen yet no template is read. -/
theorem templates_of_scope?_eq_none (h : r.Sound raws) (hscope : r.scope? = none)
    {R : RawTemplate → Template Nat → Prop} : List.Forall₂ R raws r.templates.reverse :=
  h.templates.imp fun _ _ ⟨_, hsome, _⟩ => nomatch hscope.symm.trans hsome

theorem scope?_eq_none (h : r.namespaceDecl = none) : r.scope? = none := by
  rw [Reader.scope?, h]
  rfl

theorem addPackage (h : r.Sound raws) {text : List Char} (hok : r.addPackage text = .ok r') :
    r'.Sound raws := by
  rw [Reader.addPackage] at hok
  split_ifs at hok with _ hname
  cases hok
  have hnone : r.namespaceDecl = none := Option.not_isSome_iff_eq_none.1 hname
  exact ⟨h.namespaceDecl, h.aliases, h.distinct,
    h.templates_of_scope?_eq_none (scope?_eq_none hnone)⟩

theorem isDottedName_of_readNamespace {text : List Char} {declared : String × Autoescape}
    (h : readNamespace text = .ok declared) : isDottedName declared.1.toList := by
  rw [readNamespace] at h
  obtain ⟨cmd, -, h⟩ := bind_eq_ok.1 h
  split at h
  · rename_i hname
    obtain ⟨mode, -, h⟩ := bind_eq_ok.1 h
    cases h
    rwa [Body.CommandText.headText, String.toList_ofList]
  · cases h

theorem addNamespace (h : r.Sound raws) {text : List Char} (hok : r.addNamespace text = .ok r') :
    r'.Sound raws := by
  rw [Reader.addNamespace] at hok
  split_ifs at hok with hname
  obtain ⟨declared, hdeclared, hok⟩ := bind_eq_ok.1 hok
  cases hok
  have hnone : r.namespaceDecl = none := Option.not_isSome_iff_eq_none.1 hname
  refine ⟨?_, h.aliases, h.distinct, h.templates_of_scope?_eq_none (scope?_eq_none hnone)⟩
  rintro _ ⟨⟩
  exact isDottedName_of_readNamespace hdeclared

theorem addAlias (h : r.Sound raws) {text : List Char} {loc : Location}
    (hok : r.addAlias text loc = .ok r') : r'.Sound raws := by
  rw [Reader.addAlias] at hok
  split_ifs at hok with htemplates _ hdotted
  dsimp only at hok
  split_ifs at hok with hfresh
  cases hok
  refine ⟨h.namespaceDecl, ?_, ?_, ?_⟩
  · refine List.forall_mem_append.2 ⟨h.aliases, List.forall_mem_singleton.2 ?_⟩
    rw [String.toList_ofList]
    simpa using hdotted
  · rw [List.map_append, List.nodup_append]
    refine ⟨h.distinct, List.nodup_singleton _, ?_⟩
    rintro _ ha _ hb rfl
    obtain ⟨a, ha, hname⟩ := List.mem_map.1 ha
    refine hfresh (List.any_eq_true.2 ⟨a, ha, ?_⟩)
    exact beq_iff_eq.2 (hname.trans (List.mem_singleton.1 hb))
  · have hnone : r.templates = [] := by simpa using htemplates
    have hraws := h.templates
    rw [hnone, List.reverse_nil, List.forall₂_nil_right_iff] at hraws
    rw [hraws, hnone]
    exact .nil

theorem addTemplate (h : r.Sound raws) {raw : RawTemplate} (hgives : Gives (r.addTemplate readTemplate raw) r') :
    r'.Sound (raws ++ [raw]) := by
  rw [Reader.addTemplate] at hgives
  split at hgives
  · exact absurd hgives not_gives_throw
  · rename_i scope hscope
    obtain ⟨t, ht, hgives⟩ := gives_bind hgives
    rw [← eq_of_gives_pure hgives]
    refine ⟨h.namespaceDecl, h.aliases, h.distinct, ?_⟩
    rw [List.reverse_cons]
    refine List.rel_append h.templates (.cons ⟨scope, hscope, r.doc, ?_⟩ .nil)
    exact gives_of_gives_adapt ht

theorem of_gives_declared {result : Except Cause (Reader Nat)} {line : Nat}
    (hgives : Gives (declared line result : Header.Typing Cause _) r')
    (hsound : ∀ r'', result = .ok r'' → r''.Sound raws) :
    r'.Sound (raws ++ []) := by
  cases result with
  | error cause => exact absurd hgives not_gives_throw
  | ok r =>
    rw [← eq_of_gives_pure hgives, List.append_nil]
    exact (hsound r rfl).withDoc none

theorem step (h : r.Sound raws) {t : Placed} (hgives : Gives (r.step readTemplate path t) r') :
    r'.Sound (raws ++ rawTemplates [t]) := by
  obtain ⟨item, line⟩ := t
  cases item with
  | doc chars =>
    rw [← eq_of_gives_pure hgives, rawTemplates, List.filterMap_cons_none rfl, List.filterMap_nil,
      List.append_nil]
    exact h.withDoc (some chars)
  | comment =>
    rw [← eq_of_gives_pure hgives, rawTemplates, List.filterMap_cons_none rfl, List.filterMap_nil,
      List.append_nil]
    exact h.withDoc none
  | package text => exact of_gives_declared hgives fun _ => h.addPackage
  | namespaceDecl text => exact of_gives_declared hgives fun _ => h.addNamespace
  | aliasDecl text => exact of_gives_declared hgives fun _ => h.addAlias
  | template raw => exact h.addTemplate hgives

theorem run (h : r.Sound raws) {items : List Placed}
    (hgives : Gives (items.foldlM (Reader.step readTemplate path) r) r') :
    r'.Sound (raws ++ rawTemplates items) := by
  induction items generalizing r raws with
  | nil =>
    rw [← eq_of_gives_pure hgives, rawTemplates, List.filterMap_nil, List.append_nil]
    exact h
  | cons t rest ih =>
    rw [List.foldlM_cons] at hgives
    obtain ⟨mid, hmid, hgives⟩ := gives_bind hgives
    have hrest := ih (h.step hmid) hgives
    rwa [List.append_assoc, rawTemplates, rawTemplates, ← List.filterMap_append] at hrest

theorem scope (h : r.Sound raws) {scope : Scope} (hscope : r.scope? = some scope) :
    scope.Sound ∧ (scope.aliases.map (·.name)).Nodup := by
  obtain ⟨declared, hdeclared, rfl⟩ := Option.map_eq_some_iff.1 hscope
  exact ⟨⟨h.namespaceDecl _ hdeclared, h.aliases⟩, h.distinct⟩

end Reader.Sound

/-- All templates of a file are read in the scope that the file ends with. -/
theorem exists_scope_of_gives_read {path : String} {text : List Char} {file : SourceFile Nat}
    (h : Gives (read path text) file) :
    ∃ scope : Scope, scope.Sound ∧ (scope.aliases.map (·.name)).Nodup ∧
      file.info.package = scope.package ∧ file.info.aliases = scope.aliases ∧
      List.Forall₂ (ReadIn scope) (rawTemplates (scan text).1) file.templates := by
  rw [read_eq] at h
  obtain ⟨r, hr, h⟩ := gives_bind h
  have hstart : Reader.Sound [] {} := by
    refine ⟨?_, List.forall_mem_nil _, List.nodup_nil, .nil⟩
    rintro _ ⟨⟩
  have hsound := hstart.run hr
  split at h
  · exact absurd h not_gives_throw
  · have hfinish := eq_ok_of_gives_mk h
    rw [Reader.finish] at hfinish
    split at hfinish
    · cases hfinish
    · rename_i scope hscope
      cases hfinish
      refine ⟨scope, (hsound.scope hscope).1, (hsound.scope hscope).2, rfl, rfl, ?_⟩
      refine hsound.templates.imp ?_
      rintro raw t ⟨scope', hscope', hread⟩
      cases hscope.symm.trans hscope'
      exact hread

end File

/-! ### Calls -/

/-- The calls in the body of a template that is read are proper, also once it is
    placed. -/
theorem RawTemplate.properCalls_of_gives_read {scope : Scope} (hscope : scope.Sound)
    {raw : RawTemplate} {t : Template Nat} (h : Gives (raw.read scope) t) (loc : Nat → Location)
    (parent : Option NodeId) (next : NodeId) :
    ∀ n ∈ Tree.preorderAll (Tree.linkAll loc parent (Tree.numberAll next t.body).1),
      ProperCallAt n := by
  obtain ⟨scanned, drafts, -, hread, hbody⟩ := exists_body_of_gives_read h
  have hgists : Tree.gistAll drafts =
      Tree.gistAll (Tree.linkAll loc parent (Tree.numberAll next t.body).1) := by
    rw [Tree.gistAll_placed, hbody, Tree.gistAll_mapAll]
  have heach := Tree.each_of_gistAll_eq properCallAt_gist properCallAt_gist hgists
    fun d hd => Body.properCalls_of_reads hscope (Body.read_reads hread d hd)
  intro n hn
  obtain ⟨node, hnode, hn⟩ := Tree.mem_preorderAll.1 hn
  exact heach node hnode n hn

/-! ### Files -/

/-- Templates are placed one by one and in their order. -/
theorem Template.forall₂_placeAll {α : Type} {R : α → Template Nat → Prop}
    {S : α → Template Mark → Prop} {path : String} {parent : NodeId}
    (hplace : ∀ a t start, R a t → S a (place path parent start t).1) {as : List α}
    {drafts : List (Template Nat)} (h : List.Forall₂ R as drafts) (next : NodeId) :
    List.Forall₂ S as (placeAll path parent next drafts).1 := by
  induction h generalizing next with
  | nil => exact .nil
  | cons hd _ ih => exact .cons (hplace _ _ next hd) (ih _)

/-- **What a file that is read declares.**  Its aliases have different names, the
    declarations of its templates are proper, what the tags of a template declare are
    its parameters besides those of the doc comment, and all its calls are proper. -/
theorem Compiler.proper_of_parseFile {types : TypeRegistry} {source : Source}
    {file : SourceFile Mark} {next : NodeId}
    (h : (Compiler.parseFile types source).1 = .ok (file, next)) :
    (file.info.aliases.map (·.name)).Nodup ∧
      List.Forall₂ (fun raw t => t.info.Proper file.info.package ∧
          List.Forall₂ Header.ParamTag.Declares raw.paramTags t.info.headerParams ∧
          ∀ n ∈ Tree.preorderAll t.body, n.content.isCall → ProperCall n)
        (File.rawTemplates (File.scan source.text.toList).1) file.templates := by
  obtain ⟨draft, hgives, hplace⟩ := Compiler.exists_gives_of_parseFile h
  cases hplace
  obtain ⟨scope, hscope, hdistinct, hpackage, haliases, htemplates⟩ :=
    File.exists_scope_of_gives_read hgives
  rw [← haliases] at hdistinct
  refine ⟨hdistinct, Template.forall₂_placeAll ?_ htemplates 1⟩
  rintro raw t start ⟨doc, ht⟩
  obtain ⟨hproper, htags⟩ := RawTemplate.proper_of_gives_read hscope ht
  rw [← hpackage] at hproper
  exact ⟨hproper, htags, RawTemplate.properCalls_of_gives_read hscope ht _ _ _⟩

/-- A file of a package whose templates have parameters of both kinds, call each
    other and one of another namespace, and implement a delegate. -/
def packagedMail : Source :=
  { path := "mail.soy"
    text := "\x7bdelpackage acme.mail\x7d\n\x7bnamespace acme.views\x7d\n" ++
      "\x7balias acme.parts\x7d\n" ++
      "/** A greeting.\n * @param user The user.\n * @param? title */\n" ++
      "\x7btemplate .hello kind=\"html\"\x7d\n" ++
      "\x7b@param age: int\x7d\n\x7b@param? note: string\x7d\n\x7b@param mail: string|null\x7d\n" ++
      "\x7bcall parts.head\x7d\x7bparam a: $user /\x7d\x7bparam b\x7dB\x7b/param\x7d\x7b/call\x7d\n" ++
      "\x7b/template\x7d\n" ++
      "\x7bdeltemplate acme.foot variant=\"007\" autoescape=\"contextual\"\x7d\n" ++
      "\x7bmsg desc=\"\"\x7d\x7bcall .hello /\x7d\x7b/msg\x7d\n\x7b/deltemplate\x7d\n" }

theorem Compiler.proper_of_parseFile_packagedMail : ∃ file next,
    (Compiler.parseFile {} packagedMail).1 = .ok (file, next) ∧
    file.templates.map (fun t => (t.info.params.map (·.required), (Tree.calls t.body).length)) =
      [([true, false, true, false, false], 1), ([], 1)] ∧
    (file.info.aliases.map (·.name)).Nodup ∧
    List.Forall₂ (fun raw t => t.info.Proper file.info.package ∧
        List.Forall₂ Header.ParamTag.Declares raw.paramTags t.info.headerParams ∧
        ∀ n ∈ Tree.preorderAll t.body, n.content.isCall → ProperCall n)
      (File.rawTemplates (File.scan packagedMail.text.toList).1) file.templates := by
  have hcheck : (Compiler.parseFile {} packagedMail).1.toOption.any (fun parsed =>
      parsed.1.templates.map
          (fun t => (t.info.params.map (·.required), (Tree.calls t.body).length)) =
        [([true, false, true, false, false], 1), ([], 1)]) = true := by decide +kernel
  obtain ⟨⟨file, next⟩, hparse, hfile⟩ := any_toOption.1 hcheck
  exact ⟨file, next, hparse, of_decide_eq_true hfile, Compiler.proper_of_parseFile hparse⟩

end Stencil
