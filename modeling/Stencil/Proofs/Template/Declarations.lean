/-
  Stencil/Proofs/Template/Declarations.lean
  =========================================
  **What templates that are read declare.**

  The parameters of the doc comment and those of the tags go through one check of
  names, `addParams`, so they are different from each other and not the name of
  injected data (`addParams_eq_ok`).  Everything else that a template declares is
  fixed by its opening tag and by the scope of its file.
-/
import Stencil.Proofs.Compiler.Bodies
import Stencil.Proofs.Compiler.Reading
import Stencil.Proofs.Text.DottedNames
import Stencil.Proofs.Ty.Assignable

namespace Stencil

open Text (isIdentifier IsQualified)

/-! ### Decimal numbers -/

namespace Text

/-- A decimal number without leading zeros. -/
structure IsDecimal (cs : List Char) : Prop where
  ne_nil : cs ≠ []
  digits : ∀ c ∈ cs, c.isDigit
  zero : cs.head? = some '0' → cs = ['0']

theorem toList_toString (n : Nat) : (toString n).toList = Nat.toDigits 10 n :=
  String.toList_ofList

theorem head?_toDigits_ne_zero {n : Nat} (h : 0 < n) : (Nat.toDigits 10 n).head? ≠ some '0' := by
  induction n using Nat.strongRecOn with
  | _ n ih =>
    rcases Nat.lt_or_ge n 10 with hn | hn
    · rw [Nat.toDigits_of_lt_base hn]
      have hdigits : ∀ m < 10, 0 < m → [Nat.digitChar m].head? ≠ some '0' := by decide
      exact hdigits n hn h
    · rw [Nat.toDigits_of_base_le (by decide) hn, List.head?_append_of_ne_nil _ Nat.toDigits_ne_nil]
      exact ih (n / 10) (by omega) (by omega)

theorem isDecimal_toString (n : Nat) : IsDecimal (toString n).toList := by
  rw [toList_toString]
  refine ⟨Nat.toDigits_ne_nil, fun c hc => ?_, fun hzero => ?_⟩
  · exact Nat.isDigit_of_mem_toDigits (by decide) (by decide) hc
  · rcases Nat.eq_zero_or_pos n with rfl | hn
    · rfl
    · exact absurd hzero (head?_toDigits_ne_zero hn)

end Text

/-! ### What is said of declarations -/

/-- What can be the variant of a delegate: nothing, an identifier or a number. -/
def IsVariant (variant : String) : Prop :=
  variant = "" ∨ isIdentifier variant.toList ∨ Text.IsDecimal variant.toList

namespace TemplateInfo

/-- The declarations of a template in a file with or without a package.  The
    parameters of the doc comment and of the tags have different names, and nothing
    is known about the types of those from the doc comment. -/
structure Proper (package : Option String) (info : TemplateInfo) : Prop where
  distinct : (info.params.map (·.name)).Nodup
  names : ∀ p ∈ info.params, isIdentifier p.name.toList ∧ p.name ≠ "ij"
  docs : ∀ p ∈ info.params, p.source = .doc → p.ty = .unknown
  contentKind : info.contentKind.isSome ↔ info.autoescape = .strict
  basic : ∀ isPrivate, info.form = .basic isPrivate → IsQualified info.name
  priority : ∀ d, info.form = .delegate d → (d.priority = 1 ↔ package.isSome)
  variant : ∀ d, info.form = .delegate d → IsVariant d.variant

end TemplateInfo

/-- The parameter that a tag declares: it is required unless the tag says that it is
    optional or its type is nullable, and an optional one takes null. -/
structure Header.ParamTag.Declares (tag : Header.ParamTag) (p : Param) : Prop where
  source : p.source = .header
  name : ∃ type, nameAndType? tag.text = some (p.name.toList, type)
  required : p.required ↔ ¬ tag.optional ∧ ¬ p.ty.isNullable
  null : tag.optional → p.ty.accepts .null

/-- The tags of a template that declare parameters. -/
def RawTemplate.paramTags (raw : RawTemplate) : List Header.ParamTag :=
  match Body.scan raw.body with
  | .ok scanned => (Header.splitParamTags none scanned.tokens).1
  | .error _ => []

/-! ### The opening tag -/

namespace Body

theorem isVariant_of_variant? {value variant : String} (h : variant? value = some variant) :
    IsVariant variant := by
  rw [variant?] at h
  split at h
  · split at h
    · rename_i hname
      cases h
      refine .inr (.inl ?_)
      rwa [String.toList_ofList]
    · cases h
  · obtain ⟨n, -, rfl⟩ := Option.map_eq_some_iff.1 h
    exact .inr (.inr (Text.isDecimal_toString n))

theorem CommandText.isVariant_of_variant {cmd : CommandText} {variant : String}
    (h : cmd.variant = .ok variant) : IsVariant variant := by
  rw [CommandText.variant] at h
  split at h
  · cases h
    exact .inl rfl
  · split at h
    · rename_i hvariant
      cases h
      exact isVariant_of_variant? hvariant
    · cases h

end Body

namespace Header

open Body (CommandText)

variable {scope : Scope} {info : TemplateInfo}

theorem contentKind_eq_ok {mode : Autoescape} {given kind : Option ContentKind}
    (h : contentKind mode given = .ok kind) : kind.isSome ↔ mode = .strict := by
  rw [contentKind.eq_def] at h
  split at h <;> cases h
  · exact iff_of_true rfl rfl
  · exact iff_of_true rfl rfl
  · rename_i hmode
    exact iff_of_false Bool.false_ne_true fun hstrict => hmode hstrict

theorem basicName_eq_ok (hscope : scope.Sound) {cmd : CommandText} {name : String}
    {shortName : Option String} {form : TemplateForm}
    (h : basicName scope cmd = .ok (name, shortName, form)) :
    IsQualified name ∧ ∃ isPrivate, form = .basic isPrivate := by
  rw [basicName] at h
  split at h
  · rename_i hshort
    cases h
    exact ⟨Scope.isQualified_complete hscope hshort, _, rfl⟩
  · split at h
    · rename_i hfull
      cases h
      exact ⟨Scope.isQualified_of_isFull hfull, _, rfl⟩
    · cases h

theorem delegateName_eq_ok {cmd : CommandText} {name : String} {shortName : Option String}
    {form : TemplateForm} (h : delegateName scope cmd = .ok (name, shortName, form)) :
    ∃ d, form = .delegate d ∧ (d.priority = 1 ↔ scope.package.isSome) ∧ IsVariant d.variant := by
  simp only [delegateName] at h
  split at h
  · obtain ⟨variant, hvariant, h⟩ := bind_eq_ok.1 h
    cases h
    refine ⟨_, rfl, ?_, CommandText.isVariant_of_variant (mapError_eq_ok.1 hvariant)⟩
    split <;> simp_all
  · cases h

/-- The opening tag declares no parameters, and all else as it has to be. -/
theorem opening_eq_ok (hscope : scope.Sound) {raw : RawTemplate}
    (h : opening scope raw = .ok info) :
    info.Proper scope.package ∧ info.params = [] := by
  rw [opening] at h
  obtain ⟨cmd, -, h⟩ := bind_eq_ok.1 h
  obtain ⟨⟨name, shortName, form⟩, hname, mode, given, kind, hkind, rfl⟩ :
      ∃ named, (delegateName scope cmd = .ok named ∨ basicName scope cmd = .ok named) ∧
        ∃ mode given kind, contentKind mode given = .ok kind ∧
          { name := named.1, shortName := named.2.1, form := named.2.2, autoescape := mode,
            contentKind := kind } = info := by
    split at h
    all_goals
      obtain ⟨named, hnamed, h⟩ := bind_eq_ok.1 h
      obtain ⟨mode, -, h⟩ := bind_eq_ok.1 h
      obtain ⟨given, -, h⟩ := bind_eq_ok.1 h
      obtain ⟨kind, hkind, h⟩ := bind_eq_ok.1 h
    · exact ⟨named, .inl hnamed, mode, given, kind, hkind, Except.ok.inj h⟩
    · exact ⟨named, .inr hnamed, mode, given, kind, hkind, Except.ok.inj h⟩
  have hform : (∀ isPrivate, form = .basic isPrivate → IsQualified name) ∧
      ∀ d, form = .delegate d → (d.priority = 1 ↔ scope.package.isSome) ∧ IsVariant d.variant := by
    rcases hname with hname | hname
    · obtain ⟨d, rfl, hd⟩ := delegateName_eq_ok hname
      refine ⟨fun _ hbasic => (nomatch hbasic), ?_⟩
      rintro _ ⟨⟩
      exact hd
    · obtain ⟨hqualified, isPrivate, rfl⟩ := basicName_eq_ok hscope hname
      exact ⟨fun _ _ => hqualified, fun _ hdelegate => (nomatch hdelegate)⟩
  exact ⟨⟨List.nodup_nil, List.forall_mem_nil _, List.forall_mem_nil _, contentKind_eq_ok hkind,
    hform.1, fun d hd => (hform.2 d hd).1, fun d hd => (hform.2 d hd).2⟩, rfl⟩

/-! ### Parameters -/

theorem addParam_eq_ok {info' : TemplateInfo} {p : Param} (h : addParam info p = .ok info') :
    info' = { info with params := info.params ++ [p] } ∧ p.name ≠ "ij" ∧
      ∀ q ∈ info.params, q.name ≠ p.name := by
  rw [addParam] at h
  split at h
  · cases h
  · rename_i hreserved
    split at h
    · cases h
    · rename_i hfresh
      cases h
      refine ⟨rfl, hreserved, fun q hq hname => hfresh ?_⟩
      rw [TemplateInfo.param?, List.find?_isSome]
      exact ⟨q, hq, beq_iff_eq.2 hname⟩

theorem proper_addParam {package : Option String} (h : info.Proper package)
    {p : Param} (hname : isIdentifier p.name.toList) (hdoc : p.source = .doc → p.ty = .unknown)
    {info' : TemplateInfo} (hok : addParam info p = .ok info') : info'.Proper package := by
  obtain ⟨rfl, hreserved, hfresh⟩ := addParam_eq_ok hok
  refine ⟨?_, ?_, ?_, h.contentKind, h.basic, h.priority, h.variant⟩
  · rw [List.map_append, List.nodup_append]
    refine ⟨h.distinct, List.nodup_singleton _, ?_⟩
    rintro _ hq _ hp rfl
    obtain ⟨q, hq, heq⟩ := List.mem_map.1 hq
    exact hfresh q hq (heq.trans (List.mem_singleton.1 hp))
  · exact List.forall_mem_append.2 ⟨h.names, List.forall_mem_singleton.2 ⟨hname, hreserved⟩⟩
  · exact List.forall_mem_append.2 ⟨h.docs, List.forall_mem_singleton.2 hdoc⟩

/-- Parameters are added behind those before. -/
theorem addParams_eq_ok {package : Option String} (h : info.Proper package)
    {params : List (Param × Nat)} (hnames : ∀ p ∈ params, isIdentifier p.1.name.toList)
    (hdocs : ∀ p ∈ params, p.1.source = .doc → p.1.ty = .unknown) {info' : TemplateInfo}
    (hok : addParams info params = .ok info') :
    info'.Proper package ∧ info'.params = info.params ++ params.map (·.1) := by
  induction params generalizing info with
  | nil =>
    cases hok
    exact ⟨h, (List.append_nil _).symm⟩
  | cons p rest ih =>
    rw [addParams, List.foldlM_cons] at hok
    obtain ⟨mid, hmid, hok⟩ := bind_eq_ok.1 hok
    obtain ⟨hname, hnames⟩ := List.forall_mem_cons.1 hnames
    obtain ⟨hdoc, hdocs⟩ := List.forall_mem_cons.1 hdocs
    have hmid := mapError_eq_ok.1 hmid
    obtain ⟨hproper, hparams⟩ := ih (proper_addParam h hname hdoc hmid) hnames hdocs hok
    refine ⟨hproper, ?_⟩
    rw [hparams, (addParam_eq_ok hmid).1, List.map_cons, List.append_assoc, List.singleton_append]

theorem nameAndType?_eq_some {text name type : List Char}
    (h : nameAndType? text = some (name, type)) :
    isIdentifier name := by
  rw [nameAndType?] at h
  split at h
  · split at h
    · rename_i hname
      cases h
      exact (Bool.and_eq_true_iff.1 hname).1
    · cases h
  · cases h

theorem gives_paramType {optional : Bool} {source : List Char} {ty : Ty}
    (h : Gives (paramType optional source) ty) (hoptional : optional) : ty.accepts .null := by
  obtain ⟨s, s', h⟩ := h
  have hresult := (run_paramType optional source s).1
  rw [h] at hresult
  obtain ⟨ty, -, rfl⟩ := map_eq_ok.1 hresult.symm
  rw [if_pos hoptional]
  have hnull : Ty.null ∈ [ty, .null].flatMap Ty.members :=
    List.mem_flatMap.2 ⟨.null, by simp, List.mem_singleton_self _⟩
  exact Ty.join_accepts_of_mem hnull rfl rfl

theorem declares_of_gives_readParam {tag : ParamTag} {p : Param} {line : Nat}
    (h : Gives (readParam tag) (p, line)) : tag.Declares p := by
  rw [readParam] at h
  split at h
  · exact absurd h not_gives_throw
  · rename_i name type htext
    obtain ⟨ty, hty, h⟩ := gives_bind h
    cases eq_of_gives_pure h
    refine ⟨rfl, ⟨type, by rw [String.toList_ofList]; exact htext⟩, ?_, ?_⟩
    · simp
    · exact gives_paramType (gives_of_gives_adapt hty)

/-- The parameters of tags are what the tags declare, and their names are identifiers. -/
theorem forall₂_declares_of_gives {tags : List ParamTag} {params : List (Param × Nat)}
    (h : Gives (tags.mapM readParam) params) :
    List.Forall₂ (fun tag p => tag.Declares p.1) tags params :=
  (forall₂_of_gives_mapM h).imp fun _ _ hp => declares_of_gives_readParam hp

theorem ParamTag.Declares.isIdentifier {tag : ParamTag} {p : Param} (h : tag.Declares p) :
    isIdentifier p.name.toList := by
  obtain ⟨type, htext⟩ := h.name
  exact nameAndType?_eq_some htext

end Header

namespace RawTemplate

open Header (ParamTag)

variable {scope : Scope} {raw : RawTemplate}

/-- A doc comment says nothing about the names, forms and parameters of a template. -/
theorem proper_describe {package : Option String} {info : TemplateInfo} (h : info.Proper package)
    (comment : Option (List Char)) :
    (DocComment.describe comment info).Proper package ∧
      (DocComment.describe comment info).params = info.params := by
  have hbound : ∀ bound, (info.addBound bound).Proper package := fun _ => { h with }
  rw [DocComment.describe.eq_def]
  split
  · exact ⟨hbound _, rfl⟩
  · dsimp only
    split
    · exact ⟨{ h with }, rfl⟩
    · rename_i bound _
      exact ⟨{ hbound bound with }, rfl⟩

theorem mem_params {text : List Char} {p : Param} (h : p ∈ DocComment.params text) :
    isIdentifier p.name.toList ∧ p.ty = .unknown ∧ p.source = .doc := by
  obtain ⟨d, hd, rfl⟩ := List.mem_map.1 h
  refine ⟨?_, rfl, rfl⟩
  have hword := (List.mem_filter.1 hd).2
  rwa [DocComment.Decl.toParam, String.toList_ofList]

theorem forall_mem_docParams (doc : Option (List Char)) :
    ∀ p ∈ (match doc with
      | none => []
      | some comment => DocComment.params (DocComment.clean comment) : List Param),
      isIdentifier p.name.toList ∧ p.ty = .unknown ∧ p.source = .doc := by
  cases doc with
  | none => exact List.forall_mem_nil _
  | some comment => exact fun p hp => mem_params hp

theorem declare_eq_ok (hscope : scope.Sound) {info : TemplateInfo}
    (h : raw.declare scope = .ok info) :
    info.Proper scope.package ∧ ∀ p ∈ info.params, p.source = .doc := by
  rw [declare] at h
  obtain ⟨opened, hopened, h⟩ := bind_eq_ok.1 h
  obtain ⟨hproper, hnone⟩ := Header.opening_eq_ok hscope (mapError_eq_ok.1 hopened)
  obtain ⟨hdescribed, hparams⟩ := proper_describe hproper raw.doc
  have hdocs := forall_mem_docParams raw.doc
  obtain ⟨hinfo, hadded⟩ := Header.addParams_eq_ok hdescribed
    (List.forall_mem_map.2 fun p hp => (hdocs p hp).1)
    (List.forall_mem_map.2 fun p hp _ => (hdocs p hp).2.1) h
  refine ⟨hinfo, ?_⟩
  rw [hadded, hparams, hnone, List.nil_append, List.map_map]
  exact List.forall_mem_map.2 fun p hp => (hdocs p hp).2.2

/-- A template that is read has proper declarations, and its parameters other than
    those of the doc comment are what its tags declare. -/
theorem proper_of_gives_read (hscope : scope.Sound) {t : Template Nat}
    (h : Gives (raw.read scope) t) :
    t.info.Proper scope.package ∧
      List.Forall₂ ParamTag.Declares raw.paramTags t.info.headerParams := by
  obtain ⟨scanned, declared, params, info, -, hscan, hdeclared, hparams, hinfo, -, rfl, -⟩ :=
    exists_parts_of_gives_read h
  obtain ⟨hproper, hdocs⟩ := declare_eq_ok hscope hdeclared
  have htags := Header.forall₂_declares_of_gives hparams
  have heach : ∀ p ∈ params, isIdentifier p.1.name.toList ∧ p.1.source = .header :=
    ((List.forall₂_and_left _ _).1 (htags.flip.imp fun p tag hp =>
      ⟨⟨hp.isIdentifier, hp.source⟩, hp⟩)).1
  obtain ⟨hinfo, hadded⟩ := Header.addParams_eq_ok hproper (fun p hp => (heach p hp).1)
    (fun p hp hdoc => absurd ((heach p hp).2.symm.trans hdoc) (by decide)) hinfo
  refine ⟨hinfo, ?_⟩
  have hheader : t.info.headerParams = params.map (·.1) := by
    rw [TemplateInfo.headerParams, hadded, List.filter_append]
    rw [List.filter_eq_nil_iff.2 fun p hp => by rw [hdocs p hp]; decide, List.nil_append]
    refine List.filter_eq_self.2 (List.forall_mem_map.2 fun p hp => ?_)
    rw [(heach p hp).2]
    rfl
  rw [paramTags, hscan, hheader, List.forall₂_map_right_iff]
  exact htags

end RawTemplate

end Stencil
