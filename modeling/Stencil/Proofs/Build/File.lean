/-
  Stencil/Proofs/Build/File.lean
  ==============================
  **Built files are placed drafts.**

  Templates, files and file sets are built as their drafts are read and then placed.
  So what a compiler parses can be told in two steps: the drafts of the sources, which
  know of no identities, and the identities that these get.
-/
import Stencil.Compiler.Basic
import Stencil.Proofs.Build.Body
import Stencil.Proofs.File.Placing
import Stencil.Proofs.Tree.Lines

namespace Stencil

open Header (Typing)

/-! ### Computations with a value changed at the end -/

section Maps

variable {ε ε' σ α β γ : Type}

theorem runs_map (f : α → β) (x : ExceptT ε (StateM σ) α) (s : σ) :
    (f <$> x).run.run s = ((x.run.run s).1.map f, (x.run.run s).2) := by
  rw [ExceptT.run_map]
  rfl

theorem adapt_map (g : ε → ε') (f : α → β) (x : ExceptT ε (StateM σ) α) :
    (f <$> x).adapt g = f <$> x.adapt g := by
  apply ExceptT.ext
  apply StateT.ext
  intro s
  rw [runs_map]
  change (((f <$> x).run.run s).1.mapError g, ((f <$> x).run.run s).2) = _
  rw [runs_map]
  change _ = (((x.run.run s).1.mapError g).map f, (x.run.run s).2)
  cases (x.run.run s).1 <;> rfl

/-- Steps that draw from a state are steps without one, if each is that up to a map into
    values and states. -/
theorem run_foldlM {m : Type → Type} [Monad m] [LawfulMonad m] {τ : Type} (place : α → β × τ)
    {step : β → γ → StateT τ m β} {draft : α → γ → m α} {cs : List γ}
    (hstep : ∀ c ∈ cs, ∀ a, (step (place a).1 c).run (place a).2 = place <$> draft a c) (a : α) :
    (cs.foldlM step (place a).1).run (place a).2 = place <$> cs.foldlM draft a := by
  induction cs generalizing a with
  | nil => rw [List.foldlM_nil, List.foldlM_nil, StateT.run_pure, map_pure]
  | cons c cs ih =>
    rw [List.foldlM_cons, List.foldlM_cons, StateT.run_bind, hstep c List.mem_cons_self, map_bind,
      bind_map_left]
    exact bind_congr fun a => ih (fun c hc => hstep c (List.mem_cons_of_mem _ hc)) a

end Maps

/-! ### Templates -/

namespace Tree

variable {loc : Nat → Location} {f : Nat → Nat}

mutual

/-- Moving lines before a draft is placed is moving them in what gives the places. -/
theorem link_map_onLine (parent : Option NodeId) : (t : Numbered) →
    link loc parent (t.map (onLine f)) = link (loc ∘ f) parent t
  | node (id, line) content children => by
    rw [map, onLine, link, link, claimKey_mapAll, linkAll_mapAll_onLine (some id) children]
    rfl

theorem linkAll_mapAll_onLine (parent : Option NodeId) : (ts : List Numbered) →
    linkAll loc parent (mapAll (onLine f) ts) = linkAll (loc ∘ f) parent ts
  | [] => rfl
  | t :: rest => by
    rw [mapAll, linkAll, linkAll, link_map_onLine parent t, linkAll_mapAll_onLine parent rest]

end

theorem placeAll_mapAll (parent : Option NodeId) (next : NodeId) (ts : List Draft) :
    placeAll loc parent next (mapAll f ts) = placeAll (loc ∘ f) parent next ts := by
  rw [placeAll, numberAll_mapAll, linkAll_mapAll_onLine]
  rfl

end Tree

namespace RawTemplate

variable {β γ : Type}

theorem orFail_map {Cause : Type} (f : Cause → TemplateCause) (g : β → γ)
    (result : Except (Fault Cause) β) : orFail f (result.map g) = g <$> orFail f result := by
  cases result <;> rfl

/-- Changing what is made of a body. -/
theorem readParts_map (g : β → γ) (readBody : List Body.Placed → Nat → Body.Outcome β)
    (scope : Scope) (raw : RawTemplate) :
    raw.readParts (fun tokens endLine => (readBody tokens endLine).map g) scope =
      Prod.map id g <$> raw.readParts readBody scope := by
  simp only [readParts, orFail_map, map_bind, bind_map_left, map_pure, Prod.map, id]

/-- A template is built as its draft is placed. -/
theorem build_eq (path : String) (scope : Scope) (raw : RawTemplate) (next : NodeId) :
    raw.build path scope next = Template.place path none next <$> raw.read scope := by
  let loc line := (Location.ofFile path).atLine (line + raw.line)
  have hbody : Build.read loc scope (next + 1) = fun tokens endLine =>
      (Body.read scope tokens endLine).map fun ds =>
        (Tree.placeAll loc none (next + 1) ds, next + 1 + Tree.sizeAll ds) :=
    funext fun tokens => funext fun endLine => Build.read_eq loc scope (next + 1) tokens endLine
  have hopening : raw.readFromOpening scope =
      (fun parts => ⟨0, parts.1, parts.2⟩) <$> raw.readParts (Body.read scope) scope :=
    bind_pure_comp _ _
  rw [build, hbody, readParts_map, adapt_map, read, hopening, adapt_map, bind_map_left,
    bind_map_left, map_bind]
  refine bind_congr fun (info, ds) => ?_
  rw [map_pure]
  refine congrArg pure (Prod.ext ?_ ?_)
  · change Template.mk _ info ((ChildList.mk next []).pushAll (Tree.placeAll loc none _ ds)).nodes =
      Template.mk _ info (Tree.placeAll (Location.ofFile path).atLine _ _ (Tree.mapAll _ ds))
    rw [ChildList.pushAll_eq, Tree.adopt_placeAll, Tree.placeAll_mapAll]
    rfl
  · change _ = (Tree.numberAll (next + 1) (Tree.mapAll _ ds)).2
    rw [Tree.numberAll_free, Tree.sizeAll_mapAll]

end RawTemplate

namespace Template

theorem withParent_placeAll (path : String) (parent : Option NodeId) (next : NodeId)
    (drafts : List (Template Nat)) :
    (placeAll path none next drafts).1.map (·.withParent parent) =
        (placeAll path parent next drafts).1 ∧
      (placeAll path none next drafts).2 = (placeAll path parent next drafts).2 := by
  induction drafts generalizing next with
  | nil => exact ⟨rfl, rfl⟩
  | cons t rest ih =>
    obtain ⟨htemplates, hfree⟩ := ih (place path parent next t).2
    exact ⟨congrArg (_ :: ·) htemplates, hfree⟩

theorem placeAll_append (path : String) (parent : Option NodeId) (next : NodeId)
    (drafts more : List (Template Nat)) :
    placeAll path parent next (drafts ++ more) =
      ((placeAll path parent next drafts).1 ++
          (placeAll path parent (placeAll path parent next drafts).2 more).1,
        (placeAll path parent (placeAll path parent next drafts).2 more).2) := by
  induction drafts generalizing next with
  | nil => rfl
  | cons t rest ih =>
    rw [List.cons_append, placeAll]
    dsimp only
    rw [ih]
    rfl

theorem isEmpty_reverse_placeAll (path : String) (parent : Option NodeId) (next : NodeId)
    (drafts : List (Template Nat)) :
    (placeAll path parent next drafts).1.reverse.isEmpty = drafts.isEmpty := by
  cases drafts with
  | nil => rfl
  | cons t rest => rw [List.isEmpty_reverse]; rfl

end Template

/-! ### Files -/

namespace File

variable (path : String)

/-- A reader with placed templates, and the next free identity. -/
def Reader.place (start : NodeId) (r : Reader Nat) : Reader Mark × NodeId :=
  let placed := Template.placeAll path none start r.templates.reverse
  ({ package := r.package
     namespaceDecl := r.namespaceDecl
     aliases := r.aliases
     templates := placed.1.reverse
     doc := r.doc }, placed.2)

theorem run_buildTemplate (scope : Scope) (raw : RawTemplate) (next : NodeId) :
    (buildTemplate path scope raw).run next =
      Template.place path none next <$> readTemplate scope raw := by
  change (raw.build path scope next).adapt _ = _
  rw [RawTemplate.build_eq, adapt_map]
  rfl

/-- A template is built after the templates before it. -/
theorem Reader.run_addTemplate (start : NodeId) (r : Reader Nat) (raw : RawTemplate) :
    ((r.place path start).1.addTemplate (buildTemplate path) raw).run (r.place path start).2 =
      Reader.place path start <$> r.addTemplate readTemplate raw := by
  have hscope : (r.place path start).1.scope? = r.scope? := rfl
  rw [addTemplate, addTemplate, hscope]
  cases r.scope? with
  | none => rfl
  | some scope =>
    dsimp only
    rw [StateT.run_bind, run_buildTemplate, bind_map_left, map_bind]
    refine bind_congr fun t => ?_
    rw [map_pure, StateT.run_pure, place, place, List.reverse_cons, Template.placeAll_append,
      List.reverse_append]
    rfl

/-! ### Declarations -/

section Declarations

variable {path} {start : NodeId} {r : Reader Nat}

/-- Declarations before the templates add no template. -/
theorem Reader.templates_eq {r r' : Reader Nat} :
    (∀ text, r.addPackage text = .ok r' → r'.templates = r.templates) ∧
    (∀ text, r.addNamespace text = .ok r' → r'.templates = r.templates) ∧
    ∀ text loc, r.addAlias text loc = .ok r' → r'.templates = r.templates := by
  refine ⟨fun text h => ?_, fun text h => ?_, fun text loc h => ?_⟩
  · rw [Reader.addPackage] at h
    split_ifs at h
    cases h
    rfl
  · rw [Reader.addNamespace] at h
    split_ifs at h
    obtain ⟨decl, -, h⟩ := bind_eq_ok.1 h
    cases h
    rfl
  · rw [Reader.addAlias] at h
    split_ifs at h
    dsimp only at h
    split_ifs at h
    cases h
    rfl

/-- What a declaration makes of a placed reader is placed, and the templates are as they
    were. -/
def Reader.Declares (path : String) (start : NodeId) (r : Reader Nat)
    (result : Except Cause (Reader Nat)) (built : Except Cause (Reader Mark)) : Prop :=
  built = result.map (fun r' => (r'.place path start).1) ∧
    ∀ r', result = .ok r' → r'.templates = r.templates

theorem Reader.declares_addPackage (text : List Char) :
    r.Declares path start (r.addPackage text) ((r.place path start).1.addPackage text) := by
  constructor
  · simp only [addPackage, apply_ite (Except.map _)]
    rfl
  · exact fun _ => templates_eq.1 text

theorem Reader.declares_addNamespace (text : List Char) :
    r.Declares path start (r.addNamespace text) ((r.place path start).1.addNamespace text) := by
  constructor
  · simp only [addNamespace, apply_ite (Except.map _)]
    cases readNamespace text <;> rfl
  · exact fun _ => templates_eq.2.1 text

theorem Reader.declares_addAlias (text : List Char) (loc : Location) :
    r.Declares path start (r.addAlias text loc) ((r.place path start).1.addAlias text loc) := by
  constructor
  · have hempty : (r.place path start).1.templates.isEmpty = r.templates.isEmpty := by
      rw [place, Template.isEmpty_reverse_placeAll, List.isEmpty_reverse]
    simp only [addAlias, hempty, apply_ite (Except.map _)]
    rfl
  · exact fun _ => templates_eq.2.2 text loc

/-- A declaration draws no identity. -/
theorem Reader.run_declared {result : Except Cause (Reader Nat)}
    {built : Except Cause (Reader Mark)} (h : r.Declares path start result built) (line : Nat) :
    (declared line built : StateT NodeId (Typing Cause) _).run (r.place path start).2 =
      Reader.place path start <$> declared line result := by
  obtain ⟨rfl, htemplates⟩ := h
  cases result with
  | error cause => rfl
  | ok r' =>
    have hfree : (r'.place path start).2 = (r.place path start).2 := by
      rw [place, place, htemplates r' rfl]
    rw [← hfree]
    rfl

end Declarations

theorem Reader.run_step (start : NodeId) (r : Reader Nat) (t : Placed) :
    (step (buildTemplate path) path (r.place path start).1 t).run (r.place path start).2 =
      Reader.place path start <$> step readTemplate path r t := by
  obtain ⟨item, line⟩ := t
  cases item with
  | doc chars => rfl
  | comment => rfl
  | package text => exact run_declared (declares_addPackage text) line
  | namespaceDecl text => exact run_declared (declares_addNamespace text) line
  | aliasDecl text => exact run_declared (declares_addAlias text _) line
  | template raw => exact run_addTemplate path start r raw

theorem place_finish (next : NodeId) (r : Reader Nat) :
    ((r.place path (next + 1)).1.finish path ⟨next, none, Location.ofFile path⟩).map
        (fun file => ({ file with
          templates := file.templates.map (·.withParent (some next)) },
            (r.place path (next + 1)).2)) =
      (r.finish path 0).map (SourceFile.place next) := by
  have hscope : (r.place path (next + 1)).1.scope? = r.scope? := rfl
  obtain ⟨htemplates, hfree⟩ :=
    Template.withParent_placeAll path (some next) (next + 1) r.templates.reverse
  rw [Reader.finish, Reader.finish, hscope]
  cases r.scope? with
  | none => rfl
  | some scope =>
    refine congrArg Except.ok (Prod.ext ?_ hfree)
    change SourceFile.mk _ _ ((Reader.place path (next + 1) r).1.templates.reverse.map _) = _
    rw [Reader.place, List.reverse_reverse, htemplates]
    rfl

/-- A file is built as its draft is placed. -/
theorem run_build (text : List Char) (next : NodeId) :
    (build path text).run next = SourceFile.place next <$> read path text := by
  have hrun : ((scan text).1.foldlM (Reader.step (buildTemplate path) path) {}).run (next + 1) = _ :=
    run_foldlM (Reader.place path (next + 1))
      (fun t _ r => Reader.run_step path (next + 1) r t) {}
  rw [build, StateT.run_bind, StateT.run_modifyGet, pure_bind, StateT.run_bind, read, readAs,
    readAs]
  dsimp only
  rw [StateT.run_bind, hrun, bind_map_left, bind_assoc, map_bind]
  refine bind_congr fun r => ?_
  cases (scan text).2 with
  | some fault => rfl
  | none =>
    have hfinish := place_finish path next r
    dsimp only
    cases hbuilt : (r.place path (next + 1)).1.finish path _ with
    | error e =>
      rw [hbuilt] at hfinish
      cases hdraft : r.finish path 0 with
      | error e' =>
        rw [hdraft] at hfinish
        cases hfinish
        rfl
      | ok draft =>
        rw [hdraft] at hfinish
        cases hfinish
    | ok file =>
      rw [hbuilt] at hfinish
      cases hdraft : r.finish path 0 with
      | error e' =>
        rw [hdraft] at hfinish
        cases hfinish
      | ok draft =>
        rw [hdraft] at hfinish
        exact congrArg (pure (f := Typing Cause)) (Except.ok.inj hfinish)

end File

/-! ### File sets -/

namespace Compiler

/-- The draft of a source. -/
def readSource (source : Source) : ExceptT ParseError (StateM TypeRegistry) (SourceFile Nat) :=
  (File.read source.path source.text.toList).adapt (File.toParseError source.path)

theorem run_buildSource (source : Source) (next : NodeId) :
    (buildSource source).run next = SourceFile.place next <$> readSource source := by
  change ((File.build source.path source.text.toList).run next).adapt _ = _
  rw [File.run_build, adapt_map]
  rfl

/-- Files are built one after the other as their drafts are placed. -/
theorem run_mapM_buildSource (sources : List Source) (next : NodeId) :
    (sources.mapM buildSource).run next =
      SourceFile.placeAll next <$> sources.mapM readSource := by
  induction sources generalizing next with
  | nil => rw [List.mapM_nil, List.mapM_nil, StateT.run_pure, map_pure, SourceFile.placeAll]
  | cons source rest ih =>
    rw [List.mapM_cons, List.mapM_cons, StateT.run_bind, run_buildSource, bind_map_left, map_bind]
    refine bind_congr fun draft => ?_
    rw [StateT.run_bind, ih, bind_map_left, map_bind]
    refine bind_congr fun drafts => ?_
    rw [StateT.run_pure, map_pure]
    rfl

/-- **A file is its placed draft**, and it is refused with the complaint about its draft. -/
theorem parseFile_eq (types : TypeRegistry) (source : Source) :
    parseFile types source =
      (((readSource source).run.run types).1.map (SourceFile.place 0),
        ((readSource source).run.run types).2) := by
  rw [parseFile, run_buildSource, runs_map]

/-- **A file set is placed from the drafts of its sources**, and it is refused with the
    complaint about the first that is refused. -/
theorem parse_eq (c : Compiler) (sources : List Source) :
    c.parse sources =
      ((((sources.mapM readSource).run.run c.types).1.map FileSet.place).mapError .parse,
        { c with types := ((sources.mapM readSource).run.run c.types).2 }) := by
  rw [parse, run_mapM_buildSource, runs_map]
  cases ((sources.mapM readSource).run.run c.types).1 <;> rfl

end Compiler

end Stencil
