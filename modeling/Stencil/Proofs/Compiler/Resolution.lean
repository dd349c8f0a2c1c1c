/-
  Stencil/Proofs/Compiler/Resolution.lean
  =======================================
  **Every expression gets its type, and nothing else changes.**

  Resolving types comes by all expressions of a file set that is read, those of
  prints, conditions, calls, parameters, plurals and selects at any depth.  Each
  gets the type that it has under the parameters of its template; without types
  the file set is the same as before; and what is resolved stays as it is
  (`resolveTypes_of_parse`).
-/
import Stencil.Proofs.Compiler.Reading
import Stencil.Proofs.Compiler.Typing

namespace Stencil

open Stencil.Tree (ShapedBody)

/-! ### Expressions -/

namespace Expr

/-- The expression without its type. -/
def untyped (e : Expr) : Expr := { e with ty := none }

theorem untyped_resolve (params : List Param) (e : Expr) :
    (e.resolve params).untyped = e.untyped := rfl

theorem resolve_resolve (params : List Param) (e : Expr) :
    (e.resolve params).resolve params = e.resolve params := rfl

end Expr

namespace Content

/-- The expressions that a content has. -/
def exprs : Content → List Expr
  | print expr _ _ => [expr]
  | branch condition => condition.toList
  | call _ (.value expr) => [expr]
  | valueParam _ value => [value]
  | plural expr _ _ => [expr]
  | select expr _ => [expr]
  | _ => []

theorem exprs_mapExpr (f : Expr → Expr) (content : Content) :
    (content.mapExpr f).exprs = content.exprs.map f := by
  cases content with
  | branch condition => cases condition <;> rfl
  | call target data => cases data <;> rfl
  | _ => rfl

theorem mapExpr_mapExpr (g f : Expr → Expr) (content : Content) :
    (content.mapExpr f).mapExpr g = content.mapExpr (g ∘ f) := by
  cases content with
  | branch condition => cases condition <;> rfl
  | call target data => cases data <;> rfl
  | _ => rfl

end Content

/-! ### Trees and templates -/

namespace Tree

variable {α : Type}

mutual

theorem mapExprs_mapExprs (g f : Expr → Expr) :
    (t : Tree α) → (t.mapExprs f).mapExprs g = t.mapExprs (g ∘ f)
  | node mark content children => by
    rw [mapExprs_node, mapExprs_node, mapExprs_node, Content.mapExpr_mapExpr,
      map_mapExprs_mapExprs g f children]

theorem map_mapExprs_mapExprs (g f : Expr → Expr) : (ts : List (Tree α)) →
    (ts.map (mapExprs f)).map (mapExprs g) = ts.map (mapExprs (g ∘ f))
  | [] => rfl
  | t :: rest => by
    rw [List.map_cons, List.map_cons, List.map_cons, mapExprs_mapExprs g f t,
      map_mapExprs_mapExprs g f rest]

end

end Tree

namespace Template

variable {α : Type}

theorem mapExprs_mapExprs (g f : Expr → Expr) (t : Template α) :
    (t.mapExprs f).mapExprs g = t.mapExprs (g ∘ f) :=
  congrArg (fun body => { t with body }) (Tree.map_mapExprs_mapExprs g f t.body)

/-- The template without the types of its expressions. -/
def untyped (t : Template α) : Template α := t.mapExprs Expr.untyped

theorem untyped_resolveTypes {t : Template α} (h : ShapedBody t.body) :
    t.resolveTypes.untyped = t.untyped := by
  have huntyped : Expr.untyped ∘ Expr.resolve t.info.params = Expr.untyped :=
    funext (Expr.untyped_resolve t.info.params)
  rw [resolveTypes_eq h, untyped, mapExprs_mapExprs, huntyped, untyped]

theorem resolveTypes_resolveTypes {t : Template α} (h : ShapedBody t.body) :
    t.resolveTypes.resolveTypes = t.resolveTypes := by
  have hresolve : Expr.resolve t.info.params ∘ Expr.resolve t.info.params =
      Expr.resolve t.info.params := funext (Expr.resolve_resolve t.info.params)
  have hmap := mapExprs_mapExprs (Expr.resolve t.info.params) (Expr.resolve t.info.params) t
  rw [resolveTypes_eq (shapedBody_resolveTypes h), resolveTypes_eq h]
  rw [hresolve] at hmap
  exact hmap

/-- Every expression of a body that has its shape is resolved. -/
theorem ty_of_mem_resolveTypes {t : Template α} (h : ShapedBody t.body) :
    ∀ n ∈ Tree.preorderAll t.resolveTypes.body, ∀ e ∈ n.content.exprs,
      e.ty = some (e.infer t.info.params) := by
  rw [resolveTypes_eq h, mapExprs, Tree.preorderAll_map_mapExprs, List.forall_mem_map]
  intro n _
  rw [Tree.content_mapExprs, Content.exprs_mapExpr, List.forall_mem_map]
  exact fun e _ => rfl

end Template

/-! ### File sets -/

namespace FileSet

variable {c : Compiler} {sources : List Source} {set : FileSet}

/-- The file set without the types of expressions. -/
def untyped (set : FileSet) : FileSet := set.mapTemplates Template.untyped

theorem mapTemplates_congr {f g : Template Mark → Template Mark}
    (h : ∀ t ∈ set.templates, f t = g t) : set.mapTemplates f = set.mapTemplates g := by
  refine congrArg (fun files => { set with files }) (List.map_congr_left fun file hfile => ?_)
  refine congrArg (fun templates => { file with templates }) (List.map_congr_left fun t ht => ?_)
  exact h t (List.mem_flatMap.2 ⟨file, hfile, ht⟩)

theorem mapTemplates_mapTemplates (g f : Template Mark → Template Mark) (set : FileSet) :
    (set.mapTemplates f).mapTemplates g = set.mapTemplates (g ∘ f) := by
  refine congrArg (fun files => { set with files }) ?_
  rw [mapTemplates, List.map_map]
  refine List.map_congr_left fun file _ => ?_
  exact congrArg (fun templates => { file with templates }) (List.map_map ..)

/-- **Resolving types** gives every expression of a file set that is read, at every
    node of its bodies, the type that it has under the parameters of its template.
    Nothing else is changed, and a second time nothing is. -/
theorem resolveTypes_of_parse (hparse : (c.parse sources).1 = .ok set) :
    (∀ t ∈ set.resolveTypes.templates, ∀ n ∈ Tree.preorderAll t.body, ∀ e ∈ n.content.exprs,
      e.ty = some (e.infer t.info.params)) ∧
      set.resolveTypes.untyped = set.untyped ∧
      set.resolveTypes.resolveTypes = set.resolveTypes := by
  have hshaped := shapedBody_of_parse hparse
  refine ⟨?_, ?_, ?_⟩
  · rw [templates_resolveTypes, List.forall_mem_map]
    exact fun t ht => Template.ty_of_mem_resolveTypes (hshaped t ht)
  · rw [untyped, resolveTypes, mapTemplates_mapTemplates]
    exact mapTemplates_congr fun t ht => Template.untyped_resolveTypes (hshaped t ht)
  · rw [resolveTypes, resolveTypes, mapTemplates_mapTemplates]
    exact mapTemplates_congr fun t ht => Template.resolveTypes_resolveTypes (hshaped t ht)

/-- Expressions in a condition, in a call with both kinds of parameters, in a tag of
    a message, and in a plural and a select. -/
def typedPlaces : Source :=
  { path := "t.soy"
    text := "\x7bnamespace n\x7d\n\x7btemplate .a\x7d\n" ++
      "\x7b@param s: string\x7d\n\x7b@param r: [k: int]\x7d\n" ++
      "\x7bif $s\x7d\x7b$r.k\x7d\x7b/if\x7d" ++
      "\x7bcall .b data=\"$r\"\x7d\x7bparam x: $s /\x7d" ++
      "\x7bparam y kind=\"text\"\x7d\x7b$t\x7d\x7b/param\x7d\x7b/call\x7d" ++
      "\x7bmsg desc=\"\"\x7dsee <a href=\"\x7b$s\x7d\">it</a>\x7bfallbackmsg desc=\"\"\x7d" ++
      "\x7bplural $r.k\x7d\x7bcase 1\x7d\x7b$s\x7d\x7bdefault\x7d\x7b1\x7d\x7b/plural\x7d\x7b/msg\x7d" ++
      "\x7bmsg desc=\"\"\x7d\x7bselect $s\x7d\x7bdefault\x7d\x7b$r.k\x7d\x7b/select\x7d\x7b/msg\x7d" ++
      "\n\x7b/template\x7d\n" }

theorem resolveTypes_of_parse_typedPlaces : ∃ set, (Compiler.parse {} [typedPlaces]).1 = .ok set ∧
    (set.resolveTypes.templates.flatMap fun t =>
      (Tree.preorderAll t.body).flatMap fun n => n.content.exprs.map (·.ty)) =
      [some .string, some .int, some (.record [("k", .int)]), some .string, some .unknown,
        some .string, some .int, some .string, some .int, some .string, some .int] ∧
    (∀ t ∈ set.resolveTypes.templates, ∀ n ∈ Tree.preorderAll t.body, ∀ e ∈ n.content.exprs,
      e.ty = some (e.infer t.info.params)) ∧
      set.resolveTypes.untyped = set.untyped ∧
      set.resolveTypes.resolveTypes = set.resolveTypes := by
  have hcheck : (Compiler.parse {} [typedPlaces]).1.toOption.any fun set =>
      (set.resolveTypes.templates.flatMap fun t =>
        (Tree.preorderAll t.body).flatMap fun n => n.content.exprs.map (·.ty)) =
        [some .string, some .int, some (.record [("k", .int)]), some .string, some .unknown,
          some .string, some .int, some .string, some .int, some .string, some .int] := by
    -- the characters are spelled out, as it takes long to compute them from the string
    have hread := Compiler.readSource_of_toList typedPlaces (by
      simp only [typedPlaces, String.toList_append, String.reduceToList]
      rfl)
    rw [Compiler.parse_eq, List.mapM_cons, List.mapM_nil, hread]
    decide +kernel
  obtain ⟨set, hparse, htypes⟩ := any_toOption.1 hcheck
  exact ⟨set, hparse, of_decide_eq_true htypes, resolveTypes_of_parse hparse⟩

end FileSet

end Stencil
