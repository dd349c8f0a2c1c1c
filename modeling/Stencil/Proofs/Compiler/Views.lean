/-
  Stencil/Proofs/Compiler/Views.lean
  ==================================
  **What templates look like without identities.**

  A view of a template says what it declares, what its body is made of and where
  it stands.  The views of a file set's templates are those of its drafts, file
  by file, so files in another order give the same views in another order
  (`perm_views_place`), with other identities behind them.
-/
import Stencil.Check.TemplateIndex
import Stencil.Proofs.Compiler.Typing
import Stencil.Proofs.Tree.View

namespace Stencil

variable {α β : Type}

namespace Template

/-- The template with `f` applied to every mark, and without identities. -/
def view (f : α → β) (t : Template α) : Template β :=
  { mark := f t.mark, info := t.info, body := t.body.map (Tree.view f) }

theorem view_resolveTypes (f : α → β) {t : Template α} (h : Tree.ShapedBody t.body) :
    t.resolveTypes.view f = (t.view f).resolveTypes := by
  have hview : Tree.ShapedBody (t.view f).body := (Tree.shapedBody_map_view f t.body).2 h
  rw [resolveTypes_eq h, resolveTypes_eq hview]
  exact congrArg (fun body => { mark := f t.mark, info := t.info, body : Template β })
    (Tree.map_view_mapContent f (Content.bare_mapExpr _) t.body)

theorem view_place (path : String) (parent next : NodeId) (t : Template Nat) :
    (place path parent next t).1.view Mark.loc = t.view (Location.ofFile path).atLine := by
  rw [place, view, view, Tree.map_view_placed]

theorem map_view_placeAll (path : String) (parent next : NodeId) (drafts : List (Template Nat)) :
    (placeAll path parent next drafts).1.map (view Mark.loc) =
      drafts.map (view (Location.ofFile path).atLine) := by
  induction drafts generalizing next with
  | nil => rfl
  | cons t rest ih => rw [placeAll, List.map_cons, List.map_cons, view_place, ih]

end Template

/-- The views of a draft's templates, by the places of their lines. -/
def SourceFile.draftViews (file : SourceFile Nat) : List (Template Location) :=
  file.templates.map (Template.view (Location.ofFile file.info.path).atLine)

namespace FileSet

/-- The views of a file set's templates, by their places. -/
def views (set : FileSet) : List (Template Location) :=
  set.templates.map (Template.view Mark.loc)

theorem views_resolveTypes {set : FileSet} (h : ∀ t ∈ set.templates, Tree.ShapedBody t.body) :
    set.resolveTypes.views = set.views.map Template.resolveTypes := by
  rw [views, templates_resolveTypes, List.map_map, views, List.map_map]
  exact List.map_congr_left fun t ht => Template.view_resolveTypes Mark.loc (h t ht)

theorem views_place (drafts : List (SourceFile Nat)) :
    (place drafts).views = drafts.flatMap SourceFile.draftViews := by
  have hfiles : ∀ next, (SourceFile.placeAll next drafts).1.flatMap
      (fun file => file.templates.map (Template.view Mark.loc)) =
        drafts.flatMap SourceFile.draftViews := by
    induction drafts with
    | nil => exact fun _ => rfl
    | cons file rest ih =>
      intro next
      rw [SourceFile.placeAll, List.flatMap_cons, List.flatMap_cons, ih, SourceFile.place,
        Template.map_view_placeAll, SourceFile.draftViews]
  rw [← hfiles 0, views, templates, List.map_flatMap, place, List.flatMap_map]

/-- Drafts in another order have the same views in another order. -/
theorem perm_views_place {drafts drafts' : List (SourceFile Nat)} (h : drafts.Perm drafts') :
    (place drafts).views.Perm (place drafts').views := by
  rw [views_place, views_place]
  exact h.flatMap_right _

end FileSet

end Stencil
