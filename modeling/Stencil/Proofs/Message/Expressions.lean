/-
  Stencil/Proofs/Message/Expressions.lean
  =======================================
  **An insertion does not look at expressions.**

  The identity of a message, the names of its placeholders and the statements that
  it is replaced by do not depend on what its expressions are.  So when `f` is
  applied to all expressions of a template, an insertion gives what it gave before
  with `f` applied, under the same identities (`visitTemplate_mapExprs`).
-/
import Stencil.Proofs.Compiler.Typing
import Stencil.Proofs.Message.Bare

namespace Stencil

/-! ### Contents and trees -/

namespace Content

variable (f : Expr → Expr) (content : Content)

theorem isMsgGroup_mapExpr : (content.mapExpr f).isMsgGroup = content.isMsgGroup := by
  cases content with
  | call target data => cases data <;> rfl
  | _ => rfl

theorem isChoice_mapExpr : (content.mapExpr f).isChoice = content.isChoice := by
  cases content with
  | call target data => cases data <;> rfl
  | _ => rfl

end Content

namespace Tree

variable {α : Type} (f : Expr → Expr)

@[simp] theorem mapExprs_leaf_rawText (mark : α) (text : String) :
    (leaf mark (.rawText text)).mapExprs f = leaf mark (.rawText text) := mapExprs_node f ..

theorem withChildren_mapExprs (t : Tree α) (children : List (Tree α)) :
    (t.mapExprs f).withChildren (children.map (mapExprs f)) =
      (t.withChildren children).mapExprs f := by
  obtain ⟨mark, content, _⟩ := t
  rw [mapExprs_node, withChildren, withChildren, mapExprs_node]

theorem withParent_mapExprs (n : Node) (parent : Option NodeId) :
    (n.mapExprs f).withParent parent = (n.withParent parent).mapExprs f := by
  obtain ⟨mark, content, children⟩ := n
  rw [mapExprs_node, withParent, withParent, mapExprs_node]

mutual

theorem height_mapExprs : (t : Tree α) → (t.mapExprs f).height = t.height
  | node mark content children => by
    rw [mapExprs_node, height, height, heightAll_map_mapExprs children]

theorem heightAll_map_mapExprs : (ts : List (Tree α)) →
    heightAll (ts.map (mapExprs f)) = heightAll ts
  | [] => rfl
  | t :: rest => by
    rw [List.map_cons, heightAll, heightAll, height_mapExprs t, heightAll_map_mapExprs rest]

end

mutual

theorem renumber_mapExprs (parent : Option NodeId) (next : NodeId) : (n : Node) →
    renumber parent next (n.mapExprs f) =
      ((renumber parent next n).1.mapExprs f, (renumber parent next n).2)
  | node mark content children => by
    rw [mapExprs_node, renumber, renumber, renumberAll_map_mapExprs (some next) (next + 1) children,
      mapExprs_node]

theorem renumberAll_map_mapExprs (parent : Option NodeId) (next : NodeId) : (ns : List Node) →
    renumberAll parent next (ns.map (mapExprs f)) =
      ((renumberAll parent next ns).1.map (mapExprs f), (renumberAll parent next ns).2)
  | [] => rfl
  | n :: rest => by
    have hrest := renumberAll_map_mapExprs parent (renumber parent next n).2 rest
    rw [List.map_cons, renumberAll, renumberAll, renumber_mapExprs parent next n]
    dsimp only
    rw [hrest, List.map_cons]

end

theorem copy_mapExprs (next : NodeId) (n : Node) :
    (n.mapExprs f).copy next = ((n.copy next).1.mapExprs f, (n.copy next).2) := by
  rw [copy, parent, mark_mapExprs]
  exact renumber_mapExprs f _ next n

end Tree

/-- The error with `f` applied to the expressions of the message that it carries. -/
def InsertionError.mapExprs (f : Expr → Expr) : InsertionError → InsertionError
  | choiceMsg msg loc => choiceMsg (msg.mapExprs f) loc
  | unknownPlaceholder id name loc => unknownPlaceholder id name loc

namespace Message

variable {α : Type} (f : Expr → Expr)

/-! ### Identities and placeholders -/

mutual

theorem canonicalPart_mapExprs : (t : Tree α) → canonicalPart (t.mapExprs f) = canonicalPart t
  | .node mark content children => by
    have hchildren := canonicalBody_map_mapExprs children
    rw [Tree.mapExprs_node]
    cases content with
    | call target data => cases data <;> rfl
    | plural | select | case => simp only [Content.mapExpr, canonicalPart, hchildren]
    | _ => rfl

theorem canonicalBody_map_mapExprs : (ts : List (Tree α)) →
    canonicalBody (ts.map (Tree.mapExprs f)) = canonicalBody ts
  | [] => rfl
  | t :: rest => by
    rw [List.map_cons, canonicalBody, canonicalBody, canonicalPart_mapExprs t,
      canonicalBody_map_mapExprs rest]

end

theorem fingerprint_mapExprs (msg : Tree α) : fingerprint (msg.mapExprs f) = fingerprint msg := by
  have hmeaning : meaning? (msg.mapExprs f) = meaning? msg := by
    rw [meaning?, meaning?, Tree.content_mapExprs]
    cases msg.content with
    | call target data => cases data <;> rfl
    | _ => rfl
  rw [fingerprint, canonical, Tree.children_mapExprs, canonicalBody_map_mapExprs, hmeaning]
  rfl

theorem isChoiceBody_map_mapExprs (body : List (Tree α)) :
    isChoiceBody (body.map (Tree.mapExprs f)) = isChoiceBody body := by
  match body with
  | [] | _ :: _ :: _ => rfl
  | [part] =>
    rw [List.map_singleton, isChoiceBody, isChoiceBody, Tree.content_mapExprs,
      Content.isChoice_mapExpr]

theorem placeholderName?_mapExprs (part : Tree α) :
    placeholderName? (part.mapExprs f) = placeholderName? part := by
  rw [placeholderName?, placeholderName?, Tree.content_mapExprs]
  cases part.content with
  | call target data => cases data <;> rfl
  | _ => rfl

mutual

theorem partPlaceholders_mapExprs : (t : Tree α) →
    partPlaceholders (t.mapExprs f) = (partPlaceholders t).map (Tree.mapExprs f)
  | .node mark content children => by
    have hchildren := placeholders_map_mapExprs children
    rw [Tree.mapExprs_node]
    cases content with
    | call target data => cases data <;> rfl
    | placeholder name key =>
      simp only [Content.mapExpr, partPlaceholders, List.map_singleton, Tree.mapExprs_node]
    | plural | select | case => simp only [Content.mapExpr, partPlaceholders, hchildren]
    | _ => rfl

theorem placeholders_map_mapExprs : (ts : List (Tree α)) →
    placeholders (ts.map (Tree.mapExprs f)) = (placeholders ts).map (Tree.mapExprs f)
  | [] => rfl
  | t :: rest => by
    rw [List.map_cons, placeholders, placeholders, List.map_append, partPlaceholders_mapExprs t,
      placeholders_map_mapExprs rest]

end

theorem placeholder?_map_mapExprs (body : List (Tree α)) (name : String) :
    placeholder? (body.map (Tree.mapExprs f)) name =
      (placeholder? body name).map (Tree.mapExprs f) := by
  rw [placeholder?_eq_find?, placeholders_map_mapExprs, List.find?_map, placeholder?_eq_find?]
  have hname : (fun part => placeholderName? part == some name) ∘ Tree.mapExprs f =
      fun part : Tree α => placeholderName? part == some name :=
    funext fun part => by rw [Function.comp_apply, placeholderName?_mapExprs]
  rw [hname]

theorem translation?_map_mapExprs (bundle : Bundle) (msgs : List Node) :
    translation? bundle (msgs.map (Tree.mapExprs f)) =
      (translation? bundle msgs).map fun found => (found.1.mapExprs f, found.2) := by
  rw [translation?, translation?]
  induction msgs with
  | nil => rfl
  | cons msg rest ih =>
    rw [List.map_cons, List.findSome?_cons, List.findSome?_cons, fingerprint_mapExprs]
    cases bundle.get? (fingerprint msg) with
    | none => exact ih
    | some t => rfl

/-! ### Statements of messages -/

mutual

theorem flatten_mapExprs : (n : Node) →
    flatten (n.mapExprs f) = (flatten n).map (Tree.mapExprs f)
  | .node mark content children => by
    have hchildren := flattenAll_map_mapExprs children
    rw [Tree.mapExprs_node]
    cases content with
    | htmlTag name isEnd selfEnding => simp only [Content.mapExpr, flatten, hchildren]
    | call target data =>
      cases data <;>
        simp only [Content.mapExpr, flatten, List.map_singleton, Tree.mapExprs_node]
    | _ => simp only [Content.mapExpr, flatten, List.map_singleton, Tree.mapExprs_node]

theorem flattenAll_map_mapExprs : (ns : List Node) →
    flattenAll (ns.map (Tree.mapExprs f)) = (flattenAll ns).map (Tree.mapExprs f)
  | [] => rfl
  | n :: rest => by
    rw [List.map_cons, flattenAll, flattenAll, List.map_append, flatten_mapExprs n,
      flattenAll_map_mapExprs rest]

end

theorem partStatements_mapExprs (part : Node) :
    partStatements (part.mapExprs f) = (partStatements part).map (Tree.mapExprs f) := by
  rw [partStatements, partStatements, Tree.content_mapExprs]
  cases part.content with
  | call target data => cases data <;> rfl
  | msgText text =>
    rw [List.map_singleton, Tree.mapExprs_leaf_rawText, Tree.mark_mapExprs]
    rfl
  | placeholder name key =>
    rw [Tree.children_mapExprs]
    exact flattenAll_map_mapExprs f part.children
  | _ => rfl

theorem sourceStatements_mapExprs (msg : Node) :
    sourceStatements (msg.mapExprs f) = (sourceStatements msg).map (Tree.mapExprs f) := by
  rw [sourceStatements_eq, sourceStatements_eq, Tree.children_mapExprs, List.flatMap_map,
    List.map_flatMap]
  exact List.flatMap_congr fun part _ => partStatements_mapExprs f part

theorem copyAll_map_mapExprs (next : NodeId) (ns : List Node) :
    copyAll next (ns.map (Tree.mapExprs f)) =
      ((copyAll next ns).1.map (Tree.mapExprs f), (copyAll next ns).2) := by
  induction ns generalizing next with
  | nil => rfl
  | cons n rest ih =>
    rw [List.map_cons, copyAll, copyAll, Tree.copy_mapExprs]
    dsimp only
    rw [ih, List.map_cons]

theorem placeholderStatements_mapExprs (used : Bool) (next : NodeId) (p : Node) :
    placeholderStatements used next (p.mapExprs f) =
      ((placeholderStatements used next p).1.map (Tree.mapExprs f),
        (placeholderStatements used next p).2) := by
  rw [placeholderStatements, placeholderStatements, Tree.children_mapExprs, flattenAll_map_mapExprs]
  cases used with
  | true => exact copyAll_map_mapExprs f next _
  | false => rfl

/-- Statements or an error, with `f` applied to their expressions. -/
def mapOutcome {β γ : Type} (g : β → γ) (outcome : Except InsertionError β) :
    Except InsertionError γ := (outcome.map g).mapError (InsertionError.mapExprs f)

theorem translatedStatements_mapExprs (msg : Node) (id : MsgId) (used : List String)
    (next : NodeId) (parts : List TranslationPart) :
    translatedStatements (msg.mapExprs f) id used next parts =
      (mapOutcome f (List.map (Tree.mapExprs f)) (translatedStatements msg id used next parts).1,
        (translatedStatements msg id used next parts).2) := by
  have hloc : (msg.mapExprs f).loc = msg.loc := congrArg Mark.loc (Tree.mark_mapExprs f msg)
  induction parts generalizing used next with
  | nil => rfl
  | cons part rest ih =>
    cases part with
    | text text =>
      rw [translatedStatements, translatedStatements, ih, hloc]
      rcases translatedStatements msg id used (next + 1) rest with ⟨e | statements, free⟩
      · rfl
      · rfl
    | placeholder name =>
      rw [translatedStatements, translatedStatements, Tree.children_mapExprs,
        placeholder?_map_mapExprs, hloc]
      cases placeholder? msg.children name with
      | none => rfl
      | some p =>
        dsimp only [Option.map_some]
        rw [placeholderStatements_mapExprs]
        rcases placeholderStatements (used.contains name) next p with ⟨nodes, mid⟩
        dsimp only
        rw [ih]
        rcases translatedStatements msg id (name :: used) mid rest with ⟨e | statements, free⟩
        · rfl
        · exact Prod.ext (congrArg Except.ok List.map_append.symm) rfl

/-! ### Visits -/

/-- The visit with `g` applied to its result, and `f` to the expressions that its
    error carries. -/
def Visit.mapExprs {β γ : Type} (f : Expr → Expr) (g : β → γ) (v : Visit β) : Visit γ :=
  { result := g v.result, progress := v.progress, error := v.error.map (InsertionError.mapExprs f) }

namespace Insertion

variable (ins : Insertion)

theorem replacement_mapExprs (progress : Progress) (group : Node) :
    ins.replacement progress (group.mapExprs f) =
      (mapOutcome f (Option.map (List.map (Tree.mapExprs f))) (ins.replacement progress group).1,
        (ins.replacement progress group).2) := by
  have hchoice : (fun msg : Node => isChoiceBody msg.children) ∘ Tree.mapExprs f =
      fun msg : Node => isChoiceBody msg.children :=
    funext fun msg => by
      rw [Function.comp_apply, Tree.children_mapExprs, isChoiceBody_map_mapExprs]
  rw [replacement, replacement, Tree.children_mapExprs, List.find?_map, hchoice]
  cases group.children.find? fun msg => isChoiceBody msg.children with
  | some msg =>
    have hloc : (msg.mapExprs f).loc = msg.loc := congrArg Mark.loc (Tree.mark_mapExprs f msg)
    have hid : (group.mapExprs f).id = group.id := congrArg Mark.id (Tree.mark_mapExprs f group)
    cases ins.mode with
    | strict =>
      dsimp only [Option.map_some]
      rw [hloc]
      rfl
    | tolerant =>
      dsimp only [Option.map_some]
      rw [hid]
      rfl
  | none =>
    have htranslation : (ins.bundle.bind fun bundle =>
        translation? bundle (group.children.map (Tree.mapExprs f))) =
          (ins.bundle.bind fun bundle => translation? bundle group.children).map
            fun found => (found.1.mapExprs f, found.2) := by
      cases ins.bundle with
      | none => rfl
      | some bundle => exact translation?_map_mapExprs f bundle group.children
    rw [htranslation]
    cases ins.bundle.bind fun bundle => translation? bundle group.children with
    | some found =>
      dsimp only [Option.map_some, Option.map_none]
      rw [translatedStatements_mapExprs]
      rcases translatedStatements found.1 found.2.id [] progress.next found.2.parts with
        ⟨e | statements, free⟩
      · rfl
      · rfl
    | none =>
      cases group.children with
      | nil => rfl
      | cons primary rest =>
        exact Prod.ext (congrArg (fun ns => Except.ok (some ns)) (sourceStatements_mapExprs f primary))
          rfl

/-- A visit of insides commutes with `f`. -/
def Commutes (inside : Progress → Node → Visit Node) : Prop :=
  ∀ progress n, inside progress (n.mapExprs f) = (inside progress n).mapExprs f (Tree.mapExprs f)

section Visits

variable {f} {inside : Progress → Node → Visit Node} (hinside : Commutes f inside)
include hinside

theorem visitEach_map_mapExprs (progress : Progress) (ns : List Node) :
    visitEach inside progress (ns.map (Tree.mapExprs f)) =
      (visitEach inside progress ns).mapExprs f (List.map (Tree.mapExprs f)) := by
  induction ns generalizing progress with
  | nil => rfl
  | cons n rest ih =>
    rw [List.map_cons, visitEach, visitEach, hinside]
    rcases inside progress n with ⟨result, progress', error⟩
    cases error with
    | some e => rfl
    | none => exact congrArg (Visit.map (result.mapExprs f :: ·)) (ih progress')

theorem visitStatement_mapExprs (owner : NodeId) (progress : Progress) (n : Node) :
    ins.visitStatement inside owner progress (n.mapExprs f) =
      (ins.visitStatement inside owner progress n).mapExprs f (List.map (Tree.mapExprs f)) := by
  have hstays : ∀ progress, (inside progress (n.mapExprs f)).map ([·]) =
      ((inside progress n).map ([·])).mapExprs f (List.map (Tree.mapExprs f)) :=
    fun progress => congrArg (Visit.map ([·])) (hinside progress n)
  rw [visitStatement, visitStatement, Tree.content_mapExprs, Content.isMsgGroup_mapExpr]
  split
  · rw [replacement_mapExprs]
    rcases ins.replacement progress n with ⟨e | _ | nodes, progress'⟩
    · rfl
    · exact hstays progress'
    · have heach := visitEach_map_mapExprs hinside progress' nodes
      have hmapped : mapOutcome f (Option.map (List.map (Tree.mapExprs f))) (.ok (some nodes)) =
          .ok (some (nodes.map (Tree.mapExprs f))) := rfl
      rw [hmapped]
      dsimp only
      rw [heach]
      rcases visitEach inside progress' nodes with ⟨result, progress'', error⟩
      cases error with
      | some e => rfl
      | none =>
        have hadopt : ChildList.adopt owner (result.map (Tree.mapExprs f)) =
            (ChildList.adopt owner result).map (Tree.mapExprs f) := by
          rw [ChildList.adopt, ChildList.adopt, List.map_map, List.map_map]
          exact List.map_congr_left fun s _ => Tree.withParent_mapExprs f s (some owner)
        exact congrArg (fun nodes => (⟨nodes, _, none⟩ : Visit (List Node))) hadopt
  · exact hstays progress

theorem visitBlock_map_mapExprs (owner : NodeId) (progress : Progress) (ns : List Node) :
    ins.visitBlock inside owner progress (ns.map (Tree.mapExprs f)) =
      (ins.visitBlock inside owner progress ns).mapExprs f (List.map (Tree.mapExprs f)) := by
  induction ns generalizing progress with
  | nil => rfl
  | cons n rest ih =>
    rw [List.map_cons, visitBlock, visitBlock, ins.visitStatement_mapExprs hinside]
    rcases ins.visitStatement inside owner progress n with ⟨result, progress', error⟩
    cases error with
    | some e => exact congrArg (fun nodes => (⟨nodes, _, _⟩ : Visit (List Node))) List.map_append.symm
    | none =>
      have hrest := congrArg (Visit.map (result.map (Tree.mapExprs f) ++ ·)) (ih progress')
      refine hrest.trans ?_
      exact congrArg (fun nodes => (⟨nodes, _, _⟩ : Visit (List Node))) List.map_append.symm

end Visits

theorem commutes_visitInside (height : Nat) : Commutes f (ins.visitInside height) := by
  induction height with
  | zero => exact fun _ _ => rfl
  | succ height ih =>
    intro progress n
    have howner : (n.mapExprs f).owner = n.owner := congrArg Mark.owner (Tree.mark_mapExprs f n)
    rw [visitInside, visitInside, Tree.children_mapExprs, howner, ins.visitBlock_map_mapExprs ih]
    exact congrArg (fun n => (⟨n, _, _⟩ : Visit Node)) (Tree.withChildren_mapExprs f n _)

/-- **Expressions do not matter.**  A visit of a template with `f` applied to its
    expressions gives what a visit of the template gives, with `f` applied. -/
theorem visitTemplate_mapExprs (progress : Progress) (t : Template Mark) :
    ins.visitTemplate progress (t.mapExprs f) =
      (ins.visitTemplate progress t).mapExprs f (Template.mapExprs f) := by
  have hheight : Tree.heightAll (t.mapExprs f).body = Tree.heightAll t.body :=
    Tree.heightAll_map_mapExprs f t.body
  have hblock := ins.visitBlock_map_mapExprs (ins.commutes_visitInside f (Tree.heightAll t.body))
    t.mark.owner progress t.body
  rw [visitTemplate, hheight]
  exact congrArg (Visit.map fun body => { t with body }) hblock

end Insertion

end Message

end Stencil
