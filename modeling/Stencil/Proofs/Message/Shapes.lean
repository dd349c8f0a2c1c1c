/-
  Stencil/Proofs/Message/Shapes.lean
  ==================================
  **An insertion keeps the shape of bodies**, whatever the bundle and the mode, and
  also where it fails (`shapedBody_insertMsgs`).

  What replaces a group is statements of the shape of a body, and where a group is
  left or the insertion stops, a node keeps its content.
-/
import Stencil.Proofs.Message.Remaining

namespace Stencil

open Stencil.Tree (Shaped ShapedBody)

namespace Message.Insertion

variable (ins : Insertion)

theorem shapedBody_replacement {group : Node} (h : Shaped group) {progress : Progress}
    {ns : List Node} (hns : (ins.replacement progress group).1 = .ok (some ns)) : ShapedBody ns := by
  by_cases hchoice : hasChoice group
  · rcases ins.replacement_of_hasChoice hchoice progress with ⟨e, -, heq⟩ | ⟨-, heq⟩
    · rw [heq] at hns
      cases hns
    · rw [heq] at hns
      cases hns
  · obtain ⟨-, -, hstands⟩ := ins.replacement_of_not_hasChoice h hchoice progress
    intro s hs
    have hs := hstands ns hns s hs
    exact ⟨hs.shaped, isStatement_of_isInline hs.inline⟩

/-- A visit of insides keeps shapes and contents. -/
def KeepsShape (inside : Progress → Node → Visit Node) : Prop :=
  ∀ progress n, Shaped n →
    Shaped (inside progress n).result ∧ (inside progress n).result.content = n.content

section Visits

variable {inside : Progress → Node → Visit Node} (hinside : KeepsShape inside)
include hinside

theorem KeepsShape.shapedBody {n : Node} (h : Shaped n) (hstatement : n.content.isStatement)
    (progress : Progress) : Shaped (inside progress n).result ∧
      (inside progress n).result.content.isStatement := by
  obtain ⟨hshaped, hcontent⟩ := hinside progress n h
  exact ⟨hshaped, hcontent ▸ hstatement⟩

theorem shapedBody_visitEach (progress : Progress) {ns : List Node} (h : ShapedBody ns) :
    ShapedBody (visitEach inside progress ns).result := by
  induction ns generalizing progress with
  | nil => exact h
  | cons n rest ih =>
    obtain ⟨hn, hrest⟩ := List.forall_mem_cons.1 h
    have hfirst := hinside.shapedBody hn.1 hn.2 progress
    rw [visitEach]
    split
    · exact List.forall_mem_cons.2 ⟨hfirst, hrest⟩
    · exact List.forall_mem_cons.2 ⟨hfirst, ih _ hrest⟩

/-- The nodes that a visit of a node gives are shaped, and statements if it is one. -/
theorem shaped_visitStatement (owner : NodeId) (progress : Progress) {n : Node} (h : Shaped n) :
    ∀ k ∈ (ins.visitStatement inside owner progress n).result,
      Shaped k ∧ (n.content.isStatement → k.content.isStatement) := by
  have hstays : ∀ progress, ∀ k ∈ ((inside progress n).map ([·])).result,
      Shaped k ∧ (n.content.isStatement → k.content.isStatement) := by
    intro progress k hk
    obtain ⟨hshaped, hcontent⟩ := hinside progress n h
    rw [List.mem_singleton.1 hk]
    exact ⟨hshaped, fun hstatement => hcontent ▸ hstatement⟩
  have hleft : ∀ k ∈ [n], Shaped k ∧ (n.content.isStatement → k.content.isStatement) :=
    List.forall_mem_singleton.2 ⟨h, fun hstatement => hstatement⟩
  rw [visitStatement]
  split
  · rcases hreplacement : ins.replacement progress n with ⟨e | _ | nodes, progress'⟩
    · exact hleft
    · exact hstays progress'
    · have hnodes := ins.shapedBody_replacement h (congrArg Prod.fst hreplacement)
      have heach := shapedBody_visitEach hinside progress' hnodes
      dsimp only
      split
      · exact hleft
      · intro k hk
        obtain ⟨s, hs, rfl⟩ := List.mem_map.1 hk
        rw [Tree.content_withParent]
        exact ⟨shaped_withParent (heach s hs).1 _, fun _ => (heach s hs).2⟩
  · exact hstays progress

theorem shaped_visitBlock (owner : NodeId) (progress : Progress) {ns : List Node}
    (h : ∀ n ∈ ns, Shaped n) :
    (∀ k ∈ (ins.visitBlock inside owner progress ns).result, Shaped k) ∧
      ((∀ n ∈ ns, n.content.isStatement) →
        ∀ k ∈ (ins.visitBlock inside owner progress ns).result, k.content.isStatement) := by
  induction ns generalizing progress with
  | nil => exact ⟨h, fun hstatements => hstatements⟩
  | cons n rest ih =>
    obtain ⟨hn, hrest⟩ := List.forall_mem_cons.1 h
    have hfirst := ins.shaped_visitStatement hinside owner progress hn
    rw [visitBlock]
    split
    · refine ⟨List.forall_mem_append.2 ⟨fun k hk => (hfirst k hk).1, hrest⟩, fun hstatements => ?_⟩
      obtain ⟨hstatement, hstatements⟩ := List.forall_mem_cons.1 hstatements
      exact List.forall_mem_append.2 ⟨fun k hk => (hfirst k hk).2 hstatement, hstatements⟩
    · obtain ⟨hshaped, hkeeps⟩ :=
        ih (ins.visitStatement inside owner progress n).progress hrest
      refine ⟨List.forall_mem_append.2 ⟨fun k hk => (hfirst k hk).1, hshaped⟩, fun hstatements => ?_⟩
      obtain ⟨hstatement, hstatements⟩ := List.forall_mem_cons.1 hstatements
      exact List.forall_mem_append.2
        ⟨fun k hk => (hfirst k hk).2 hstatement, hkeeps hstatements⟩

end Visits

theorem keepsShape_visitInside (height : Nat) : KeepsShape (ins.visitInside height) := by
  induction height with
  | zero => exact fun _ n h => ⟨h, rfl⟩
  | succ height ih =>
    intro progress n h
    obtain ⟨hshaped, hstatements⟩ :=
      ins.shaped_visitBlock ih n.owner progress fun k hk => h.child hk
    refine ⟨Tree.each_iff.2 ⟨shapedAt_visitBlock h.root hstatements, fun k hk => ?_⟩,
      ins.content_visitInside _ progress n⟩
    rw [visitInside, Visit.map, Tree.children_withChildren] at hk
    exact hshaped k hk

/-! ### Templates and files -/

theorem shapedBody_visitTemplate (progress : Progress) {t : Template Mark}
    (h : ShapedBody t.body) : ShapedBody (ins.visitTemplate progress t).result.body := by
  obtain ⟨hshaped, hstatements⟩ :=
    ins.shaped_visitBlock (ins.keepsShape_visitInside (Tree.heightAll t.body)) t.mark.owner progress
      fun n hn => (h n hn).1
  exact fun n hn => ⟨hshaped n hn, hstatements (fun k hk => (h k hk).2) n hn⟩

theorem shapedBody_visitTemplates (progress : Progress) {ts : List (Template Mark)}
    (h : ∀ t ∈ ts, ShapedBody t.body) :
    ∀ t ∈ (ins.visitTemplates progress ts).result, ShapedBody t.body := by
  induction ts generalizing progress with
  | nil => exact h
  | cons t rest ih =>
    obtain ⟨ht, hrest⟩ := List.forall_mem_cons.1 h
    have hfirst := ins.shapedBody_visitTemplate progress ht
    rw [visitTemplates]
    split
    · exact List.forall_mem_cons.2 ⟨hfirst, hrest⟩
    · exact List.forall_mem_cons.2 ⟨hfirst, ih _ hrest⟩

theorem shapedBody_visitFiles (progress : Progress) {files : List (SourceFile Mark)}
    (h : ∀ file ∈ files, ∀ t ∈ file.templates, ShapedBody t.body) :
    ∀ file ∈ (ins.visitFiles progress files).result, ∀ t ∈ file.templates, ShapedBody t.body := by
  induction files generalizing progress with
  | nil => exact h
  | cons file rest ih =>
    obtain ⟨hfile, hrest⟩ := List.forall_mem_cons.1 h
    have hfirst := ins.shapedBody_visitTemplates progress hfile
    rw [visitFiles]
    split
    · exact List.forall_mem_cons.2 ⟨hfirst, hrest⟩
    · exact List.forall_mem_cons.2 ⟨hfirst, ih _ hrest⟩

end Message.Insertion

/-- **Shapes stay.**  After an insertion the bodies have the shape of bodies, also
    if it failed. -/
theorem FileSet.shapedBody_insertMsgs {set : FileSet} (h : ∀ t ∈ set.templates, ShapedBody t.body)
    (ins : Message.Insertion) : ∀ t ∈ (set.insertMsgs ins).2.templates, ShapedBody t.body := by
  have hfiles := ins.shapedBody_visitFiles { next := set.next }
    fun file hfile t ht => h t (List.mem_flatMap.2 ⟨file, hfile, ht⟩)
  intro t ht
  obtain ⟨file, hfile, ht⟩ := List.mem_flatMap.1 ht
  refine hfiles file ?_ t ht
  rw [insertMsgs] at hfile
  split at hfile <;> exact hfile

end Stencil
