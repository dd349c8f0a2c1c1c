/-
  Stencil/Proofs/Compiler/Reached.lean
  ====================================
  **File sets that a compiler comes by**, and the walks through them.

  Such a file set is read, and then its types are resolved and translations are
  inserted in it, in any order and any number of times, also by insertions that
  fail.  It is well-formed and its bodies have their shape, so a walk through a body
  comes by every statement there is, once and in preorder, and so does a revision
  (`walked_of_reached`).
-/
import Stencil.Proofs.Compiler.Typing
import Stencil.Proofs.Message.Shapes
import Stencil.Proofs.Message.WellFormed
import Stencil.Proofs.Tree.Visits

namespace Stencil

open Stencil.Tree (ShapedBody idsAll)

/-! ### Walks through bodies -/

/-- A walk through a body comes by all statements of the body, each once and in
    preorder.  The calls are those among them.  A revision, whatever its visits do
    apart from changing child blocks, does it for the same statements in the same
    order. -/
structure Tree.Walked (body : List Node) : Prop where
  inPreorder : walkBlock body = (preorderAll body).filter (·.content.isStatement)
  once : ∀ n ∈ preorderAll body, n.content.isStatement → (walkBlock body).count n = 1
  ids_nodup : ((walkBlock body).map id).Nodup
  calls : calls body = (walkBlock body).filter (·.content.isCall) ∧
    calls body = (preorderAll body).filter (·.content.isCall)
  revised : ∀ {m : Type → Type} [Monad m] [LawfulMonad m]
    (visit : (n : Node) → m { s : Node // s.childBlocks = n.childBlocks }),
      discard (reviseM (fun n => Subtype.val <$> visit n) (heightAll body) body) =
        forM (walkBlock body) fun n => discard (visit n)

/-- Bodies of their shape whose nodes have identities of their own are walked through
    as they should be. -/
theorem Tree.walked_of_shapedBody {body : List Node} (h : ShapedBody body)
    (hids : (idsAll body).Nodup) : Walked body := by
  have hshaped : ∀ n ∈ body, Shaped n := fun n hn => (h n hn).1
  have hstatement : ∀ n ∈ body, n.content.isStatement := fun n hn => (h n hn).2
  have hwalk := walkBlock_eq_statements hshaped hstatement
  have hnodup : ((walkBlock body).map id).Nodup := by
    rw [hwalk]
    exact hids.sublist (List.filter_sublist.map id)
  refine ⟨hwalk, fun n hn hstatement => ?_, hnodup, ⟨rfl, calls_eq hshaped hstatement⟩, ?_⟩
  · refine List.count_eq_one_of_mem (List.Nodup.of_map id hnodup) ?_
    rw [hwalk]
    exact List.mem_filter.2 ⟨hn, hstatement⟩
  · intro m _ _ visit
    exact discard_reviseM visit (Nat.le_refl _)

namespace FileSet

/-! ### What holds of all of them -/

/-- A file set that a compiler comes by. -/
inductive Reached : FileSet → Prop
  | read {c : Compiler} {sources : List Source} {set : FileSet}
      (hparse : (c.parse sources).1 = .ok set) : Reached set
  | resolve {set : FileSet} (h : Reached set) : Reached set.resolveTypes
  | insert {set : FileSet} (h : Reached set) (ins : Message.Insertion) :
      Reached (set.insertMsgs ins).2

variable {set : FileSet}

theorem Reached.shapedBody (h : set.Reached) : ∀ t ∈ set.templates, ShapedBody t.body := by
  induction h with
  | read hparse => exact shapedBody_of_parse hparse
  | resolve _ ih => exact shapedBody_of_mem_resolveTypes ih
  | insert _ ins ih => exact shapedBody_insertMsgs ih ins

theorem Reached.wellFormed (h : set.Reached) : set.WellFormed := by
  induction h with
  | read hparse => exact Compiler.wellFormed_of_parse hparse
  | resolve h ih => exact ih.resolveTypes h.shapedBody
  | insert _ ins ih => exact ih.insertMsgs ins

/-- The nodes of a body have identities of their own. -/
theorem WellFormed.nodup_idsAll (h : set.WellFormed) {t : Template Mark} (ht : t ∈ set.templates) :
    (idsAll t.body).Nodup := by
  obtain ⟨file, hfile, ht⟩ := List.mem_flatMap.1 ht
  have hbody : (idsAll t.body).Sublist t.ids := List.sublist_cons_self _ _
  have htemplate : t.ids.Sublist file.ids :=
    (List.sublist_flatten_of_mem (List.mem_map_of_mem ht)).cons _
  have hfile : file.ids.Sublist set.ids :=
    (List.sublist_flatten_of_mem (List.mem_map_of_mem hfile)).cons _
  exact h.ids_nodup.sublist ((hbody.trans htemplate).trans hfile)

/-- The messages of such a file set have bodies of messages, as the search for their
    placeholders expects. -/
theorem Reached.isMsgBody (h : set.Reached) {t : Template Mark} (ht : t ∈ set.templates)
    {msg : Node} (hmsg : msg ∈ Tree.preorderAll t.body) (hcontent : Message.HasMsgBody msg.content) :
    Message.IsMsgBody msg.children := by
  obtain ⟨n, hn, hmsg⟩ := Tree.mem_preorderAll.1 hmsg
  exact Message.isMsgBody_children_of_shaped msg ((h.shapedBody t ht n hn).1.below hmsg) hcontent

/-- **Walks come by everything.**  Through the bodies of a file set that a compiler
    comes by, a walk goes in preorder and once to every statement, also to those in
    parameters, placeholders, tags and cases of all messages of a group; the calls are
    those on the way, and a revision goes the same way. -/
theorem walked_of_reached (h : set.Reached) : ∀ t ∈ set.templates, Tree.Walked t.body :=
  fun t ht => Tree.walked_of_shapedBody (h.shapedBody t ht) (h.wellFormed.nodup_idsAll ht)

/-- A message with a tag in a conditional, and one with a plural in its fallback, where
    a call is given a message. -/
def deepMessages : Source :=
  { path := "t.soy"
    text := "\x7bnamespace n\x7d\n\x7btemplate .t\x7d\n" ++
      "\x7bif $c\x7d\x7bmsg desc=\"\"\x7dsee <a href=\"\x7b$url\x7d\">it</a>\x7b/msg\x7d\x7b/if\x7d" ++
      "\x7bmsg desc=\"\"\x7dnone\x7bfallbackmsg desc=\"\"\x7d\x7bplural $n\x7d\x7bcase 1\x7d" ++
      "\x7bcall .u\x7d\x7bparam x kind=\"text\"\x7d\x7bmsg desc=\"\"\x7da \x7b$b\x7d\x7b/msg\x7d" ++
      "\x7b/param\x7d\x7b/call\x7d\x7bdefault\x7d\x7b$n\x7d\x7b/plural\x7d\x7b/msg\x7d\n" ++
      "\x7b/template\x7d\n" }

/-- The file set after its types were resolved and its messages replaced; the group
    with the plural is left. -/
def inlined (set : FileSet) : FileSet :=
  (set.resolveTypes.insertMsgs { bundle := none, mode := .tolerant }).2

/-- The walk before the messages are replaced, the walk afterwards, and what a revision
    notes down then. -/
theorem walked_of_reached_deepMessages : ∃ set, (Compiler.parse {} [deepMessages]).1 = .ok set ∧
    (set.templates.map fun t => (Tree.walkBlock t.body).map Tree.id) =
      [[2, 4, 10, 8, 6, 9, 14, 13, 16, 22, 24, 26, 31]] ∧
    (∀ t ∈ set.templates, Tree.Walked t.body) ∧
    ((inlined set).templates.map fun t => (Tree.walkBlock t.body).map Tree.id) =
      [[2, 7, 8, 6, 9, 12, 13, 16, 22, 27, 26, 31]] ∧
    ((inlined set).templates.map fun t =>
      ((Tree.reviseM (fun n => Subtype.val <$> Tree.noting (Expr.resolve []) n)
        (Tree.heightAll t.body) t.body).run []).2.map Tree.id) =
      [[2, 7, 8, 6, 9, 12, 13, 16, 22, 27, 26, 31]] ∧
    ∀ t ∈ (inlined set).templates, Tree.Walked t.body := by
  have hcheck : (Compiler.parse {} [deepMessages]).1.toOption.any fun set =>
      (set.templates.map fun t => (Tree.walkBlock t.body).map Tree.id) =
        [[2, 4, 10, 8, 6, 9, 14, 13, 16, 22, 24, 26, 31]] ∧
      ((inlined set).templates.map fun t => (Tree.walkBlock t.body).map Tree.id) =
        [[2, 7, 8, 6, 9, 12, 13, 16, 22, 27, 26, 31]] := by
    decide +kernel
  obtain ⟨set, hparse, hset⟩ := any_toOption.1 hcheck
  obtain ⟨hbefore, hafter⟩ := of_decide_eq_true hset
  refine ⟨set, hparse, hbefore, walked_of_reached (.read hparse), hafter, ?_,
    walked_of_reached (.insert (.resolve (.read hparse)) _)⟩
  simp only [Tree.noted_reviseM]
  exact hafter

end FileSet

end Stencil
