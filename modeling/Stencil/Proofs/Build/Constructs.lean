/-
  Stencil/Proofs/Build/Constructs.lean
  ====================================
  **What is open is a placed draft that grows.**

  A construct that is open got its identity when it was opened, and what is read in
  it comes after.  So at every moment it is the placed draft of what is read so far,
  up to the next free identity, and closing it is placing the closed draft.
-/
import Stencil.Build.Body
import Stencil.Proofs.Body.Grammar
import Stencil.Proofs.Body.Prints
import Stencil.Proofs.Build.Message

namespace Stencil.Build

open Stencil.Tree (place placeAll placeParts placeBack sizeAll wrappedAll wrappingAll)
open Body (Cause Keyword Outcome Placed atLine)

variable (loc : Nat → Location) (start : Nat)

/-! ### Conditionals and calls -/

namespace OpenIf

/-- The identity of the branch that is read. -/
def branchId (o : Body.OpenIf) : Nat := start + 1 + sizeAll o.branches

/-- The next free identity. -/
def free (o : Body.OpenIf) : Nat := branchId start o + 1 + sizeAll o.body

/-- The conditional with placed branches and statements. -/
def place (o : Body.OpenIf) : OpenIf :=
  { line := o.line
    node := .place loc none start (.node o.line .conditional o.branches.reverse)
    branch := .new (branchId start o) (loc o.branchLine) (.branch o.condition)
    body := placeBack loc none (branchId start o + 1) o.body }

theorem close_place (o : Body.OpenIf) :
    (place loc start o).close = .place loc none start o.close := by
  have hbranch : (Tree.new (branchId start o) (loc o.branchLine) (.branch o.condition)).pushAll
        (placeBack loc none (branchId start o + 1) o.body).reverse =
      .place loc none (branchId start o)
        (.node o.branchLine (.branch o.condition) o.body.reverse) := by
    rw [Tree.reverse_placeBack, Tree.pushAll_new _ _ _ _ rfl]
  rw [close, place]
  dsimp only
  rw [hbranch, branchId, Tree.push_place _ _ _ _ rfl]
  rfl

theorem size_close (o : Body.OpenIf) : start + o.close.size = free start o := by
  change start + (sizeAll (_ :: o.branches).reverse + 1) = _
  rw [Tree.sizeAll_reverse, sizeAll, Tree.size, Tree.sizeAll_reverse, free, branchId]
  omega

theorem branchId_nextBranch (o : Body.OpenIf) (line : Nat) (condition : Option Expr) :
    branchId start (o.nextBranch line condition) = free start o := by
  change start + 1 + sizeAll (_ :: o.branches) = _
  rw [sizeAll, Tree.size, Tree.sizeAll_reverse, free, branchId]
  omega

theorem nextBranch_place (o : Body.OpenIf) (line : Nat) (condition : Option Expr) :
    (place loc start o).nextBranch loc (free start o) line condition =
      place loc start (o.nextBranch line condition) := by
  rw [nextBranch, close_place, ← branchId_nextBranch start o line condition]
  rfl

end OpenIf

namespace OpenCall

/-- The next free identity. -/
def free (o : Body.OpenCall) : Nat := start + 1 + sizeAll o.params

/-- The call with placed parameters. -/
def place (o : Body.OpenCall) : OpenCall :=
  { line := o.line, command := o.command, node := .place loc none start o.close }

theorem size_close (o : Body.OpenCall) : start + o.close.size = free start o := by
  change start + (sizeAll o.params.reverse + 1) = _
  rw [Tree.sizeAll_reverse, free]
  omega

/-- Placing keeps the keys of parameters. -/
theorem any_paramKey?_placeAll (key : String) (parent : Option NodeId) (next : Nat)
    (ts : List Draft) :
    (placeAll loc parent next ts).any (·.content.paramKey? == some key) =
      ts.any (·.content.paramKey? == some key) := by
  induction ts generalizing next with
  | nil => rfl
  | cons t rest ih =>
    rw [Tree.placeAll_cons, List.any_cons, List.any_cons, ih, Tree.paramKey?_place]

theorem addParam_place {o : Body.OpenCall} (ho : o.content.inOrder) (key : String) (param : Draft) :
    (place loc start o).addParam key (.place loc none (free start o) param) param.mark =
      (o.addParam key param).map (place loc start) := by
  have hkeys : (place loc start o).node.children.any (·.content.paramKey? == some key) =
      o.params.any (·.content.paramKey? == some key) := by
    rw [place, Body.OpenCall.close, Tree.place_node _ _ _ _ _ ho, Tree.children_node,
      any_paramKey?_placeAll, List.any_reverse]
  rw [addParam, Body.OpenCall.addParam, hkeys]
  split
  · rfl
  · rw [place, Body.OpenCall.close, free, Tree.push_place _ _ _ _ ho]
    rfl

end OpenCall

namespace OpenParam

/-- The next free identity. -/
def free (o : Body.OpenParam) : Nat := start + 1 + sizeAll o.body

/-- The parameter with placed statements. -/
def place (o : Body.OpenParam) : OpenParam :=
  { line := o.line
    key := o.key
    node := .new start (loc o.line) (.contentParam o.key o.kind)
    body := placeBack loc none (start + 1) o.body }

end OpenParam

namespace OpenCall

/-- A content parameter that is placed after the others is added as a placed one. -/
theorem addOpenParam_place {o : Body.OpenCall} (ho : o.content.inOrder) (p : Body.OpenParam) :
    (place loc start o).addOpenParam (OpenParam.place loc (free start o) p) =
      (o.addOpenParam p).map (place loc start) := by
  have hparam : (Tree.new (free start o) (loc p.line) (.contentParam p.key p.kind)).pushAll
        (placeBack loc none (free start o + 1) p.body).reverse =
      .place loc none (free start o) (.node p.line (.contentParam p.key p.kind) p.body.reverse) := by
    rw [Tree.reverse_placeBack, Tree.pushAll_new _ _ _ _ rfl]
  rw [addOpenParam, OpenParam.place]
  dsimp only
  rw [hparam]
  exact addParam_place loc start ho p.key _

theorem of_addParam {o o' : Body.OpenCall} {key : String} {param : Draft}
    (h : o.addParam key param = .ok o') :
    o'.content = o.content ∧ free start o' = free start o + param.size := by
  rw [Body.OpenCall.addParam] at h
  split at h
  · cases h
  · cases h
    rw [free, free, sizeAll]
    exact ⟨rfl, by omega⟩

end OpenCall

/-! ### Contents of messages -/

open Message (claims SameKeys)

/-- More than one plural or select, or one with items that are not blank. -/
def NotAlone (blank : Bool) (choices : Nat) : Prop := choices ≠ 0 ∧ (choices = 1 → blank = false)

/-- What is read in a message, as far as it matters for its body: items or one plural or
    select, placed from `start` up to the next free identity.  Where both stand in one
    message it will be refused. -/
inductive ContentsBuilt : List Message.Item → List Draft → List Item → List Node → Nat → Prop
  | items {items : List Message.Item} {built : List Item} {next : Nat}
      (h : ItemsBuilt loc start items built next) : ContentsBuilt items [] built [] next
  | choice {items : List Message.Item} {built : List Item} {d : Draft}
      (h : ItemsBuilt loc start items built start) (hd : d.content.inOrder)
      (hkeys : SameKeys (claims [(Tree.number start d).1])) :
      ContentsBuilt items [d] built [.place loc none start d] (start + d.size)
  | notAlone {items : List Message.Item} {choices : List Draft} {built : List Item}
      {nodes : List Node} {next : Nat} (hblank : built.all (·.isBlank) = items.all (·.isBlank))
      (hcount : nodes.length = choices.length)
      (h : NotAlone (items.all (·.isBlank)) choices.length) :
      ContentsBuilt items choices built nodes next

section Items

variable {loc start} {items : List Message.Item} {built : List Item} {next : Nat}

theorem ItemsBuilt.all_isBlank (h : ItemsBuilt loc start items built next) :
    built.all (·.isBlank) = items.all (·.isBlank) := by
  induction h with
  | nil => rfl
  | text chars line h ih => exact congrArg (Text.allBlank chars && ·) ih
  | statement h hd ih => rfl

/-- Items without a statement need no identities. -/
theorem ItemsBuilt.next_eq_or (h : ItemsBuilt loc start items built next) :
    next = start ∨ items.all (·.isBlank) = false := by
  induction h with
  | nil => exact .inl rfl
  | text chars line h ih =>
    refine ih.imp_right fun hblank => ?_
    rw [List.all_cons, hblank, Bool.and_false]
  | statement h hd ih => exact .inr rfl

end Items

namespace ContentsBuilt

variable {loc start} {items : List Message.Item} {choices : List Draft} {built : List Item}
  {nodes : List Node} {next : Nat} (h : ContentsBuilt loc start items choices built nodes next)
include h

theorem text (chars : List Char) (line : Nat) :
    ContentsBuilt loc start (.text chars line :: items) choices (.text chars line :: built) nodes
      next := by
  cases h with
  | items h => exact .items (.text chars line h)
  | choice h hd hkeys => exact .choice (.text chars line h) hd hkeys
  | notAlone hblank hcount h =>
    refine .notAlone (congrArg (Text.allBlank chars && ·) hblank) hcount ⟨h.1, fun hone => ?_⟩
    rw [List.all_cons, h.2 hone, Bool.and_false]

theorem statement {d : Draft} (hd : d.content.inOrder) :
    ContentsBuilt loc start (.statement d :: items) choices
      (.statement (.place loc none next d) d.mark :: built) nodes (next + d.size) := by
  cases h with
  | items h => exact .items (.statement h hd)
  | choice h hd' hkeys => exact .notAlone rfl rfl ⟨Nat.one_ne_zero, fun _ => rfl⟩
  | notAlone hblank hcount h => exact .notAlone rfl hcount ⟨h.1, fun _ => rfl⟩

theorem addChoice {d : Draft} (hd : d.content.inOrder)
    (hkeys : SameKeys (claims [(Tree.number next d).1])) :
    ContentsBuilt loc start items (d :: choices) built (.place loc none next d :: nodes)
      (next + d.size) := by
  cases h with
  | items h =>
    rcases h.next_eq_or with rfl | hblank
    · exact .choice h hd hkeys
    · exact .notAlone h.all_isBlank rfl ⟨Nat.one_ne_zero, fun _ => hblank⟩
  | choice h hd' hkeys' =>
    exact .notAlone h.all_isBlank rfl ⟨Nat.succ_ne_zero _, fun hone => by cases hone⟩
  | notAlone hblank hcount h =>
    refine .notAlone hblank (congrArg (· + 1) hcount) ⟨Nat.succ_ne_zero _, fun hone => ?_⟩
    exact absurd (Nat.succ.inj hone) h.1

end ContentsBuilt

/-! ### Messages -/

/-- The parts that items make, placed, and the next free identity. -/
theorem assembled_eq {items : List Message.Item} {built : List Item} {next : Nat} (outer calls : Nat)
    (h : ItemsBuilt loc start items built next) :
    assembled loc outer built = (Body.assembled calls items).map fun (parts, _) =>
      (placeParts loc none start outer parts, outer + wrappingAll parts) := by
  rw [assembled, Body.assembled, assemble_eq outer calls h]
  cases Message.assemble calls items.reverse with
  | ok parts => rfl
  | error e => rfl

theorem wrappedAll_of_assembled {items : List Message.Item} {built : List Item} {next calls calls' : Nat}
    {parts : List Draft} (h : ItemsBuilt loc start items built next)
    (hparts : Body.assembled calls items = .ok (parts, calls')) :
    start + wrappedAll parts = next := wrappedAll_of_assemble h (mapError_eq_ok.1 hparts)

namespace OpenMsg

section Contents

variable {loc start} {o : Body.OpenMsg} {b : OpenMsg} {next : Nat}
  (h : ContentsBuilt loc start o.items o.choices b.items b.choices next)
include h

/-- The body of a message is the placed body, or refused like it. -/
theorem body_eq (hline : b.line = o.line) :
    b.body loc next = o.body.map fun parts =>
      (placeParts loc none start (start + wrappedAll parts) parts, start + sizeAll parts) := by
  obtain ⟨groupLine, messages, line, content, items, choices⟩ := o
  obtain ⟨groupLine', group, line', msg, built, nodes⟩ := b
  cases hline
  dsimp only at h
  rw [body, Body.OpenMsg.body]
  cases h with
  | items h =>
    dsimp only
    rw [assembled_eq loc start next 0 h]
    cases hparts : Body.assembled 0 items with
    | error e => rfl
    | ok result =>
      obtain ⟨parts, calls⟩ := result
      have hwrapped := wrappedAll_of_assembled loc start h hparts
      have hsize := Tree.wrappedAll_add_wrappingAll parts
      refine congrArg Except.ok (Prod.ext ?_ ?_)
      · change placeParts loc none start next parts = _
        rw [← hwrapped]
      · change next + wrappingAll parts = start + sizeAll parts
        omega
  | @choice _ d h hd hkeys =>
    have hplace : placeParts loc none start (start + wrappedAll [d]) [d] =
        [.place loc none start d] := by
      rw [Tree.placeParts_cons, Tree.placePart_of_inOrder _ _ _ _ hd]
      rfl
    dsimp only
    rw [h.all_isBlank]
    split
    · exact congrArg Except.ok (Prod.ext hplace.symm rfl)
    · rfl
  | notAlone hblank hcount h =>
    match choices, nodes, hcount with
    | [], [], _ => exact absurd rfl h.1
    | [_], [_], _ =>
      dsimp only
      rw [hblank, h.2 rfl]
      rfl
    | _ :: _ :: _, _ :: _ :: _, _ => rfl

/-- No two calls in the body of a message share a number or an identity. -/
theorem sameKeys_of_body {parts : List Draft} (hparts : o.body = .ok parts) :
    SameKeys (claims (Tree.numberParts start (start + wrappedAll parts) parts).1) := by
  obtain ⟨groupLine, messages, line, content, items, choices⟩ := o
  dsimp only at h
  rw [Body.OpenMsg.body] at hparts
  dsimp only at hparts
  generalize b.items = built, b.choices = nodes at h
  cases h with
  | items h =>
    obtain ⟨⟨parts', calls⟩, hassembled, hparts⟩ := bind_eq_ok.1 hparts
    cases hparts
    exact (inOrder_of_assemble _ h (mapError_eq_ok.1 hassembled)).2.same
  | choice h hd hkeys =>
    dsimp only at hparts
    split at hparts
    · cases hparts
      rw [Tree.numberParts_cons, Tree.numberPart_of_inOrder _ _ hd]
      exact hkeys
    · cases hparts
  | notAlone hblank hcount h =>
    match choices with
    | [] => exact absurd rfl h.1
    | [_] =>
      dsimp only at hparts
      rw [h.2 rfl] at hparts
      cases hparts
    | _ :: _ :: _ => cases hparts

end Contents

/-- The identity of the message that is read. -/
def msgId (o : Body.OpenMsg) : Nat := start + 1 + sizeAll o.messages

end OpenMsg

/-- The group has placed messages, and in the message that is read placed contents stand up to
    the next free identity. -/
structure MsgBuilt (o : Body.OpenMsg) (b : OpenMsg) (next : Nat) : Prop where
  groupLine : b.groupLine = o.groupLine
  group : b.group = .place loc none start (.node o.groupLine .msgGroup o.messages.reverse)
  line : b.line = o.line
  msg : b.msg = .new (OpenMsg.msgId start o) (loc o.line) o.content
  content : o.content.holdsParts
  contents : ContentsBuilt loc (OpenMsg.msgId start o + 1) o.items o.choices b.items b.choices next

namespace MsgBuilt

variable {loc start} {o : Body.OpenMsg} {b : OpenMsg} {next : Nat}
  (h : MsgBuilt loc start o b next)
include h

theorem withItems {items : List Message.Item} {built : List Item} {next' : Nat}
    (hcontents : ContentsBuilt loc (OpenMsg.msgId start o + 1) items o.choices built b.choices next') :
    MsgBuilt loc start { o with items } { b with items := built } next' :=
  ⟨h.groupLine, h.group, h.line, h.msg, h.content, hcontents⟩

theorem addChoice {d : Draft} (hd : d.content.inOrder)
    (hkeys : SameKeys (claims [(Tree.number next d).1])) :
    MsgBuilt loc start { o with choices := d :: o.choices }
      { b with choices := .place loc none next d :: b.choices } (next + d.size) :=
  ⟨h.groupLine, h.group, h.line, h.msg, h.content, h.contents.addChoice hd hkeys⟩

/-- A group with the message that is read is the placed group, or refused like it. -/
theorem close_eq : b.close loc next = o.closeMessage.map fun messages =>
    (.place loc none start (.node o.groupLine .msgGroup messages.reverse),
      start + 1 + sizeAll messages) := by
  rw [OpenMsg.close, Body.OpenMsg.closeMessage, OpenMsg.body_eq h.contents h.line]
  cases hparts : o.body with
  | error e => rfl
  | ok parts =>
    have hkeys := OpenMsg.sameKeys_of_body h.contents hparts
    have hsize : sizeAll (Message.nameAll parts) = sizeAll parts :=
      Message.sizeAll_mapPlaceholders _ parts
    have hwrapped : wrappedAll (Message.nameAll parts) = wrappedAll parts :=
      Message.wrappedAll_mapPlaceholders _ parts
    -- the parts are pushed to the message, which then gets the names
    have hmsg : ((b.msg.pushAll (placeParts loc none (OpenMsg.msgId start o + 1)
          (OpenMsg.msgId start o + 1 + wrappedAll parts) parts)).withChildren
            (Message.nameAll (b.msg.pushAll (placeParts loc none (OpenMsg.msgId start o + 1)
              (OpenMsg.msgId start o + 1 + wrappedAll parts) parts)).children)) =
        .place loc none (OpenMsg.msgId start o)
          (.node o.line o.content (Message.nameAll parts)) := by
      rw [h.msg, Tree.pushAll_new_of_holdsParts _ _ _ _ h.content,
        Tree.place_node_of_holdsParts _ _ _ _ _ h.content, Tree.children_node,
        Message.nameAll_placeParts loc hkeys,
        Tree.place_node_of_holdsParts _ _ _ _ _ h.content, hwrapped]
      rfl
    refine congrArg Except.ok (Prod.ext ?_ ?_)
    · change Tree.push b.group _ = _
      rw [hmsg, h.group, OpenMsg.msgId, Tree.push_place _ _ _ _ rfl]
    · change OpenMsg.msgId start o + 1 + sizeAll parts = start + 1 + sizeAll (_ :: o.messages)
      rw [sizeAll, Tree.size, hsize, OpenMsg.msgId]
      omega

theorem isEmpty_children : b.group.children.isEmpty = o.messages.isEmpty := by
  rw [h.group, Tree.place_node _ _ _ _ _ rfl, Tree.children_node]
  cases o.messages with
  | nil => rfl
  | cons d rest =>
    rw [List.reverse_cons, Tree.placeAll_append, Tree.placeAll_cons]
    exact List.isEmpty_eq_false_iff.2 (List.append_ne_nil_of_right_ne_nil _ (List.cons_ne_nil _ _))

end MsgBuilt

/-! ### Plurals and selects -/

theorem inOrder_of_isChoice {content : Content} (h : content.isChoice) : content.inOrder := by
  cases content with
  | plural | select => rfl
  | _ => cases h

theorem claims_case (next line : Nat) (label : CaseLabel) (parts : List Draft) :
    claims (Tree.numberAll next [.node line (.case label) parts]).1 =
      claims (Tree.numberParts (next + 1) (next + 1 + wrappedAll parts) parts).1 := by
  rw [Tree.numberAll_cons, Tree.number_of_holdsParts _ _ _ _ rfl]
  exact congrArg (List.filterMap Message.claim?) (List.append_nil _)

theorem claims_choice {content : Content} (line : Nat) (h : content.isChoice) (cases : List Draft) :
    claims [(Tree.number start (.node line content cases)).1] =
      claims (Tree.numberAll (start + 1) cases).1 := by
  rw [Tree.number_of_not_holdsParts _ _ _ _
    (Tree.not_holdsParts_of_inOrder (inOrder_of_isChoice h))]
  cases content with
  | plural | select => exact congrArg (List.filterMap Message.claim?) (List.append_nil _)
  | _ => cases h

namespace OpenChoice

/-- The next free identity. -/
def free (o : Body.OpenChoice) : Nat := start + 1 + sizeAll o.cases

end OpenChoice

/-- The plural or select has placed cases, and the calls in these are in the order of the
    text. -/
structure ChoiceBuilt (o : Body.OpenChoice) (b : OpenChoice) : Prop where
  line : b.line = o.line
  command : b.command = o.command
  hasDefault : b.hasDefault = o.hasDefault
  node : b.node = .place loc none start (.node o.line o.content o.cases.reverse)
  content : o.content.isChoice
  inOrder : Message.InOrder 0 o.calls (start + 1) (OpenChoice.free start o)
    (claims (Tree.numberAll (start + 1) o.cases.reverse).1)

/-- The items of the case stand after it, up to the next free identity. -/
structure CaseBuilt (o : Body.OpenCase) (b : OpenCase) (next : Nat) : Prop where
  node : b.node = .new start (loc o.line) (.case o.label)
  items : ItemsBuilt loc (start + 1) o.items b.items next

namespace ChoiceBuilt

variable {loc start} {o : Body.OpenChoice} {b : OpenChoice} (h : ChoiceBuilt loc start o b)
include h

theorem withDefault : ChoiceBuilt loc start { o with hasDefault := true }
    { b with hasDefault := true } :=
  ⟨h.line, h.command, rfl, h.node, h.content, h.inOrder⟩

/-- An open case is added as a placed one, or refused like the draft. -/
theorem addCase {case : Body.OpenCase} {built : OpenCase} {next : Nat}
    (hcase : CaseBuilt loc (OpenChoice.free start o) case built next) :
    Tallies Eq (fun o' (result : OpenChoice × NodeId) =>
        ChoiceBuilt loc start o' result.1 ∧ o'.hasDefault = o.hasDefault ∧
          result.2 = OpenChoice.free start o')
      (o.addCase case) (b.addCase loc next built) := by
  rw [Body.OpenChoice.addCase, OpenChoice.addCase, assembled_eq loc _ next o.calls hcase.items]
  cases hparts : Body.assembled o.calls case.items with
  | error e => exact .error rfl
  | ok result =>
    obtain ⟨parts, calls⟩ := result
    have hwrapped := wrappedAll_of_assembled loc _ hcase.items hparts
    have hsize := Tree.wrappedAll_add_wrappingAll parts
    have hcalls := inOrder_of_assemble next hcase.items (mapError_eq_ok.1 hparts)
    have hfree : OpenChoice.free start
        { o with cases := .node case.line (.case case.label) parts :: o.cases, calls } =
          next + wrappingAll parts := by
      rw [OpenChoice.free, sizeAll, Tree.size]
      rw [OpenChoice.free] at hwrapped
      omega
    refine .ok ⟨⟨h.line, h.command, h.hasDefault, ?_, h.content, ?_⟩, rfl, hfree.symm⟩
    · change b.node.push (built.node.pushAll (placeParts loc none _ next parts)) = _
      rw [h.node, hcase.node, ← hwrapped, Tree.pushAll_new_of_holdsParts _ _ _ _ rfl,
        OpenChoice.free, Tree.push_place _ _ _ _ (inOrder_of_isChoice h.content)]
    · -- the calls in the case come after those in the cases before
      change Message.InOrder 0 calls _ _ (claims (Tree.numberAll _ (_ :: o.cases).reverse).1)
      rw [hfree, List.reverse_cons, Tree.numberAll_append, Message.claims_append,
        Tree.sizeAll_reverse, claims_case, ← OpenChoice.free, hwrapped]
      exact (h.inOrder.mono (Nat.le_refl _) (Nat.le_succ _)).append
        (hcalls.2.mono (Nat.le_refl _) (Nat.le_add_right _ _)) (Nat.zero_le _) hcalls.1
        (by rw [OpenChoice.free]; omega) (by omega)

/-- The plural or select that the cases make, or the complaint that there is no default case. -/
theorem close : Tallies Eq (fun d n => n = .place loc none start d ∧ d.content.inOrder ∧
      SameKeys (claims [(Tree.number start d).1]) ∧ start + d.size = OpenChoice.free start o)
    o.close b.close := by
  rw [Body.OpenChoice.close, OpenChoice.close, h.hasDefault, h.line, h.command]
  split
  · have hinOrder := inOrder_of_isChoice h.content
    refine .ok ⟨h.node, hinOrder, ?_, ?_⟩
    · rw [claims_choice _ _ h.content]
      exact h.inOrder.same
    · rw [Tree.size, Tree.sizeAll_reverse, OpenChoice.free]
      omega
  · exact .error rfl

end ChoiceBuilt

end Stencil.Build
