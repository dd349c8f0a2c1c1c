/-
  Stencil/Proofs/Message/Lookup.lean
  ==================================
  **Finding the placeholders of a message by their names.**

  One function looks through the parts of a message for the first placeholder with a
  name, another one collects the names.  They come by the same placeholders in the
  same order, those that stand in the message at any depth and not inside of other
  placeholders (`placeholders_inOrder`).  So a translation is refused for the first
  of its parts that names no placeholder of the message, and for nothing else.
-/
import Mathlib.Data.List.Induction
import Mathlib.Data.List.Nodup
import Stencil.Message.Insertion
import Stencil.Proofs.Outcome
import Stencil.Proofs.Tree.Shape

namespace Stencil

/-! ### First appearances -/

/-- The values of a list in the order in which they appear first, each once. -/
structure FirstAppearances {β : Type} [DecidableEq β] (firsts all : List β) : Prop where
  nodup : firsts.Nodup
  mem_iff : ∀ b, b ∈ firsts ↔ b ∈ all
  inOrder : firsts.Pairwise fun a b => all.idxOf a < all.idxOf b

namespace FirstAppearances

variable {β : Type} [DecidableEq β] {firsts all : List β} {b : β}

theorem nil : FirstAppearances ([] : List β) [] := ⟨.nil, fun _ => Iff.rfl, .nil⟩

/-- What is appended does not change where a value appears first. -/
theorem pairwise_append (h : FirstAppearances firsts all) (b : β) :
    firsts.Pairwise fun a a' => (all ++ [b]).idxOf a < (all ++ [b]).idxOf a' := by
  refine h.inOrder.imp_of_mem fun {a a'} ha ha' hlt => ?_
  rw [List.idxOf_append_of_mem ((h.mem_iff a).1 ha), List.idxOf_append_of_mem ((h.mem_iff a').1 ha')]
  exact hlt

/-- A value that was there before appears first where it did. -/
theorem again (h : FirstAppearances firsts all) (hb : b ∈ firsts) :
    FirstAppearances firsts (all ++ [b]) := by
  refine ⟨h.nodup, fun a => ?_, h.pairwise_append b⟩
  rw [List.mem_append, List.mem_singleton, h.mem_iff]
  constructor
  · exact Or.inl
  · rintro (ha | rfl)
    · exact ha
    · exact (h.mem_iff a).1 hb

/-- A new value appears first at the end. -/
theorem first (h : FirstAppearances firsts all) (hb : b ∉ firsts) :
    FirstAppearances (firsts ++ [b]) (all ++ [b]) := by
  have hnew : b ∉ all := fun hall => hb ((h.mem_iff b).2 hall)
  refine ⟨?_, fun a => ?_, ?_⟩
  · exact h.nodup.append (List.nodup_singleton b) (List.disjoint_singleton.2 hb)
  · rw [List.mem_append, List.mem_append, h.mem_iff]
  · refine List.pairwise_append.2 ⟨h.pairwise_append b, List.pairwise_singleton _ _, ?_⟩
    intro a ha last hlast
    have hall : a ∈ all := (h.mem_iff a).1 ha
    rw [List.mem_singleton.1 hlast, List.idxOf_append_of_mem hall,
      List.idxOf_append_of_notMem hnew, List.idxOf_cons_self]
    exact List.idxOf_lt_length_of_mem hall

end FirstAppearances

namespace Message

variable {α : Type}

/-! ### Looking for a name -/

theorem placeholderName?_placeholder (mark : α) (name : String) (key : PlaceholderKey)
    (inside : List (Tree α)) :
    placeholderName? (.node mark (.placeholder name key) inside) = some name := rfl

mutual

theorem partPlaceholder?_eq_find? (name : String) : (part : Tree α) →
    partPlaceholder? part name =
      (partPlaceholders part).find? fun p => placeholderName? p == some name
  | .node mark content children => by
    have hchildren := placeholder?_eq_find? name children
    cases content with
    | placeholder other key =>
      rw [partPlaceholder?, partPlaceholders, List.find?_singleton, placeholderName?_placeholder]
      simp only [beq_iff_eq, Option.some.injEq]
    | plural | select | case => exact hchildren
    | _ => rfl

/-- The search finds the first of the placeholders that has the name. -/
theorem placeholder?_eq_find? (name : String) : (body : List (Tree α)) →
    placeholder? body name = (placeholders body).find? fun p => placeholderName? p == some name
  | [] => rfl
  | part :: rest => by
    rw [placeholder?, placeholders, List.find?_append, partPlaceholder?_eq_find? name part,
      placeholder?_eq_find? name rest]

end

theorem mem_placeholders_of_placeholder? {body : List (Tree α)} {name : String} {p : Tree α}
    (h : placeholder? body name = some p) : p ∈ placeholders body := by
  rw [placeholder?_eq_find?] at h
  exact List.mem_of_find?_eq_some h

theorem placeholderName?_of_placeholder? {body : List (Tree α)} {name : String} {p : Tree α}
    (h : placeholder? body name = some p) : placeholderName? p = some name := by
  rw [placeholder?_eq_find?] at h
  have hname := List.find?_some h
  exact beq_iff_eq.1 hname

theorem isSome_placeholder?_iff {body : List (Tree α)} {name : String} :
    (placeholder? body name).isSome ↔ name ∈ (placeholders body).filterMap placeholderName? := by
  rw [placeholder?_eq_find?, List.find?_isSome, List.mem_filterMap]
  simp only [beq_iff_eq]

/-! ### Collecting names -/

/-- A name added to others unless it is among them. -/
def addName (names : List String) (name : String) : List String :=
  if names.contains name then names else names ++ [name]

mutual

theorem collectPartNames_eq_foldl (names : List String) : (part : Tree α) →
    collectPartNames names part =
      ((partPlaceholders part).filterMap placeholderName?).foldl addName names
  | .node mark content children => by
    have hchildren := collectNames_eq_foldl names children
    cases content with
    | plural | select | case => exact hchildren
    | _ => rfl

theorem collectNames_eq_foldl (names : List String) : (body : List (Tree α)) →
    collectNames names body =
      ((placeholders body).filterMap placeholderName?).foldl addName names
  | [] => rfl
  | part :: rest => by
    rw [collectNames, placeholders, List.filterMap_append, List.foldl_append,
      collectPartNames_eq_foldl names part, collectNames_eq_foldl _ rest]

end

theorem firstAppearances_foldl_addName (names : List String) :
    FirstAppearances (names.foldl addName []) names := by
  induction names using List.reverseRecOn with
  | nil => exact .nil
  | append_singleton names name ih =>
    rw [List.foldl_append, List.foldl_cons, List.foldl_nil, addName]
    by_cases hname : name ∈ names.foldl addName []
    · rw [if_pos (List.contains_iff_mem.2 hname)]
      exact ih.again hname
    · rw [if_neg fun h => hname (List.contains_iff_mem.1 h)]
      exact ih.first hname

/-- The names are those of the placeholders, in the order of first appearance. -/
theorem firstAppearances_placeholderNames (body : List (Tree α)) :
    FirstAppearances (placeholderNames body) ((placeholders body).filterMap placeholderName?) := by
  rw [placeholderNames, collectNames_eq_foldl]
  exact firstAppearances_foldl_addName _

theorem isSome_placeholder?_iff_mem_placeholderNames {body : List (Tree α)} {name : String} :
    (placeholder? body name).isSome ↔ name ∈ placeholderNames body := by
  rw [isSome_placeholder?_iff, (firstAppearances_placeholderNames body).mem_iff]

theorem placeholder?_eq_none_iff {body : List (Tree α)} {name : String} :
    placeholder? body name = none ↔ name ∉ placeholderNames body := by
  rw [← isSome_placeholder?_iff_mem_placeholderNames, Option.not_isSome_iff_eq_none]

/-! ### Bodies of messages -/

/-- The body of a message or of a case, to any depth: texts, placeholders with
    whatever stands in them, and plurals and selects with cases. -/
inductive IsMsgBody : List (Tree α) → Prop
  | nil : IsMsgBody []
  | text {mark : α} {text : String} {rest : List (Tree α)} (hrest : IsMsgBody rest) :
      IsMsgBody (.leaf mark (.msgText text) :: rest)
  | placeholder {mark : α} {name : String} {key : PlaceholderKey} {inside rest : List (Tree α)}
      (hrest : IsMsgBody rest) : IsMsgBody (.node mark (.placeholder name key) inside :: rest)
  | choice {mark : α} {content : Content} {cases rest : List (Tree α)} (hchoice : content.isChoice)
      (hcases : ∀ case ∈ cases, ∃ label, case.content = .case label)
      (hbodies : ∀ case ∈ cases, IsMsgBody case.children) (hrest : IsMsgBody rest) :
      IsMsgBody (.node mark content cases :: rest)

theorem isMsgBody_of_forall {parts : List (Tree α)}
    (h : ∀ part ∈ parts, (∃ mark text, part = .leaf mark (.msgText text)) ∨
      (∃ name key, part.content = .placeholder name key) ∨
      part.content.isChoice ∧ (∀ case ∈ part.children, ∃ label, case.content = .case label) ∧
        ∀ case ∈ part.children, IsMsgBody case.children) : IsMsgBody parts := by
  induction parts with
  | nil => exact .nil
  | cons part rest ih =>
    obtain ⟨hpart, hrest⟩ := List.forall_mem_cons.1 h
    rcases hpart with ⟨mark, text, rfl⟩ | ⟨name, key, hcontent⟩ | ⟨hchoice, hcases, hbodies⟩
    · exact .text (ih hrest)
    · obtain ⟨mark, content, inside⟩ := part
      rw [Tree.content_node] at hcontent
      rw [hcontent]
      exact .placeholder (ih hrest)
    · cases part
      exact .choice hchoice hcases hbodies (ih hrest)

/-- A message or a case in one. -/
def HasMsgBody (content : Content) : Prop :=
  (∃ desc meaning hidden, content = .msg desc meaning hidden) ∨ ∃ label, content = .case label

theorem part_of_holds {content child : Content} (hcontent : HasMsgBody content)
    (h : content.holds child) : (∃ text, child = .msgText text) ∨
      (∃ name key, child = .placeholder name key) ∨ child.isChoice := by
  rcases hcontent with ⟨desc, meaning, hidden, rfl⟩ | ⟨label, rfl⟩ <;>
    cases child <;> simp [Content.holds, Content.isChoice] at h ⊢

theorem exists_label_of_holds {content child : Content} (hcontent : content.isChoice)
    (h : content.holds child) : ∃ label, child = .case label := by
  cases content <;> simp [Content.isChoice] at hcontent <;>
    cases child <;> simp [Content.holds] at h ⊢

/-- In a tree of the shape of a body, messages and the cases in them have bodies of
    messages. -/
theorem isMsgBody_children_of_shaped (t : Tree α) (h : Tree.Shaped t)
    (ht : HasMsgBody t.content) : IsMsgBody t.children := by
  refine isMsgBody_of_forall fun part hpart => ?_
  have hshaped := h.child hpart
  have hlt := Tree.size_lt_of_mem_children hpart
  rcases part_of_holds ht (h.root part hpart) with ⟨text, htext⟩ | hplaceholder | hchoice
  · have hnil : part.children = [] := by
      refine Tree.children_eq_nil_of_shapedAt hshaped.root fun _ => ?_
      rw [htext]
      rfl
    obtain ⟨mark, content, children⟩ := part
    exact .inl ⟨mark, text, congr (congrArg (Tree.node mark) htext) hnil⟩
  · exact .inr (.inl hplaceholder)
  · have hcases : ∀ case ∈ part.children, ∃ label, case.content = .case label :=
      fun case hcase => exists_label_of_holds hchoice (hshaped.root case hcase)
    refine .inr (.inr ⟨hchoice, hcases, fun case hcase => ?_⟩)
    have hlt' := Tree.size_lt_of_mem_children hcase
    exact isMsgBody_children_of_shaped case (hshaped.child hcase) (.inr (hcases case hcase))
termination_by t.size

mutual

/-- The nodes of a part of a message, each before those below it, but for what stands
    inside of placeholders. -/
def partNodes : Tree α → List (Tree α)
  | .node mark content children =>
    .node mark content children ::
      match content with
      | .placeholder _ _ => []
      | _ => bodyNodes children

/-- The nodes of several parts of messages, but for what stands inside of
    placeholders. -/
def bodyNodes : List (Tree α) → List (Tree α)
  | [] => []
  | part :: rest => partNodes part ++ bodyNodes rest

end

mutual

theorem partNodes_sublist : (part : Tree α) → (partNodes part).Sublist part.preorder
  | .node mark content children => by
    have hchildren := bodyNodes_sublist children
    rw [Tree.preorder]
    cases content with
    | placeholder name key => exact (List.nil_sublist _).cons_cons _
    | _ => exact hchildren.cons_cons _

/-- The nodes of a body are in the order of the text. -/
theorem bodyNodes_sublist : (body : List (Tree α)) → (bodyNodes body).Sublist (Tree.preorderAll body)
  | [] => List.Sublist.refl _
  | part :: rest => (partNodes_sublist part).append (bodyNodes_sublist rest)

end

/-! ### Where the placeholders stand -/

/-- The placeholders in cases are those among their nodes if that holds of the body of
    each case. -/
theorem placeholders_eq_filter_of_cases {cases : List (Tree α)}
    (hcases : ∀ case ∈ cases, ∃ label, case.content = .case label)
    (hbodies : ∀ case ∈ cases, placeholders case.children =
      (bodyNodes case.children).filter fun n => (placeholderName? n).isSome) :
    placeholders cases = (bodyNodes cases).filter fun n => (placeholderName? n).isSome := by
  induction cases with
  | nil => rfl
  | cons case rest ih =>
    obtain ⟨⟨label, hlabel⟩, hrest⟩ := List.forall_mem_cons.1 hcases
    obtain ⟨hbody, hbelow⟩ := List.forall_mem_cons.1 hbodies
    obtain ⟨mark, content, children⟩ := case
    rw [Tree.content_node] at hlabel
    rw [placeholders, bodyNodes, List.filter_append, ← ih hrest hbelow, hlabel]
    exact congrArg (· ++ _) hbody

/-- The placeholders of a body are those among its nodes. -/
theorem placeholders_eq_filter {body : List (Tree α)} (h : IsMsgBody body) :
    placeholders body = (bodyNodes body).filter fun n => (placeholderName? n).isSome := by
  induction h with
  | nil => rfl
  | text hrest ih => exact ih
  | placeholder hrest ih => exact congrArg (List.cons _) ih
  | @choice mark content cases rest hchoice hcases hbodies hrest ihbodies ih =>
    have hinside := placeholders_eq_filter_of_cases hcases ihbodies
    rw [placeholders, bodyNodes, List.filter_append, ih]
    refine congrArg (· ++ _) ?_
    cases content with
    | plural | select => exact hinside
    | _ => cases hchoice

theorem filterMap_placeholderName?_bodyNodes {body : List (Tree α)} (h : IsMsgBody body) :
    (bodyNodes body).filterMap placeholderName? = (placeholders body).filterMap placeholderName? := by
  rw [placeholders_eq_filter h, List.filterMap_filter]
  refine List.filterMap_congr fun n _ => ?_
  cases placeholderName? n <;> rfl

/-- The search finds the first node of a body that is a placeholder with the name. -/
theorem placeholder?_eq_find?_bodyNodes {body : List (Tree α)} (h : IsMsgBody body)
    (name : String) :
    placeholder? body name = (bodyNodes body).find? fun n => placeholderName? n == some name := by
  rw [placeholder?_eq_find?, placeholders_eq_filter h, List.find?_filter]
  refine congrArg (List.find? · _) (funext fun n => ?_)
  cases placeholderName? n with
  | none => rfl
  | some other => exact Bool.eq_iff_iff.2 (by simp)

/-! ### Translations that name no placeholder of the message -/

/-- A part of a translation that names a placeholder whose name is not among some. -/
def isUnknown (names : List String) : TranslationPart → Bool
  | .text _ => false
  | .placeholder name => !names.contains name

theorem isUnknown_iff {names : List String} {part : TranslationPart} :
    isUnknown names part ↔ ∃ name, part = .placeholder name ∧ name ∉ names := by
  cases part with
  | text text => simp [isUnknown]
  | placeholder name => simp [isUnknown]

/-- A translation fails at its first part that names no placeholder of the message,
    and only there. -/
theorem translatedStatements_eq_error_iff {msg : Node} {id : MsgId} {used : List String}
    {next : NodeId} {parts : List TranslationPart} {e : InsertionError} :
    (translatedStatements msg id used next parts).1 = .error e ↔
      ∃ name, parts.find? (isUnknown (placeholderNames msg.children)) = some (.placeholder name) ∧
        e = .unknownPlaceholder id name msg.loc := by
  induction parts generalizing used next with
  | nil => simp [translatedStatements]
  | cons part rest ih =>
    cases part with
    | text text =>
      have hknown : ¬ isUnknown (placeholderNames msg.children) (.text text) := nofun
      rw [translatedStatements, List.find?_cons_of_neg hknown]
      exact map_eq_error.trans ih
    | placeholder name =>
      rw [translatedStatements]
      cases hp : placeholder? msg.children name with
      | none =>
        have hname := placeholder?_eq_none_iff.1 hp
        have hunknown : isUnknown (placeholderNames msg.children) (.placeholder name) :=
          isUnknown_iff.2 ⟨name, rfl, hname⟩
        rw [List.find?_cons_of_pos hunknown]
        constructor
        · intro herror
          cases herror
          exact ⟨name, rfl, rfl⟩
        · rintro ⟨other, hother, rfl⟩
          cases hother
          rfl
      | some p =>
        have hname : name ∈ placeholderNames msg.children :=
          isSome_placeholder?_iff_mem_placeholderNames.1 (Option.isSome_of_eq_some hp)
        have hknown : ¬ isUnknown (placeholderNames msg.children) (.placeholder name) := by
          simp [isUnknown, hname]
        rw [List.find?_cons_of_neg hknown]
        exact map_eq_error.trans ih

/-- **Placeholders and their names.**  The names of the placeholders of a message are
    listed in the order of first appearance, each once, and a name is looked up as
    the first placeholder that has it; both in the order of the text, at whatever
    depth of plurals and selects.  So exactly the names that are listed are found,
    and a translation fails if one of its parts names another placeholder, with the
    first such part. -/
theorem placeholders_inOrder {msg : Node} (h : IsMsgBody msg.children) :
    (bodyNodes msg.children).Sublist (Tree.preorderAll msg.children) ∧
      FirstAppearances (placeholderNames msg.children)
        ((bodyNodes msg.children).filterMap placeholderName?) ∧
      (∀ name, placeholder? msg.children name =
        (bodyNodes msg.children).find? fun n => placeholderName? n == some name) ∧
      (∀ name, (placeholder? msg.children name).isSome ↔ name ∈ placeholderNames msg.children) ∧
      ∀ id next parts,
        ((∃ name, (translatedStatements msg id [] next parts).1 =
            .error (.unknownPlaceholder id name msg.loc)) ↔
          ∃ name, .placeholder name ∈ parts ∧ name ∉ placeholderNames msg.children) ∧
        ∀ e, (translatedStatements msg id [] next parts).1 = .error e ↔
          ∃ name, parts.find? (isUnknown (placeholderNames msg.children)) =
            some (.placeholder name) ∧ e = .unknownPlaceholder id name msg.loc := by
  refine ⟨bodyNodes_sublist _, ?_, placeholder?_eq_find?_bodyNodes h,
    fun _ => isSome_placeholder?_iff_mem_placeholderNames, fun id next parts => ⟨?_, ?_⟩⟩
  · rw [filterMap_placeholderName?_bodyNodes h]
    exact firstAppearances_placeholderNames msg.children
  · constructor
    · rintro ⟨name, herror⟩
      obtain ⟨first, hfirst, -⟩ := translatedStatements_eq_error_iff.1 herror
      obtain ⟨other, hother, hunknown⟩ := isUnknown_iff.1 (List.find?_some hfirst)
      exact ⟨other, hother ▸ List.mem_of_find?_eq_some hfirst, hunknown⟩
    · rintro ⟨name, hmem, hname⟩
      have hunknown : (parts.find? (isUnknown (placeholderNames msg.children))).isSome :=
        List.find?_isSome.2 ⟨_, hmem, isUnknown_iff.2 ⟨name, rfl, hname⟩⟩
      obtain ⟨part, hpart⟩ := Option.isSome_iff_exists.1 hunknown
      obtain ⟨first, rfl, -⟩ := isUnknown_iff.1 (List.find?_some hpart)
      exact ⟨first, translatedStatements_eq_error_iff.2 ⟨first, hpart, rfl⟩⟩
  · exact fun e => translatedStatements_eq_error_iff

/-- A message with a print, and with a plural in a case of a select, where the print
    stands again. -/
def nestedCases : Node :=
  let mark (id : NodeId) : Mark := ⟨id, none, .unknown⟩
  let placeholder (id : NodeId) (name : String) : Node :=
    .node (mark id) (.placeholder name (.own id)) []
  .node (mark 0) (.msg none none false)
    [placeholder 1 "NAME", .leaf (mark 2) (.msgText " and "),
      .node (mark 3) (.select ⟨"$who", .other, none⟩ "WHO")
        [.node (mark 4) (.case (.value "f"))
            [placeholder 5 "HER",
              .node (mark 6) (.plural ⟨"$n", .other, none⟩ 0 "N")
                [.node (mark 7) (.case .default) [placeholder 8 "NAME", placeholder 9 "N_1"]]],
          .node (mark 10) (.case .default) [placeholder 11 "N_1", placeholder 12 "THEM"]]]

theorem isMsgBody_nestedCases : IsMsgBody nestedCases.children := by
  refine .placeholder (.text (.choice rfl ?_ ?_ .nil))
  · simp
  · refine List.forall_mem_cons.2 ⟨?_, List.forall_mem_singleton.2 (.placeholder (.placeholder .nil))⟩
    refine .placeholder (.choice rfl ?_ ?_ .nil)
    · simp
    · exact List.forall_mem_singleton.2 (.placeholder (.placeholder .nil))

/-- The print that stands twice is listed and found where it stands first, and a
    translation fails at the first of two names that are not listed. -/
theorem placeholders_inOrder_nestedCases : IsMsgBody nestedCases.children ∧
    placeholderNames nestedCases.children = ["NAME", "HER", "N_1", "THEM"] ∧
    FirstAppearances (placeholderNames nestedCases.children)
      ["NAME", "HER", "NAME", "N_1", "N_1", "THEM"] ∧
    (placeholder? nestedCases.children "NAME").map Tree.id = some 1 ∧
    (placeholder? nestedCases.children "N_1").map Tree.id = some 9 ∧
    (translatedStatements nestedCases 7 [] 13
      [.placeholder "THEM", .text " and ", .placeholder "US", .placeholder "YOU"]).1 =
        .error (.unknownPlaceholder 7 "US" .unknown) := by
  obtain ⟨-, hnames, hfirst, -, hfails⟩ := placeholders_inOrder isMsgBody_nestedCases
  refine ⟨isMsgBody_nestedCases, by decide, hnames, ?_, ?_, ?_⟩
  · rw [hfirst]
    decide
  · rw [hfirst]
    decide
  · exact ((hfails 7 13 _).2 _).2 ⟨"US", by decide, rfl⟩

end Message

end Stencil
