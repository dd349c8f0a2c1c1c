/-
  Stencil/Proofs/Message/Outputs.lean
  ===================================
  **What a message puts out.**

  A message puts out its texts and statements in their order, where a placeholder
  and an HTML tag stand for what is in them.  Texts that follow each other say the
  same as one text, so outputs are compared by their characters and statements.
  An assembly puts out what its items do: it neither loses nor repeats nor moves
  anything.  Names do not matter, and the statements that a message is outside of
  messages put out what the message does.
-/
import Stencil.Proofs.Message.Bare
import Stencil.Proofs.Message.Outline

namespace Stencil.Message

variable {α : Type}

/-! ### Outputs -/

/-- A text or a statement that is put out. -/
inductive Output (α : Type) where
  | text (chars : List Char)
  | statement (n : Tree α)
deriving DecidableEq

mutual

/-- What a part of a message or a statement puts out: a placeholder and an HTML
    tag are what stands in them. -/
def outputs : Tree α → List (Output α)
  | .node mark content children =>
    match content with
    | .msgText text | .rawText text => [.text text.toList]
    | .placeholder _ _ | .htmlTag _ _ _ => outputsAll children
    | _ => [.statement (.node mark content children)]

/-- What several of them put out, one after the other. -/
def outputsAll : List (Tree α) → List (Output α)
  | [] => []
  | n :: rest => outputs n ++ outputsAll rest

end

/-- What an item of a message puts out. -/
def Item.outputs : Item → List (Output Nat)
  | text chars _ => [.text chars]
  | statement draft => Message.outputs draft

/-- Text in front of outputs in which no two texts follow each other. -/
def joinBefore (chars : List Char) : List (Output α) → List (Output α)
  | .text chars' :: rest => .text (chars ++ chars') :: rest
  | rest => if chars.isEmpty then rest else .text chars :: rest

/-- The outputs with texts that follow each other joined and empty texts left
    out. -/
def joined : List (Output α) → List (Output α)
  | [] => []
  | .text chars :: rest => joinBefore chars (joined rest)
  | .statement n :: rest => .statement n :: joined rest

theorem outputsAll_append (ns ns' : List (Tree α)) :
    outputsAll (ns ++ ns') = outputsAll ns ++ outputsAll ns' := by
  induction ns with
  | nil => rfl
  | cons n rest ih => rw [List.cons_append, outputsAll, outputsAll, ih, List.append_assoc]

theorem outputsAll_singleton (n : Tree α) : outputsAll [n] = outputs n := List.append_nil _

/-! ### Characters and statements -/

/-- The characters and statements of outputs. -/
def symbols : List (Output α) → List (Char ⊕ Tree α)
  | [] => []
  | .text chars :: rest => chars.map .inl ++ symbols rest
  | .statement n :: rest => .inr n :: symbols rest

/-- The outputs that characters and statements make. -/
def gather : List (Char ⊕ Tree α) → List (Output α)
  | [] => []
  | .inl c :: rest => joinBefore [c] (gather rest)
  | .inr n :: rest => .statement n :: gather rest

theorem symbols_append (os os' : List (Output α)) :
    symbols (os ++ os') = symbols os ++ symbols os' := by
  induction os with
  | nil => rfl
  | cons o rest ih =>
    cases o with
    | text chars => rw [List.cons_append, symbols, symbols, ih, List.append_assoc]
    | statement n => rw [List.cons_append, symbols, symbols, ih, List.cons_append]

theorem joinBefore_nil (os : List (Output α)) : joinBefore [] os = os := by
  rcases os with _ | ⟨_ | _, _⟩ <;> rfl

theorem joinBefore_joinBefore (c : Char) (chars : List Char) (os : List (Output α)) :
    joinBefore [c] (joinBefore chars os) = joinBefore (c :: chars) os := by
  cases chars with
  | nil => rw [joinBefore_nil]
  | cons c' chars => rcases os with _ | ⟨_ | _, _⟩ <;> rfl

theorem gather_append (chars : List Char) (rest : List (Char ⊕ Tree α)) :
    gather (chars.map .inl ++ rest) = joinBefore chars (gather rest) := by
  induction chars with
  | nil => exact (joinBefore_nil _).symm
  | cons c chars ih => rw [List.map_cons, List.cons_append, gather, ih, joinBefore_joinBefore]

theorem joined_eq_gather (os : List (Output α)) : joined os = gather (symbols os) := by
  induction os with
  | nil => rfl
  | cons o rest ih =>
    cases o with
    | text chars => rw [joined, symbols, gather_append, ih]
    | statement n => rw [joined, symbols, gather, ih]

theorem symbols_joinBefore (chars : List Char) (os : List (Output α)) :
    symbols (joinBefore chars os) = chars.map .inl ++ symbols os := by
  rcases chars with _ | ⟨c, chars⟩
  · rw [joinBefore_nil]
    rfl
  · rcases os with _ | ⟨chars' | n, rest⟩
    · rfl
    · rw [joinBefore, symbols, symbols, List.map_append, List.append_assoc]
    · rfl

theorem symbols_joined (os : List (Output α)) : symbols (joined os) = symbols os := by
  induction os with
  | nil => rfl
  | cons o rest ih =>
    cases o with
    | text chars => rw [joined, symbols_joinBefore, symbols, ih]
    | statement n => rw [joined, symbols, symbols, ih]

/-- Joined outputs are the same just in case the characters and statements are. -/
theorem joined_eq_iff {os os' : List (Output α)} :
    joined os = joined os' ↔ symbols os = symbols os' := by
  constructor
  · intro h
    rw [← symbols_joined, h, symbols_joined]
  · intro h
    rw [joined_eq_gather, joined_eq_gather, h]

/-- The characters and statements that parts of a message or statements put out. -/
def written (ns : List (Tree α)) : List (Char ⊕ Tree α) := symbols (outputsAll ns)

theorem written_append (ns ns' : List (Tree α)) :
    written (ns ++ ns') = written ns ++ written ns' := by
  rw [written, outputsAll_append, symbols_append]
  rfl

theorem written_singleton (n : Tree α) : written [n] = symbols (outputs n) := by
  rw [written, outputsAll_singleton]

/-- Characters that are put out as text are put out one by one. -/
theorem written_reverse_textDraft {content : String → Content} {line : Nat}
    (hcontent : ∀ text, outputs (.leaf line (content text) : Draft) = [.text text.toList])
    (backwards : List Char) : written (textDraft content line backwards).reverse =
      backwards.reverse.map .inl := by
  rw [textDraft]
  split
  · rename_i hempty
    rw [List.isEmpty_iff.1 hempty]
    rfl
  · rw [written, List.reverse_singleton, outputsAll_singleton, hcontent, String.toList_ofList]
    exact List.append_nil _

/-! ### Open tags -/

namespace OpenTag

/-- What an open tag puts out so far. -/
def written (tag : OpenTag) : List (Char ⊕ Draft) :=
  Message.written tag.parts.reverse ++ tag.raw.reverse.map .inl

theorem written_flush (tag : OpenTag) : Message.written tag.flush.parts.reverse = tag.written := by
  rw [flush, List.reverse_append, written_append, written_reverse_textDraft fun _ => rfl]
  rfl

theorem written_addChar (tag : OpenTag) (c : Char) :
    (tag.addChar c).written = tag.written ++ [.inl c] := by
  rw [written, addChar, List.reverse_cons, List.map_append, ← List.append_assoc]
  rfl

theorem written_addPrint (tag : OpenTag) (expr : Expr) (print : Draft) :
    (tag.addPrint expr print).written = tag.written ++ symbols (outputs print) := by
  change Message.written (print :: tag.flush.parts).reverse ++ [] = _
  rw [List.append_nil, List.reverse_cons, written_append, written_flush, written_singleton]

theorem symbols_toPlaceholder (tag : OpenTag) :
    symbols (outputs tag.toPlaceholder) = tag.written := by
  rw [← written_flush, toPlaceholder, outputs, outputsAll_singleton, outputs]
  rfl

end OpenTag

/-! ### Assemblies -/

namespace Assembly

/-- What an assembly puts out so far. -/
def written (a : Assembly) : List (Char ⊕ Draft) :=
  Message.written a.parts.reverse ++ a.text.reverse.map .inl ++
    (a.tag.map OpenTag.written).getD []

/-- An assembly that puts out these characters and statements.  Inside of a tag
    the text before it is a part. -/
structure Holds (a : Assembly) (all : List (Char ⊕ Draft)) : Prop where
  written : a.written = all
  text : a.tag.isSome → a.text = []

variable {a a' : Assembly} {all : List (Char ⊕ Draft)}

theorem written_flush (a : Assembly) : a.flush.written = a.written := by
  rw [Assembly.written, Assembly.flush, List.reverse_append, written_append,
    written_reverse_textDraft fun _ => rfl, List.reverse_nil, List.map_nil, List.append_nil]
  rfl

/-- The assembly with one more part after its text. -/
theorem written_cons_flush (htag : a.tag = none) (part : Draft) :
    Assembly.written { a with parts := part :: a.flush.parts, text := [] } =
      a.written ++ symbols (outputs part) := by
  rw [← written_flush a, Assembly.written, Assembly.written, List.reverse_cons, written_append,
    written_singleton]
  simp [Assembly.flush, htag]

theorem Holds.addChar (h : a.Holds all) (line : Nat) (c : Char) (next : Option Char) :
    (a.addChar line c next).Holds (all ++ [.inl c]) := by
  obtain ⟨rfl, htext⟩ := h
  rw [Assembly.addChar]
  split
  · rename_i tag htag
    have hempty : a.text = [] := htext (by rw [htag]; rfl)
    have hwritten : a.written = Message.written a.parts.reverse ++ tag.written := by
      rw [Assembly.written, hempty, htag]
      exact congrArg (· ++ _) (List.append_nil _)
    dsimp only
    split
    · -- the tag is closed, and becomes a part
      refine ⟨?_, fun hnone => (by cases hnone)⟩
      rw [Assembly.written, hwritten, hempty, List.reverse_cons, written_append, written_singleton,
        OpenTag.symbols_toPlaceholder, OpenTag.written_addChar]
      simp
    · refine ⟨?_, fun _ => hempty⟩
      rw [Assembly.written, hwritten, hempty]
      simp [OpenTag.written_addChar]
  · rename_i htag
    split
    · refine ⟨?_, fun _ => rfl⟩
      have hflush := written_flush a
      rw [Assembly.written, Assembly.flush, htag] at hflush
      rw [← hflush, Assembly.written, Assembly.flush]
      simp [OpenTag.written, Message.written, outputsAll, symbols]
    · refine ⟨?_, fun hsome => ?_⟩
      · rw [Assembly.written, Assembly.written, htag]
        simp
      · rw [htag] at hsome
        cases hsome

theorem Holds.addText (h : a.Holds all) (line : Nat) (chars : List Char) :
    (a.addText line chars).Holds (all ++ chars.map .inl) := by
  induction chars generalizing a all with
  | nil => rwa [List.map_nil, List.append_nil]
  | cons c cs ih =>
    rw [List.map_cons, List.append_cons]
    exact ih (h.addChar line c cs.head?)

theorem Holds.addStatement (h : a.Holds all) (htag : a.tag = none) (d : Draft) :
    (a.addStatement d).Holds (all ++ symbols (outputs d)) := by
  obtain ⟨rfl, htext⟩ := h
  have hplace : ∀ name key, symbols (outputs (.node d.mark (.placeholder name key) [d] : Draft)) =
      symbols (outputs d) := by
    intro name key
    rw [outputs, outputsAll_singleton]
  rw [Assembly.addStatement]
  split
  · refine ⟨?_, fun _ => rfl⟩
    rw [← hplace]
    exact written_cons_flush htag _
  · refine ⟨?_, fun _ => rfl⟩
    rw [← hplace]
    exact written_cons_flush htag _

theorem Holds.addItem (h : a.Holds all) {item : Item} (hok : a.addItem item = .ok a') :
    a'.Holds (all ++ symbols item.outputs) := by
  cases item with
  | text chars line =>
    cases hok
    rw [Item.outputs, symbols, symbols, List.append_nil]
    exact h.addText line chars
  | statement d =>
    rw [Assembly.addItem] at hok
    split at hok
    · rename_i htag
      cases hok
      exact h.addStatement htag d
    · rename_i tag htag
      split at hok
      · cases hok
        obtain ⟨rfl, htext⟩ := h
        refine ⟨?_, fun _ => htext (by rw [htag]; rfl)⟩
        rw [Assembly.written, Assembly.written, htag]
        simp [OpenTag.written_addPrint, Item.outputs]
      · cases hok

theorem Holds.addItems {items : List Item} (h : a.Holds all)
    (hok : items.foldlM Assembly.addItem a = .ok a') :
    a'.Holds (all ++ symbols (items.flatMap Item.outputs)) := by
  induction items generalizing a all with
  | nil =>
    cases hok
    rwa [List.flatMap_nil, symbols, List.append_nil]
  | cons item rest ih =>
    rw [List.foldlM_cons, bind_eq_ok] at hok
    obtain ⟨mid, hmid, hok⟩ := hok
    rw [List.flatMap_cons, symbols_append, ← List.append_assoc]
    exact ih (h.addItem hmid) hok

theorem Holds.finish (h : a.Holds all) {parts : List Draft} (hok : a.finish = .ok parts) :
    Message.written parts = all := by
  obtain ⟨rfl, -⟩ := h
  rw [Assembly.finish] at hok
  split at hok
  · cases hok
  · rename_i htag
    cases hok
    rw [← written_flush, Assembly.written, Assembly.flush, htag]
    simp

end Assembly

/-- What is assembled puts out what the items do. -/
theorem symbols_of_assemble {calls after : Nat} {items : List Item} {parts : List Draft}
    (h : assemble calls items = .ok (parts, after)) :
    written parts = symbols (items.flatMap Item.outputs) := by
  simp only [assemble, bind_eq_ok] at h
  obtain ⟨a, ha, parts', hparts', h⟩ := h
  cases h
  have hstart : Assembly.Holds { calls } [] := ⟨rfl, fun _ => rfl⟩
  exact (hstart.addItems ha).finish hparts'

/-! ### Named bodies -/

theorem outputs_mapPlaceholder {g : String → PlaceholderKey → String} {part : Tree α}
    (h : IsPiece (mapPlaceholder (rename g) part).content) :
    outputs (mapPlaceholder (rename g) part) = outputs part := by
  obtain ⟨mark, content, children⟩ := part
  cases content with
  | placeholder name key => rfl
  | plural | select | case => simp [mapPlaceholder, IsPiece] at h
  | _ => rfl

/-- Naming the placeholders of a plain message does not change what it puts out. -/
theorem outputsAll_nameAll {body : List (Tree α)}
    (h : ∀ part ∈ nameAll body, IsPiece part.content) :
    outputsAll (nameAll body) = outputsAll body := by
  rw [nameAll_eq] at h ⊢
  generalize finalName (labels body) = g at h ⊢
  induction body with
  | nil => rfl
  | cons part rest ih =>
    rw [mapPlaceholders] at h ⊢
    obtain ⟨hpart, hrest⟩ := List.forall_mem_cons.1 h
    rw [outputsAll, outputsAll, outputs_mapPlaceholder hpart, ih hrest]

/-! ### Statements outside of messages -/

mutual

theorem outputsAll_flatten : (n : Node) → outputsAll (flatten n) = outputs n
  | .node mark content children => by
    have hchildren := outputsAll_flattenAll children
    cases content <;> simp only [flatten, outputs, outputsAll_singleton, hchildren]

theorem outputsAll_flattenAll : (ns : List Node) → outputsAll (flattenAll ns) = outputsAll ns
  | [] => rfl
  | n :: rest => by
    rw [flattenAll, outputsAll_append, outputsAll_flatten n, outputsAll_flattenAll rest, outputsAll]

end

theorem outputsAll_partStatements {part : Node} (h : IsPiece part.content) :
    outputsAll (partStatements part) = outputs part := by
  obtain ⟨mark, content, children⟩ := part
  rcases h with ⟨text, rfl, -⟩ | ⟨name, key, rfl⟩
  · rfl
  · exact outputsAll_flattenAll children

/-- The statements of a plain message put out what the message does. -/
theorem outputsAll_sourceStatements {msg : Node} (h : ∀ part ∈ msg.children, IsPiece part.content) :
    outputsAll (sourceStatements msg) = outputsAll msg.children := by
  rw [sourceStatements_eq]
  generalize msg.children = parts at h
  induction parts with
  | nil => rfl
  | cons part rest ih =>
    obtain ⟨hpart, hrest⟩ := List.forall_mem_cons.1 h
    rw [List.flatMap_cons, outputsAll_append, outputsAll_partStatements hpart, ih hrest, outputsAll]

/-! ### Outputs up to identities and places -/

/-- An output without marks and identities. -/
def Output.bare : Output α → Output Unit
  | text chars => .text chars
  | statement n => .statement n.bare

mutual

theorem outputs_bare : (n : Tree α) → outputs n.bare = (outputs n).map Output.bare
  | .node mark content children => by
    have hchildren := outputsAll_map_bare children
    rw [Tree.bare_node]
    cases content with
    | placeholder name key => cases key <;> exact hchildren
    | htmlTag => exact hchildren
    | _ => simp [Content.bare, outputs, Output.bare, Tree.bare_node]

theorem outputsAll_map_bare :
    (ns : List (Tree α)) → outputsAll (ns.map Tree.bare) = (outputsAll ns).map Output.bare
  | [] => rfl
  | n :: rest => by
    rw [List.map_cons, outputsAll, outputsAll, List.map_append, outputs_bare n,
      outputsAll_map_bare rest]

end

theorem symbols_map_bare (os : List (Output α)) :
    symbols (os.map Output.bare) = (symbols os).map (Sum.map id Tree.bare) := by
  induction os with
  | nil => rfl
  | cons o rest ih =>
    cases o with
    | text chars => simp [Output.bare, symbols, ih]
    | statement n => simp [Output.bare, symbols, ih]

theorem written_map_bare (ns : List (Tree α)) :
    written (ns.map Tree.bare) = (written ns).map (Sum.map id Tree.bare) := by
  rw [written, outputsAll_map_bare, symbols_map_bare]
  rfl

end Stencil.Message
