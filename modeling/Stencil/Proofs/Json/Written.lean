/-
  Stencil/Proofs/Json/Written.lean
  ================================
  **The printer writes JSON texts** (`writerConforms_toText`).

  The lines and indents are white space, and each character of a string is
  spelled in one of the ways there are.
-/
import Mathlib.Tactic.SplitIfs
import Stencil.Json.Printer
import Stencil.Proofs.Json.Grammar
import Stencil.Proofs.Text.Split

namespace Stencil.Json

/-! ### Strings -/

/-- A control character is the value of the digits of its long escape. -/
theorem readNat?_longEscape : ∀ n < 0x20, Text.readNat? 16
    ['0', '0', Nat.digitChar (n / 16), Nat.digitChar (n % 16)] = some n := by decide

theorem spellsChar_escape (c : Char) : SpellsChar (escape c) c := by
  unfold escape
  split_ifs with hquote hslash h1 h2 h3 h4 h5 hcontrol
  · obtain rfl := beq_iff_eq.1 hquote
    exact .short (by decide)
  · obtain rfl := beq_iff_eq.1 hslash
    exact .short (by decide)
  · exact beq_iff_eq.1 h1 ▸ .short (by decide)
  · exact beq_iff_eq.1 h2 ▸ .short (by decide)
  · exact beq_iff_eq.1 h3 ▸ .short (by decide)
  · exact beq_iff_eq.1 h4 ▸ .short (by decide)
  · exact beq_iff_eq.1 h5 ▸ .short (by decide)
  · exact .unit ⟨rfl, readNat?_longEscape _ hcontrol⟩
  · exact .plain (Nat.le_of_not_lt hcontrol) (mt beq_iff_eq.2 hquote) (mt beq_iff_eq.2 hslash)

theorem spellsText_escape (text : List Char) : SpellsText (text.flatMap escape) text := by
  induction text with
  | nil => exact .nil
  | cons c rest ih => exact .cons (spellsChar_escape c) ih

/-! ### Values -/

theorem blank_newline (level : Nat) : Blank (newline level) := by
  intro c hc
  rcases List.mem_cons.1 hc with rfl | hc
  · decide
  · rw [List.eq_of_mem_replicate hc]
    decide

theorem blank_nil : Blank [] := List.forall_mem_nil _

/-- Items and members stand between line ends. -/
theorem block_eq (level : Nat) (opening closing : Char) (part : List Char)
    (parts : List (List Char)) :
    block level opening closing (part :: parts) =
      opening :: (newline (level + 1) ++
        (Text.joinWith (',' :: newline (level + 1)) (part :: parts) ++ newline level)) ++
        [closing] := by
  rw [block, List.isEmpty_cons, if_neg (by decide)]
  simp only [List.cons_append, List.append_assoc]

theorem Denotes.newline_append {cs after : List Char} {v : Json} (h : Denotes cs v) (level : Nat)
    (hafter : Blank after) : Denotes (newline level ++ (cs ++ after)) v := by
  rw [← List.append_assoc]
  exact .blank (blank_newline level) h hafter

/-- A member stands on a line of its own, with a blank before its value. -/
theorem Denotes.member {cs after : List Char} {v : Json} (h : Denotes cs v) (level : Nat)
    (name : String) (hafter : Blank after) :
    DenotesMember (newline level ++ (quoted name ++ ':' :: ' ' :: cs ++ after)) (some name, v) := by
  have hvalue : Denotes ([' '] ++ cs ++ after) v :=
    .blank (List.forall_mem_singleton.2 (by decide)) h hafter
  have hmember := DenotesMember.mk (blank_newline level) (spellsText_escape name.toList)
    blank_nil hvalue
  rw [String.ofList_toList] at hmember
  simpa [quoted] using hmember

mutual

theorem denotes_pretty : (v : Json) → Textual v → ∀ level, Denotes (pretty level v) v
  | null, _, _ => .null
  | bool true, _, _ => .true
  | bool false, _, _ => .false
  | str (some text), _, _ => by
    have h := Denotes.str (spellsText_escape text.toList)
    rwa [String.ofList_toList] at h
  | arr [], _, _ => .emptyArr blank_nil
  | arr (item :: items), h, level => by
    rw [pretty, prettyItems, block_eq]
    exact .arr (denotesItems_prettyItems (item :: items) (List.cons_ne_nil _ _) h (level + 1)
      (blank_newline level))
  | obj [], _, _ => .emptyObj blank_nil
  | obj ((name, value) :: members), h, level => by
    rw [pretty, prettyMembers, block_eq]
    exact .obj (denotesMembers_prettyMembers ((name, value) :: members) (List.cons_ne_nil _ _) h
      (level + 1) (blank_newline level))

/-- The items of an array, each on a line of its own. -/
theorem denotesItems_prettyItems : (items : List Json) → items ≠ [] → ItemsTextual items →
    ∀ level {after : List Char}, Blank after →
      DenotesItems (newline level ++
        (Text.joinWith (',' :: newline level) (prettyItems level items) ++ after)) items
  | [], hne, _, _, _, _ => absurd rfl hne
  | [item], _, h, level, after, hafter =>
    .last ((denotes_pretty item h.1 level).newline_append level hafter)
  | item :: next :: others, _, h, level, after, hafter => by
    have hitem := (denotes_pretty item h.1 level).newline_append level blank_nil
    have hothers := denotesItems_prettyItems (next :: others) (List.cons_ne_nil _ _) h.2 level hafter
    rw [prettyItems, prettyItems, Text.joinWith_cons_cons, ← prettyItems]
    simpa using DenotesItems.cons hitem hothers

/-- The members of an object, each on a line of its own. -/
theorem denotesMembers_prettyMembers : (members : List (Option String × Json)) → members ≠ [] →
    MembersTextual members → ∀ level {after : List Char}, Blank after →
      DenotesMembers (newline level ++
        (Text.joinWith (',' :: newline level) (prettyMembers level members) ++ after)) members
  | [], hne, _, _, _, _ => absurd rfl hne
  | [(some name, value)], _, h, level, after, hafter =>
    .last ((denotes_pretty value h.2.1 level).member level name hafter)
  | (some name, value) :: next :: others, _, h, level, after, hafter => by
    have hmember := (denotes_pretty value h.2.1 level).member level name blank_nil
    have hothers := denotesMembers_prettyMembers (next :: others) (List.cons_ne_nil _ _) h.2.2 level
      hafter
    rw [prettyMembers, Option.getD_some, prettyMembers, Text.joinWith_cons_cons, ← prettyMembers]
    simpa using DenotesMembers.cons hmember hothers

end

/-- **The printer conforms.** -/
theorem writerConforms_toText : WriterConforms toText := by
  intro v hv
  rw [toText, String.toList_ofList]
  exact denotes_pretty v hv 0

end Stencil.Json
