/-
  Stencil/Proofs/Text/DottedNames.lean
  ====================================
  **Names of several segments.**

  A dotted name goes on with a dot and a dotted name, so completing a short name by
  a namespace, or the rest of a name by the namespace of an alias, gives a name of
  two segments or more.
-/
import Stencil.Body.Scope
import Stencil.Proofs.Text.Split

namespace Stencil.Text

/-- The segments of a name between its dots. -/
def segments (name : List Char) : List (List Char) := splitOn (· == '.') name

theorem isDottedName_iff {name : List Char} :
    isDottedName name ↔ ∀ s ∈ segments name, isIdentifier s := by
  rw [isDottedName, List.all_eq_true]
  rfl

/-- A dotted name of at least two segments. -/
def IsQualified (name : String) : Prop :=
  2 ≤ (segments name.toList).length ∧ ∀ s ∈ segments name.toList, isIdentifier s

theorem segments_ne_nil (name : List Char) : segments name ≠ [] := splitOn_ne_nil _ name

theorem length_segments_pos (name : List Char) : 0 < (segments name).length :=
  List.length_pos_iff.2 (segments_ne_nil name)

/-- A name that goes on after a dot has the segments of both parts. -/
theorem segments_append_dot (name rest : List Char) :
    segments (name ++ '.' :: rest) = segments name ++ segments rest :=
  splitOn_append_cons rfl name rest

theorem segments_eq_singleton {name : List Char} (h : '.' ∉ name) : segments name = [name] :=
  splitOn_eq_singleton fun _ hc => beq_false_of_ne (ne_of_mem_of_not_mem hc h)

theorem joinWith_segments (name : List Char) : joinWith ['.'] (segments name) = name :=
  joinWith_splitOn '.' name

theorem segments_joinWith {piece : List Char} {pieces : List (List Char)} (h : '.' ∉ piece)
    (hpieces : ∀ p ∈ pieces, '.' ∉ p) :
    segments (joinWith ['.'] (piece :: pieces)) = piece :: pieces :=
  splitOn_joinWith (List.forall_mem_cons.2 ⟨h, hpieces⟩) (List.cons_ne_nil _ _)

/-- An identifier has no dot in it. -/
theorem dot_notMem_of_isIdentifier {name : List Char} (h : isIdentifier name) : '.' ∉ name := by
  cases name with
  | nil => exact List.not_mem_nil
  | cons c cs =>
    obtain ⟨hstart, hrest⟩ := Bool.and_eq_true_iff.1 h
    rw [List.mem_cons, not_or]
    refine ⟨?_, fun hdot => ?_⟩
    · rintro rfl
      exact absurd hstart (by decide)
    · exact absurd (List.all_eq_true.1 hrest '.' hdot) (by decide)

/-- A dotted name goes on with a dot and a dotted name. -/
theorem isQualified_append_dot {name : String} {rest : List Char} (hname : isDottedName name.toList)
    (hrest : isDottedName rest) : IsQualified (name ++ String.ofList ('.' :: rest)) := by
  rw [isDottedName_iff] at hname hrest
  rw [IsQualified, String.toList_append, String.toList_ofList, segments_append_dot]
  refine ⟨?_, List.forall_mem_append.2 ⟨hname, hrest⟩⟩
  have hpos := length_segments_pos name.toList
  have hpos' := length_segments_pos rest
  rw [List.length_append]
  omega

/-- A name is its first segment, or goes on after that with a dot. -/
theorem exists_of_dot_mem {name : List Char} (h : '.' ∈ name) :
    ∃ rest, name.dropWhile (· != '.') = '.' :: rest ∧
      segments name = name.takeWhile (· != '.') :: segments rest := by
  have hne : name.dropWhile (· != '.') ≠ [] := by
    intro hnil
    rw [← List.takeWhile_append_dropWhile (p := (· != '.')) (l := name), hnil, List.append_nil] at h
    exact absurd (List.all_eq_true.1 List.all_takeWhile '.' h) (by decide)
  obtain ⟨c, rest, hdrop⟩ := List.exists_cons_of_ne_nil hne
  have hc : c = '.' := by
    have hhead := List.head_dropWhile_not (· != '.') hne
    simpa [hdrop] using hhead
  subst hc
  refine ⟨rest, hdrop, ?_⟩
  have hfirst : '.' ∉ name.takeWhile (· != '.') := by
    intro hdot
    exact absurd (List.all_eq_true.1 List.all_takeWhile '.' hdot) (by decide)
  have hname : name = name.takeWhile (· != '.') ++ '.' :: rest := by
    rw [← hdrop, List.takeWhile_append_dropWhile]
  rw [hname, segments_append_dot, ← hname, segments_eq_singleton hfirst]
  rfl

end Stencil.Text

namespace Stencil.Scope

open Text (IsQualified isDottedName isDottedName_iff segments)

/-- The namespaces that a scope names are dotted names. -/
structure Sound (scope : Scope) : Prop where
  namespaceName : isDottedName scope.namespaceName.toList
  aliases : ∀ a ∈ scope.aliases, isDottedName a.namespaceName.toList

variable {scope : Scope} {name : List Char}

theorem isQualified_complete (h : scope.Sound) (hname : isShort name) :
    IsQualified (scope.complete name) := by
  rw [isShort.eq_def] at hname
  split at hname
  · refine Text.isQualified_append_dot h.namespaceName (isDottedName_iff.2 fun s hs => ?_)
    rw [Text.segments_eq_singleton (Text.dot_notMem_of_isIdentifier hname),
      List.mem_singleton] at hs
    rwa [hs]
  · cases hname

theorem isQualified_of_isFull (hname : isFull name) : IsQualified (String.ofList name) := by
  obtain ⟨hdot, hdotted⟩ := Bool.and_eq_true_iff.1 hname
  obtain ⟨rest, -, hsegments⟩ := Text.exists_of_dot_mem (by simpa using hdot)
  rw [IsQualified, String.toList_ofList]
  refine ⟨?_, isDottedName_iff.1 hdotted⟩
  have hpos := Text.length_segments_pos rest
  rw [hsegments, List.length_cons]
  omega

theorem isQualified_resolveAlias (h : scope.Sound) (hname : isFull name) :
    IsQualified (scope.resolveAlias name) := by
  rw [resolveAlias]
  split
  · rename_i found hfound
    obtain ⟨hdot, hdotted⟩ := Bool.and_eq_true_iff.1 hname
    obtain ⟨rest, hdrop, hsegments⟩ := Text.exists_of_dot_mem (by simpa using hdot)
    rw [hdrop]
    refine Text.isQualified_append_dot (h.aliases found (List.mem_of_find?_eq_some hfound)) ?_
    rw [isDottedName_iff, hsegments] at hdotted
    exact isDottedName_iff.2 fun s hs => hdotted s (List.mem_cons_of_mem _ hs)
  · exact isQualified_of_isFull hname

/-- Whatever a call names, it is a name of several segments. -/
theorem isQualified_of_callee? (h : scope.Sound) {full : String}
    (hfull : scope.callee? name = some full) :
    IsQualified full := by
  rw [callee?] at hfull
  split at hfull
  · rename_i hshort
    cases hfull
    exact isQualified_complete h hshort
  · split at hfull
    · rename_i hlong
      cases hfull
      exact isQualified_resolveAlias h hlong
    · cases hfull

end Stencil.Scope
