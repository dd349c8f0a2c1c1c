/-
  Stencil/Proofs/Ty/Reading.lean
  ==============================
  **What comes of reading a type expression.**

  Whatever a reader is given, it leaves an end of the text, and what types inherit
  from their parts holds of the type that it gives and of all that it builds.  If
  it complains, the complaint is placed by what is left of the text there, and
  says something about it: which character stands there, that the text ends
  there, or which name stands there (`TypeCause.Fits`).  Every complaint is right
  about its place, and the place is one in the text.  The recursion is bounded by
  the length of what is left, so no complaint comes of that bound.
-/
import Stencil.Proofs.Ty.Grammar

namespace Stencil

open Text (trimStart isNameStart isNamePart)
open Ty (StartsNot)

/-- What a complaint says about what is left of the text at its place. -/
def TypeCause.Fits (find? : String → Option Ty) : TypeCause → List Char → Prop
  | unexpectedAfter c, left => left.head? = some c
  | unexpected c, left => left.head? = some c ∧ isNameStart c = false
  | expectedType, left => left = []
  | expectedChar wanted found, left => left.head? = found ∧ found ≠ some wanted
  | expectedSegment, left => StartsNot isNamePart left
  | unknownType name, left => name.toList <+: left ∧ find? name = none
  | noArguments name, left => name.toList <+: left ∧ name ≠ "list" ∧ name ≠ "map"
  | expectedFieldName, left => StartsNot isNamePart left
  | duplicateField name, left => name.toList <+: left ∧ name ≠ ""
  | expectedFieldEnd, left => StartsNot (fun c => c == ',' || c == ']') left

namespace Ty.Reader

variable {find? : String → Option Ty} {B : Ty → Prop} {cs mid left : List Char}

/-! ### What a reading leaves, gives and builds -/

/-- The property holds of the types that names stand for, and of all that is read if it
    holds of its parts. -/
structure Inherits (find? : String → Option Ty) (B : Ty → Prop) : Prop where
  unknown : B .unknown
  named {name : String} {t : Ty} : find? name = some t → B t
  list {element : Ty} : B element → B (.list element)
  map {key value : Ty} : B key → B value → B (.map key value)
  record {fields : Fields} : fields.Ascending → (∀ f ∈ fields, B f.2) → B (.record fields)
  join {types : List Ty} : (∀ t ∈ types, B t) → B (join types)

/-- Fields of a record, with types of the property. -/
def AreFields (B : Ty → Prop) (fields : Fields) : Prop :=
  fields.Ascending ∧ ∀ f ∈ fields, B f.2

theorem areFields_nil : AreFields B [] := ⟨.nil, List.forall_mem_nil _⟩

theorem AreFields.insert {fields : Fields} (h : AreFields B fields) (name : String) {ty : Ty}
    (hty : B ty) : AreFields B (fields.insert name ty) := by
  refine ⟨h.1.insert name ty, fun f hf => ?_⟩
  rcases Fields.mem_insert hf with rfl | hf
  · exact hty
  · exact h.2 f hf

/-- An end of the text is left, after something with the property. -/
def Leaves {α : Type} (cs : List Char) (P : α → Prop) (r : α × List Char) : Prop :=
  r.2 <:+ cs ∧ P r.1

theorem trimStart_suffix (cs : List Char) : trimStart cs <:+ cs := List.dropWhile_suffix _

theorem suffix_of_trimStart {c : Char} (h : trimStart cs = c :: left) :
    left <:+ cs ∧ left.length < cs.length := by
  have hsuffix := trimStart_suffix cs
  rw [h] at hsuffix
  refine ⟨(List.suffix_cons c left).trans hsuffix, ?_⟩
  have hle := hsuffix.length_le
  rw [List.length_cons] at hle
  omega

/-- The complaint is right about a place in the text. -/
def IsRight (find? : String → Option Ty) (cs : List Char) (e : Complaint) : Prop :=
  ∃ left, left <:+ cs ∧ e.2 = left.length ∧ e.1.Fits find? left

theorem IsRight.mono {e : Complaint} (h : IsRight find? mid e) (hmid : mid <:+ cs) :
    IsRight find? cs e := by
  obtain ⟨left, hleft, hrest⟩ := h
  exact ⟨left, hleft.trans hmid, hrest⟩

/-- The reading builds types of the one property only, and ends well with a value of the
    other or complains rightly about a place in the text. -/
abbrev Explains {α : Type} (find? : String → Option Ty) (B : Ty → Prop) (cs : List Char)
    (P : α → Prop) (x : Reading (List Ty) α) : Prop :=
  Maintains (fun built => ∀ t ∈ built, B t) P (IsRight find? cs) x

section

variable {α : Type} {P : α → Prop}

theorem explains_fail {cause : TypeCause} (hleft : left <:+ cs) (h : cause.Fits find? left) :
    Explains find? B cs P (fail cause left : Reading (List Ty) α) := maintains_throw ⟨left, hleft, rfl, h⟩

/-- A complaint about an end of the text is one about the text. -/
theorem Explains.mono {x : Reading (List Ty) α} (h : Explains find? B mid P x) (hmid : mid <:+ cs) :
    Explains find? B cs P x := h.imp (fun _ ha => ha) fun _ he => he.mono hmid

theorem Explains.trans {x : Reading (List Ty) (α × List Char)}
    (h : Explains find? B mid (Leaves mid P) x) (hmid : mid <:+ cs) :
    Explains find? B cs (Leaves cs P) x :=
  h.imp (fun _ hr => ⟨hr.1.trans hmid, hr.2⟩) fun _ he => he.mono hmid

end

/-! ### Marks and names -/

theorem explains_expect {wanted : Char} (cs : List Char) :
    Explains find? B cs (fun rest => rest <:+ cs ∧ rest.length < cs.length)
      (expect wanted cs) := by
  rw [expect]
  split
  · rename_i c rest hcs
    split_ifs with hc
    · exact maintains_pure (suffix_of_trimStart hcs)
    · refine explains_fail (hcs ▸ trimStart_suffix cs) ⟨rfl, ?_⟩
      rwa [ne_eq, Option.some_inj]
  · exact explains_fail (List.nil_suffix) ⟨rfl, by simp⟩

theorem startsNot_of_takeWhile {p : Char → Bool} (h : (cs.takeWhile p).isEmpty) :
    StartsNot p cs := by
  cases cs with
  | nil => exact fun _ hc => (nomatch hc)
  | cons c cs =>
    rintro _ ⟨⟩
    by_contra hc
    rw [List.takeWhile_cons_of_pos (by simpa using hc)] at h
    cases h

theorem explains_readSegments (n : Nat) (cs : List Char) :
    Explains find? B cs (fun r => r.1 ++ r.2 = cs) (readSegments n cs) := by
  induction n generalizing cs with
  | zero =>
    rw [readSegments.eq_def]
    exact maintains_pure rfl
  | succ n ih =>
    rw [readSegments.eq_def]
    split
    · rename_i after heq
      cases heq
      dsimp only
      split_ifs with hempty
      · exact explains_fail (List.suffix_cons _ _) (startsNot_of_takeWhile hempty)
      · have hsuffix : after.dropWhile isNamePart <:+ '.' :: after :=
          (List.dropWhile_suffix _).trans (List.suffix_cons _ _)
        refine maintains_bind ((ih _).mono hsuffix) fun r hr => maintains_pure ?_
        rw [List.cons_append, List.cons_append, List.append_assoc, hr,
          List.takeWhile_append_dropWhile]
    · exact maintains_pure rfl

theorem explains_readName (cs : List Char) :
    Explains find? B cs (fun r => r.1.toList ++ r.2 = cs) (readName cs) := by
  rw [readName]
  refine maintains_bind ((explains_readSegments _ _).mono (List.dropWhile_suffix _))
    fun r hr => maintains_pure ?_
  rw [String.toList_ofList, List.append_assoc, hr, List.takeWhile_append_dropWhile]

/-! ### Types -/

theorem explains_listing {types : List Ty} (h : B (join types)) :
    Explains find? B cs B (liftM (listing types)) := by
  refine fun built hbuilt => ⟨List.forall_mem_cons.2 ⟨h, hbuilt⟩, fun t ht => ?_, fun e he => ?_⟩
  · cases ht
    exact h
  · cases he

mutual

theorem explains_readAlternatives (hB : Inherits find? B) :
    (n : Nat) → (cs : List Char) → 2 * cs.length + 2 ≤ n →
      Explains find? B cs (Leaves cs B) (readAlternatives find? listing n cs)
  | 0, _, hn => by omega
  | n + 1, cs, hn => by
    rw [readAlternatives]
    refine maintains_bind (explains_readAlternative hB n cs (by omega)) fun r hr => ?_
    obtain ⟨first, rest⟩ := r
    obtain ⟨hrest, hfirst⟩ := hr
    have hle := hrest.length_le
    dsimp only at hrest hle hfirst ⊢
    refine maintains_bind ((explains_readOthers hB n rest (by omega)).trans hrest) fun r hr => ?_
    obtain ⟨others, rest'⟩ := r
    obtain ⟨hrest', hothers⟩ := hr
    have hjoin : B (join (first :: others)) := hB.join (List.forall_mem_cons.2 ⟨hfirst, hothers⟩)
    dsimp only
    split
    · exact maintains_pure ⟨hrest', hfirst⟩
    · exact maintains_bind (explains_listing hjoin) fun _ ht => maintains_pure ⟨hrest', ht⟩

theorem explains_readOthers (hB : Inherits find? B) :
    (n : Nat) → (cs : List Char) → 2 * cs.length + 1 ≤ n →
      Explains find? B cs (Leaves cs fun ts => ∀ t ∈ ts, B t) (readOthers find? listing n cs)
  | 0, _, hn => by omega
  | n + 1, cs, hn => by
    rw [readOthers]
    split
    · rename_i after hbar
      obtain ⟨hafter, hlt⟩ := suffix_of_trimStart hbar
      refine maintains_bind ((explains_readAlternative hB n after (by omega)).mono hafter)
        fun r hr => ?_
      obtain ⟨first, rest⟩ := r
      obtain ⟨hrest, hfirst⟩ := hr
      have hle := hrest.length_le
      dsimp only at hrest hle ⊢
      refine maintains_bind ((explains_readOthers hB n rest (by omega)).trans
        (hrest.trans hafter)) fun r hr => ?_
      exact maintains_pure ⟨hr.1, List.forall_mem_cons.2 ⟨hfirst, hr.2⟩⟩
    · exact maintains_pure ⟨trimStart_suffix cs, List.forall_mem_nil _⟩

theorem explains_readAlternative (hB : Inherits find? B) :
    (n : Nat) → (cs : List Char) → 2 * cs.length + 1 ≤ n →
      Explains find? B cs (Leaves cs B) (readAlternative find? listing n cs)
  | 0, _, hn => by omega
  | n + 1, cs, hn => by
    rw [readAlternative]
    split
    · exact explains_fail List.nil_suffix rfl
    · rename_i hquestion
      exact maintains_pure ⟨(suffix_of_trimStart hquestion).1, hB.unknown⟩
    · rename_i inside hopen
      obtain ⟨hinside, hlt⟩ := suffix_of_trimStart hopen
      split
      · rename_i hclose
        exact maintains_pure ⟨(suffix_of_trimStart hclose).1.trans hinside,
          hB.record .nil (List.forall_mem_nil _)⟩
      · have hle := (trimStart_suffix inside).length_le
        exact (explains_readFields hB n areFields_nil (trimStart inside) (by omega)).trans
          ((trimStart_suffix inside).trans hinside)
    · rename_i c cs' _ _ hstart
      have hleft : c :: cs' <:+ cs := hstart ▸ trimStart_suffix cs
      dsimp only
      split_ifs with hc
      · refine maintains_bind ((explains_readName _).mono hleft) fun r hname => ?_
        obtain ⟨name, rest⟩ := r
        dsimp only at hname ⊢
        have hrest : rest <:+ cs := List.IsSuffix.trans ⟨_, hname⟩ hleft
        have hle := hrest.length_le
        have hbegin : name.toList <+: c :: cs' := ⟨rest, hname⟩
        split
        · rename_i after hangle
          obtain ⟨hafter, hlt⟩ := suffix_of_trimStart hangle
          have hafter := hafter.trans hrest
          split_ifs with hlist hmap
          · refine maintains_bind ((explains_readAlternatives hB n after (by omega)).trans hafter)
              fun r hr => ?_
            obtain ⟨hmid, helement⟩ := hr
            refine maintains_bind ((explains_expect r.2).mono hmid) fun last hlast => ?_
            exact maintains_pure ⟨hlast.1.trans hmid, hB.list helement⟩
          · refine maintains_bind ((explains_readAlternatives hB n after (by omega)).mono hafter)
              fun r hr => ?_
            obtain ⟨hmid, hkey⟩ := hr
            have hmidLe := hmid.length_le
            have hmid := hmid.trans hafter
            refine maintains_bind ((explains_expect r.2).mono hmid) fun second hsecond => ?_
            obtain ⟨hsecond, hsecondLt⟩ := hsecond
            have hsecond := hsecond.trans hmid
            refine maintains_bind ((explains_readAlternatives hB n second (by omega)).trans
              hsecond) fun r' hr' => ?_
            obtain ⟨hmid', hvalue⟩ := hr'
            refine maintains_bind ((explains_expect r'.2).mono hmid') fun last hlast => ?_
            exact maintains_pure ⟨hlast.1.trans hmid', hB.map hkey hvalue⟩
          · exact explains_fail hleft ⟨hbegin, hlist, hmap⟩
        · split
          · rename_i hfound
            exact maintains_pure ⟨(trimStart_suffix rest).trans hrest, hB.named hfound⟩
          · rename_i hfind
            exact explains_fail hleft ⟨hbegin, hfind⟩
      · exact maintains_throw_bind ⟨c :: cs', hleft, rfl, rfl, by simpa using hc⟩ _

theorem explains_readFields (hB : Inherits find? B) :
    (n : Nat) → {fields : Fields} → AreFields B fields → (cs : List Char) →
      2 * cs.length + 2 ≤ n → Explains find? B cs (Leaves cs B) (readFields find? listing n fields cs)
  | 0, _, _, _, hn => by omega
  | n + 1, fields, hfields, cs, hn => by
    have hleft := trimStart_suffix cs
    have hdrop : (trimStart cs).dropWhile isNamePart <:+ cs :=
      (List.dropWhile_suffix _).trans hleft
    have hdropLe := hdrop.length_le
    rw [readFields]
    dsimp only
    split
    · rename_i hempty
      refine maintains_throw_bind ⟨trimStart cs, hleft, rfl, ?_⟩ _
      apply startsNot_of_takeWhile
      rw [← String.toList_ofList (l := (trimStart cs).takeWhile isNamePart),
        String.isEmpty_iff.1 hempty]
      rfl
    · rename_i hempty
      refine maintains_bind ((explains_expect _).mono hdrop) fun rest hrest => ?_
      obtain ⟨hrest, hlt⟩ := hrest
      have hrest := hrest.trans hdrop
      refine maintains_bind ((explains_readAlternatives hB n rest (by omega)).mono hrest)
        fun r hr => ?_
      obtain ⟨ty, rest'⟩ := r
      obtain ⟨hrest', hty⟩ := hr
      have hle := hrest'.length_le
      have hrest' := hrest'.trans hrest
      dsimp only at hle hrest' hty ⊢
      split
      · refine maintains_throw_bind ⟨trimStart cs, hleft, rfl, ?_, ?_⟩ _
        · rw [String.toList_ofList]
          exact List.takeWhile_prefix _
        · intro hname
          exact hempty (hname ▸ rfl)
      · have hmore := hfields.insert (String.ofList ((trimStart cs).takeWhile isNamePart)) hty
        split
        · rename_i after hcomma
          obtain ⟨hafter, hafterLt⟩ := suffix_of_trimStart hcomma
          exact (explains_readFields hB n hmore after (by omega)).trans (hafter.trans hrest')
        · rename_i after hclose
          exact maintains_pure ⟨(suffix_of_trimStart hclose).1.trans hrest',
            hB.record hmore.1 hmore.2⟩
        · rename_i hcomma hclose
          refine explains_fail ((trimStart_suffix rest').trans hrest') ?_
          intro c hc
          obtain ⟨after, hafter⟩ := List.head?_eq_some_iff.1 hc
          rw [Bool.or_eq_false_iff, beq_eq_false_iff_ne, beq_eq_false_iff_ne]
          constructor
          · rintro rfl
            exact hcomma after hafter
          · rintro rfl
            exact hclose after hafter

end

theorem explains_readAll (hB : Inherits find? B) (cs : List Char) :
    Explains find? B cs B (readAll find? listing cs) := by
  rw [readAll]
  refine maintains_bind (explains_readAlternatives hB _ cs (Nat.le_refl _)) fun r hr => ?_
  obtain ⟨ty, rest⟩ := r
  obtain ⟨hrest, hty⟩ := hr
  dsimp only at hrest hty ⊢
  split
  · exact maintains_pure hty
  · rename_i c after hafter
    exact explains_fail (hafter ▸ (trimStart_suffix rest).trans hrest) rfl

end Ty.Reader

namespace TypeRegistry

/-- The column of a complaint is the one of a place in the text, counted from one, and what
    the complaint says holds of the text from there on. -/
theorem exists_fits_of_read {registry : TypeRegistry} {source : List Char} {e : TypeError}
    (h : (registry.read source).1 = .error e) : ∃ before left, source = before ++ left ∧
      e.column = before.length + 1 ∧ e.cause.Fits registry.find? left := by
  have hB : Ty.Reader.Inherits registry.find? fun _ => True :=
    ⟨trivial, fun _ => trivial, fun _ => trivial, fun _ _ => trivial, fun _ _ => trivial,
      fun _ => trivial⟩
  obtain ⟨-, -, hright⟩ := Ty.Reader.explains_readAll hB source [] (List.forall_mem_nil _)
  rw [read_eq] at h
  cases hrun : (Ty.Reader.readAll registry.find? Ty.Reader.listing source).run.run [] with
  | mk outcome built =>
    rw [hrun] at h hright
    cases outcome with
    | ok t => cases h
    | error complaint =>
      obtain ⟨left, hleft, hlength, hfits⟩ := hright complaint rfl
      obtain ⟨before, hsource⟩ := hleft
      cases h
      refine ⟨before, left, hsource.symm, ?_, hfits⟩
      dsimp only
      rw [hlength, ← hsource, List.length_append, Nat.add_sub_cancel]

end TypeRegistry

end Stencil
