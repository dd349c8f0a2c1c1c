/-
  Stencil/Proofs/Ty/ReadBack.lean
  ===============================
  **Reading what a type is written as.**

  Every type that a type expression can denote is written as a derivation of it, so
  reading its text gives it again and builds no union but those in it (`reads_chars`).
  The members of a union are written one by one and joined, which puts them back in
  order.
-/
import Stencil.Proofs.Ty.Acceptance

namespace Stencil

open Text (joinWith joinWith_cons)
open TypeToken (mark word Spelled)

namespace TypeToken

/-- The text is that of the tokens, whatever follows. -/
def Writes (tokens : List TypeToken) (cs : List Char) : Prop :=
  ∀ rest, Spelled tokens (cs ++ rest) rest

variable {tokens more : List TypeToken} {cs cs' : List Char}

theorem writes_nil : Writes [] [] := fun rest => .refl rest

theorem writes_blank : Writes [] [' '] := fun rest => @Spelled.nil [' '] rest (by decide)

theorem writes_chars (token : TypeToken) : Writes [token] token.chars := fun rest =>
  @Spelled.cons [] rest rest token [] rfl (.refl rest)

theorem Writes.append (h : Writes tokens cs) (h' : Writes more cs') :
    Writes (tokens ++ more) (cs ++ cs') := by
  intro rest
  rw [List.append_assoc]
  exact (h _).append (h' rest)

end TypeToken

open TypeToken (Writes writes_nil writes_blank writes_chars)

namespace Ty

/-! ### How types are written -/

/-- The members of a union in the order in which they are written. -/
def nullLast (ms : List Ty) : List Ty := ms.filter (!·.isNull) ++ ms.filter (·.isNull)

theorem mem_nullLast {m : Ty} {ms : List Ty} : m ∈ nullLast ms ↔ m ∈ ms := by
  simp only [nullLast, List.mem_append, List.mem_filter]
  cases m.isNull <;> simp

theorem length_nullLast (ms : List Ty) : (nullLast ms).length = ms.length := by
  induction ms with
  | nil => rfl
  | cons m rest ih =>
    simp only [nullLast, List.length_append] at ih
    cases hm : m.isNull <;> simp [nullLast, hm] <;> omega

theorem eq_null_of_isNull {t : Ty} (h : t.isNull) : t = .null := by
  cases t <;> first | rfl | cases h

theorem filter_isNull {ms : List Ty} (h : ms.Nodup) :
    (ms.filter (·.isNull)).map chars = if ms.any isNull then ["null".toList] else [] := by
  induction ms with
  | nil => rfl
  | cons m rest ih =>
    obtain ⟨hm, hrest⟩ := List.nodup_cons.1 h
    cases hnull : m.isNull with
    | false => simp [hnull, ih hrest]
    | true =>
      obtain rfl := eq_null_of_isNull hnull
      have hother : rest.filter (·.isNull) = [] := by
        refine List.filter_eq_nil_iff.2 fun t ht hnull => hm ?_
        exact eq_null_of_isNull hnull ▸ ht
      rw [List.filter_cons_of_pos hnull, hother, List.any_cons, hnull]
      rfl

/-- A union is written as its members, with bars between them. -/
theorem chars_union_eq {ms : List Ty} (h : AreMembers ms) :
    (union ms).chars = joinWith ['|'] ((nullLast ms).map chars) := by
  rw [chars_union, memberChars_eq_map, ← filter_isNull h.ascending.nodup, ← List.map_append]
  rfl

/-- The members of a union, as they are written, make the union again. -/
theorem AreMembers.join_nullLast {ms : List Ty} (hms : AreMembers ms) :
    join (nullLast ms) = .union ms := by
  have hflat : ∀ m ∈ nullLast ms, m.members = [m] := fun m hm =>
    members_of_not_isUnion (hms.flat m (mem_nullLast.1 hm))
  refine join_eq_union hms.two_le hms.ascending hms.any_not_mem fun m => ?_
  rw [List.mem_flatMap, ← mem_nullLast]
  constructor
  · rintro ⟨t, ht, hm⟩
    rw [hflat t ht] at hm
    exact List.mem_singleton.1 hm ▸ ht
  · exact fun hm => ⟨m, hm, hflat m hm ▸ List.mem_cons_self⟩

/-! ### What types are written as -/

variable {find? : String → Option Ty} {known : List Ty}

/-- The type is written as a derivation of it. -/
def IsWritten (find? : String → Option Ty) (known : List Ty) (t : Ty) : Prop :=
  ∃ tokens, IsType find? known tokens t ∧ Writes tokens t.chars

/-- The same for the type as one of several alternatives. -/
def IsWrittenAlone (find? : String → Option Ty) (known : List Ty) (t : Ty) : Prop :=
  ∃ tokens, IsAlt find? known tokens t ∧ Writes tokens t.chars

theorem IsWrittenAlone.isWritten {t : Ty} (h : IsWrittenAlone find? known t) :
    IsWritten find? known t := by
  obtain ⟨tokens, halt, hwrites⟩ := h
  exact ⟨tokens, .single halt, hwrites⟩

/-! #### Names, lists and maps -/

theorem isWrittenAlone_unknown : IsWrittenAlone find? known .unknown :=
  ⟨_, .unknown, writes_chars (mark '?')⟩

theorem isWrittenAlone_named (hfind : Names find?) {name : String} {t : Ty}
    (hname : IsTypeName name.toList) (hfound : find? name = some t) :
    IsWrittenAlone find? known t := by
  refine ⟨[word name.toList], .name hname (by rwa [String.ofList_toList]), ?_⟩
  rw [(hfind _ _ hfound).2]
  exact writes_chars (word name.toList)

theorem isWrittenAlone_list {element : Ty} (h : IsWritten find? known element) :
    IsWrittenAlone find? known (.list element) := by
  obtain ⟨tokens, htype, hwrites⟩ := h
  have htext : (list element).chars = "list".toList ++ (['<'] ++ (element.chars ++ ['>'])) := by
    simp [chars_list]
  refine ⟨_, .list htype, ?_⟩
  rw [htext]
  have hinside := (writes_chars (mark '<')).append (hwrites.append (writes_chars (mark '>')))
  exact (writes_chars (word "list".toList)).append hinside

theorem isWrittenAlone_map {key value : Ty} (hkey : IsWritten find? known key)
    (hvalue : IsWritten find? known value) : IsWrittenAlone find? known (.map key value) := by
  obtain ⟨tokens, hkey, hwrites⟩ := hkey
  obtain ⟨more, hvalue, hwrites'⟩ := hvalue
  have htext : (map key value).chars =
      "map".toList ++ (['<'] ++ (key.chars ++ ([','] ++ ([' '] ++ (value.chars ++ ['>']))))) := by
    simp [chars_map]
  refine ⟨_, .map hkey hvalue, ?_⟩
  rw [htext]
  have hsecond := writes_blank.append (hwrites'.append (writes_chars (mark '>')))
  have hinside := hwrites.append ((writes_chars (mark ',')).append hsecond)
  exact (writes_chars (word "map".toList)).append ((writes_chars (mark '<')).append hinside)

/-! #### Records -/

/-- A field as it is written. -/
def fieldText (f : String × Ty) : List Char := f.1.toList ++ ([':'] ++ ([' '] ++ f.2.chars))

/-- The fields after the first as they are written. -/
def fieldsText (fields : Fields) : List Char :=
  fields.flatMap fun f => [','] ++ ([' '] ++ fieldText f)

theorem chars_record_cons (f : String × Ty) (fields : Fields) :
    (record (f :: fields)).chars = ['['] ++ ((fieldText f ++ fieldsText fields) ++ [']']) := by
  rw [chars_record, fieldChars_eq_map, List.map_cons, joinWith_cons]
  simp [fieldText, fieldsText, List.flatMap_map]

theorem exists_isFieldList {f : String × Ty} {fields : Fields}
    (hsegments : ∀ g ∈ f :: fields, IsSegment g.1.toList)
    (htypes : ∀ g ∈ f :: fields, IsWritten find? known g.2) :
    ∃ tokens, IsFieldList find? known tokens (f :: fields) ∧
      Writes tokens (fieldText f ++ fieldsText fields) := by
  have hfield : ∀ {g : String × Ty} {tokens : List TypeToken}, Writes tokens g.2.chars →
      Writes (word g.1.toList :: mark ':' :: tokens) (fieldText g) := fun h =>
    (writes_chars (word _)).append ((writes_chars (mark ':')).append
      (writes_blank.append h))
  induction fields generalizing f with
  | nil =>
    obtain ⟨tokens, htype, hwrites⟩ := htypes f List.mem_cons_self
    have hsingle : IsFieldList find? known _ [(String.ofList f.1.toList, f.2)] :=
      .single (hsegments f List.mem_cons_self) htype
    rw [String.ofList_toList] at hsingle
    refine ⟨_, hsingle, ?_⟩
    rw [fieldsText, List.flatMap_nil, List.append_nil]
    exact hfield hwrites
  | cons g fields ih =>
    obtain ⟨hsegment, hsegments⟩ := List.forall_mem_cons.1 hsegments
    obtain ⟨htype, htypes⟩ := List.forall_mem_cons.1 htypes
    obtain ⟨tokens, htype, hwrites⟩ := htype
    obtain ⟨more, hmore, hwrites'⟩ := ih hsegments htypes
    have hcons : IsFieldList find? known _ ((String.ofList f.1.toList, f.2) :: g :: fields) :=
      .cons hsegment htype hmore
    rw [String.ofList_toList] at hcons
    refine ⟨_, hcons, ?_⟩
    have htext : fieldsText (g :: fields) =
        [','] ++ ([' '] ++ (fieldText g ++ fieldsText fields)) := by simp [fieldsText]
    rw [htext]
    have hnext := (writes_chars (mark ',')).append (writes_blank.append hwrites')
    exact (hfield hwrites).append hnext

theorem isWrittenAlone_record {fields : Fields} (hascending : fields.Ascending)
    (hsegments : ∀ f ∈ fields, IsSegment f.1.toList)
    (htypes : ∀ f ∈ fields, IsWritten find? known f.2) :
    IsWrittenAlone find? known (.record fields) := by
  cases fields with
  | nil => exact ⟨_, .emptyRecord, (writes_chars (mark '[')).append (writes_chars (mark ']'))⟩
  | cons f fields =>
    obtain ⟨tokens, hfields, hwrites⟩ := exists_isFieldList hsegments htypes
    refine ⟨_, .record hfields hascending (List.Perm.refl _), ?_⟩
    rw [chars_record_cons]
    exact (writes_chars (mark '[')).append (hwrites.append (writes_chars (mark ']')))

/-! #### Unions -/

/-- The alternatives after the first as they are written. -/
def othersText (others : List Ty) : List Char := others.flatMap fun t => ['|'] ++ t.chars

theorem exists_isAltList {others : List Ty} (h : ∀ t ∈ others, IsWrittenAlone find? known t) :
    ∃ tokens, IsAltList find? known tokens others ∧ Writes tokens (othersText others) := by
  induction others with
  | nil => exact ⟨[], .nil, writes_nil⟩
  | cons t others ih =>
    obtain ⟨ht, hothers⟩ := List.forall_mem_cons.1 h
    obtain ⟨tokens, halt, hwrites⟩ := ht
    obtain ⟨more, hmore, hwrites'⟩ := ih hothers
    exact ⟨_, .cons halt hmore, ((writes_chars (mark '|')).append hwrites).append hwrites'⟩

/-- A union is written once its members are. -/
theorem isWritten_union {ms : List Ty} (hms : AreMembers ms) (hknown : .union ms ∈ known)
    (hmembers : ∀ m ∈ ms, IsWrittenAlone find? known m) : IsWritten find? known (.union ms) := by
  have hlength := length_nullLast ms
  have htwo := hms.two_le
  have hlast : ∀ m ∈ nullLast ms, IsWrittenAlone find? known m :=
    fun m hm => hmembers m (mem_nullLast.1 hm)
  have hjoin := hms.join_nullLast
  rw [IsWritten, chars_union_eq hms, ← hjoin]
  rw [← hjoin] at hknown
  clear hjoin
  generalize nullLast ms = types at hlength hlast hknown
  rcases types with _ | ⟨first, _ | ⟨second, others⟩⟩
  · rw [← hlength, List.length_nil] at htwo
    omega
  · rw [← hlength, List.length_singleton] at htwo
    omega
  · obtain ⟨hfirst, hothers⟩ := List.forall_mem_cons.1 hlast
    obtain ⟨tokens, halt, hwrites⟩ := hfirst
    obtain ⟨more, hmore, hwrites'⟩ := exists_isAltList hothers
    have htext : joinWith ['|'] ((first :: second :: others).map chars) =
        first.chars ++ othersText (second :: others) := by
      rw [List.map_cons, joinWith_cons, List.flatMap_map]
      rfl
    rw [htext]
    exact ⟨_, .union halt hmore hknown, hwrites.append hwrites'⟩

/-! ### Every type that can be denoted -/

theorem isWritten_and_isWrittenAlone (hfind : Names find?) {t : Ty} (h : Denoted find? known t) :
    IsWritten find? known t ∧ (t.isUnion = false → IsWrittenAlone find? known t) := by
  have hboth : ∀ {t : Ty}, IsWrittenAlone find? known t →
      IsWritten find? known t ∧ (t.isUnion = false → IsWrittenAlone find? known t) :=
    fun h => ⟨h.isWritten, fun _ => h⟩
  induction h with
  | unknown => exact hboth isWrittenAlone_unknown
  | named hname hfound => exact hboth (isWrittenAlone_named hfind hname hfound)
  | list _ ih => exact hboth (isWrittenAlone_list ih.1)
  | map _ _ ihkey ihvalue => exact hboth (isWrittenAlone_map ihkey.1 ihvalue.1)
  | record hascending hsegments _ ih =>
    exact hboth (isWrittenAlone_record hascending hsegments fun f hf => (ih f hf).1)
  | union hms hknown _ ih =>
    refine ⟨isWritten_union hms hknown fun m hm => ?_, fun hflat => (nomatch hflat)⟩
    exact (ih m hm).2 (hms.flat m hm)

/-- The text of a type that can be denoted is read as the type. -/
theorem Reader.reads_chars (hfind : Names find?) {t : Ty} (h : Denoted find? known t) :
    Reads known (readAll find? listing t.chars) t := by
  obtain ⟨tokens, htype, hwrites⟩ := (isWritten_and_isWrittenAlone hfind h).1
  have hspelled := hwrites []
  rw [List.append_nil] at hspelled
  exact reads_readAll htype hspelled

end Ty

end Stencil
