/-
  Stencil/Proofs/Message/BundleFile.lean
  ======================================
  **Bundles are read back from their files.**

  The file of a bundle is JSON text, whatever characters its texts have, and the
  bundle that is read from it is the bundle that was written, with the same
  locale and the same translations.  This holds for any writer and any reader
  that keep to RFC 8259 (`ofJson?_read_write`), and so for the printer and the
  reader here (`ofText?_toText`).
-/
import Stencil.Message.BundleFile
import Stencil.Proofs.Json.ReadBack
import Stencil.Proofs.Json.Written
import Stencil.Proofs.Outcome
import Stencil.Proofs.Text.Numerals

namespace Stencil

/-! ### Values that are written -/

namespace Json

theorem itemsTextual_of_forall {items : List Json} (h : ∀ item ∈ items, Textual item) :
    ItemsTextual items := by
  induction items with
  | nil => trivial
  | cons item rest ih =>
    obtain ⟨hitem, hrest⟩ := List.forall_mem_cons.1 h
    exact ⟨hitem, ih hrest⟩

theorem membersTextual_append {members members' : List (Option String × Json)}
    (h : MembersTextual members) (h' : MembersTextual members') :
    MembersTextual (members ++ members') := by
  induction members with
  | nil => exact h'
  | cons member rest ih => exact ⟨h.1, h.2.1, ih h.2.2⟩

theorem membersTextual_optionalMember (name : String) (text : Option String) :
    MembersTextual (optionalMember name text) := by
  cases text with
  | none => trivial
  | some text => exact ⟨rfl, rfl, trivial⟩

end Json

theorem mapM_ofJson?_toJson {α : Type} {toJson : α → Json} {ofJson? : Json → Option α}
    (h : ∀ a, ofJson? (toJson a) = some a) (as : List α) : (as.map toJson).mapM ofJson? = some as := by
  have hmapM : as.mapM (fun a => ofJson? (toJson a)) = some (as.map fun a => a) :=
    mapM_eq_pure fun a _ => h a
  rw [List.mapM_map]
  exact hmapM.trans (congrArg some (List.map_id' as))

/-! ### Translations -/

theorem TranslationPart.ofJson?_toJson (part : TranslationPart) : ofJson? part.toJson = some part := by
  cases part <;> rfl

theorem TranslationPart.textual_toJson (part : TranslationPart) : part.toJson.Textual := by
  cases part <;> exact ⟨rfl, rfl, trivial⟩

namespace Translation

theorem textual_toJson (t : Translation) : t.toJson.Textual := by
  have hparts : Json.ItemsTextual (t.parts.map (·.toJson)) :=
    Json.itemsTextual_of_forall (List.forall_mem_map.2 fun part _ => part.textual_toJson)
  refine Json.membersTextual_append (Json.membersTextual_append ?_ ?_) ⟨rfl, hparts, trivial⟩
  · exact ⟨rfl, rfl, Json.membersTextual_optionalMember "desc" t.desc⟩
  · exact Json.membersTextual_optionalMember "meaning" t.meaning

/-- The fields of a translation are found by their names, those that are missing
    too. -/
theorem exists_record?_toJson (t : Translation) : ∃ fields,
    Json.record? fieldNames t.toJson = some fields ∧
      fields.lookup "id" = some (.str (some (toString t.id.toNat))) ∧
      fields.lookup "desc" = t.desc.map (fun text => .str (some text)) ∧
      fields.lookup "meaning" = t.meaning.map (fun text => .str (some text)) ∧
      fields.lookup "parts" = some (.arr (t.parts.map (·.toJson))) := by
  obtain ⟨id, desc, meaning, parts⟩ := t
  cases desc with
  | none => cases meaning <;> exact ⟨_, rfl, rfl, rfl, rfl, rfl⟩
  | some desc => cases meaning <;> exact ⟨_, rfl, rfl, rfl, rfl, rfl⟩

theorem orNull_text? (text : Option String) :
    Json.orNull (·.text?) (text.map fun text => .str (some text)) = some text := by
  cases text <;> rfl

theorem ofJson?_toJson (t : Translation) : ofJson? t.toJson = some t := by
  obtain ⟨fields, hfields, hid, hdesc, hmeaning, hparts⟩ := t.exists_record?_toJson
  have hpartsRead := mapM_ofJson?_toJson TranslationPart.ofJson?_toJson t.parts
  have htext : (Json.str (some (toString t.id.toNat))).text? = some (toString t.id.toNat) := rfl
  rw [ofJson?, hfields]
  simp only [Option.bind_eq_bind, Option.bind_some, hid, hdesc, hmeaning, hparts, htext,
    Json.items?, orNull_text?, Text.readNat64?_toString, hpartsRead, UInt64.ofNat_toNat]

end Translation

/-! ### Bundles -/

namespace Bundle

theorem insertInto_of_before {t : Translation} {msgs : List Translation}
    (h : ∀ s ∈ msgs, s.before t) : insertInto t msgs = msgs ++ [t] := by
  induction msgs with
  | nil => rfl
  | cons s rest ih =>
    obtain ⟨hs, hrest⟩ := List.forall_mem_cons.1 h
    rw [Translation.before] at hs
    have hlt : ¬ t.id < s.id := UInt64.not_lt.2 (UInt64.le_of_lt hs)
    have hne : t.id ≠ s.id := fun heq => UInt64.lt_irrefl _ (heq ▸ hs)
    rw [insertInto, if_neg hlt, if_neg hne, ih hrest, List.cons_append]

/-- Ascending translations stay in their order. -/
theorem msgs_foldl_insert {bundle : Bundle} {msgs : List Translation}
    (h : (bundle.msgs ++ msgs).Pairwise Translation.before) :
    (msgs.foldl insert bundle).msgs = bundle.msgs ++ msgs ∧
      (msgs.foldl insert bundle).locale = bundle.locale := by
  induction msgs generalizing bundle with
  | nil => exact ⟨(List.append_nil _).symm, rfl⟩
  | cons t rest ih =>
    have hbefore : ∀ s ∈ bundle.msgs, s.before t := fun s hs =>
      (List.pairwise_append.1 h).2.2 s hs t List.mem_cons_self
    have hinsert : (bundle.insert t).msgs = bundle.msgs ++ [t] := insertInto_of_before hbefore
    rw [List.append_cons] at h
    rw [List.foldl_cons, List.append_cons, ← hinsert]
    exact ih (hinsert ▸ h)

theorem eq_of_msgs_eq {a b : Bundle} (hlocale : a.locale = b.locale) (hmsgs : a.msgs = b.msgs) :
    a = b := by
  obtain ⟨locale, msgs, _⟩ := a
  subst hlocale hmsgs
  rfl

theorem ofList_msgs (bundle : Bundle) : ofList bundle.locale bundle.msgs = bundle := by
  have hstart : (([] : List Translation) ++ bundle.msgs).Pairwise Translation.before := bundle.ascending
  obtain ⟨hmsgs, hlocale⟩ := @msgs_foldl_insert { locale := bundle.locale } _ hstart
  exact eq_of_msgs_eq hlocale hmsgs

theorem textual_toJson (bundle : Bundle) : bundle.toJson.Textual := by
  have hmsgs : Json.ItemsTextual (bundle.msgs.map (·.toJson)) :=
    Json.itemsTextual_of_forall (List.forall_mem_map.2 fun t _ => t.textual_toJson)
  exact Json.membersTextual_append (Json.membersTextual_optionalMember "locale" bundle.locale)
    ⟨rfl, hmsgs, trivial⟩

theorem exists_record?_toJson (bundle : Bundle) : ∃ fields,
    Json.record? fieldNames bundle.toJson = some fields ∧
      fields.lookup "locale" = bundle.locale.map (fun text => .str (some text)) ∧
      fields.lookup "msgs" = some (.arr (bundle.msgs.map (·.toJson))) := by
  obtain ⟨locale, msgs, ascending⟩ := bundle
  cases locale <;> exact ⟨_, rfl, rfl, rfl⟩

theorem ofJson?_toJson (bundle : Bundle) : ofJson? bundle.toJson = some bundle := by
  obtain ⟨fields, hfields, hlocale, hmsgs⟩ := bundle.exists_record?_toJson
  have hmsgsRead := mapM_ofJson?_toJson Translation.ofJson?_toJson bundle.msgs
  rw [ofJson?, hfields]
  simp only [Option.bind_eq_bind, Option.bind_some, hlocale, hmsgs, Json.items?,
    Translation.orNull_text?, hmsgsRead, ofList_msgs]

/-- **Bundle files**, whatever writes and reads them: the file of a bundle is read as the JSON
    value that the bundle is, and the bundle is that value. -/
theorem ofJson?_read_write {read : String → Option Json} {write : Json → String}
    (hread : Json.ReaderConforms read) (hwrite : Json.WriterConforms write) (bundle : Bundle) :
    read (write bundle.toJson) = some bundle.toJson ∧
      (read (write bundle.toJson)).bind ofJson? = some bundle := by
  have hvalue := hread.read_write hwrite bundle.textual_toJson
  refine ⟨hvalue, ?_⟩
  rw [hvalue, Option.bind_some, ofJson?_toJson]

/-- **Bundle files.**  The file of a bundle is the JSON text of the bundle, and the
    bundle is read back from it. -/
theorem ofText?_toText (bundle : Bundle) :
    Json.read? bundle.toText = some bundle.toJson ∧ ofText? bundle.toText = some bundle :=
  ofJson?_read_write Json.readerConforms_read? Json.writerConforms_toText bundle

example : (ofList none [{ id := 18446744073709551615, parts := [.text "\"\x01"] }]).toText =
    "\x7b\n  \"msgs\": [\n    \x7b\n      \"id\": \"18446744073709551615\",\n" ++
      "      \"parts\": [\n        \x7b\n          \"raw_text\": \"\\\"\\u0001\"\n        \x7d\n" ++
      "      ]\n    \x7d\n  ]\n\x7d" := by decide +kernel

end Bundle

end Stencil
