/-
  Stencil/Message/Bundle.lean
  ===========================
  **Bundles of translations.**

  A translation of a message is a sequence of text and names of placeholders.
  A bundle holds at most one translation per identity, in ascending order.
-/
import Stencil.Message.Fingerprint

namespace Stencil

/-- A piece of a translation. -/
inductive TranslationPart where
  | text (text : String)
  | placeholder (name : String)
deriving DecidableEq, Repr

/-- A translation of a message. -/
structure Translation where
  id : MsgId
  desc : Option String := none
  meaning : Option String := none
  parts : List TranslationPart
deriving DecidableEq, Repr

/-- Translations are ordered by identity. -/
def Translation.before (s t : Translation) : Prop := s.id < t.id

/-- Translations for a locale, in ascending order of identity. -/
structure Bundle where
  locale : Option String := none
  msgs : List Translation := []
  ascending : msgs.Pairwise Translation.before := by exact .nil

namespace Bundle

/-- Ascending translations with one added, which replaces one of the same
    identity. -/
def insertInto (t : Translation) : List Translation → List Translation
  | [] => [t]
  | s :: rest =>
    if t.id < s.id then t :: s :: rest
    else if t.id = s.id then t :: rest
    else s :: insertInto t rest

theorem mem_insertInto {t u : Translation} {msgs : List Translation}
    (h : u ∈ insertInto t msgs) : u = t ∨ u ∈ msgs := by
  induction msgs with
  | nil => simpa [insertInto] using h
  | cons s rest ih =>
    simp only [insertInto] at h
    split at h
    · simpa using h
    · split at h
      · rcases List.mem_cons.1 h with h | h
        · exact .inl h
        · exact .inr (List.mem_cons_of_mem _ h)
      · rcases List.mem_cons.1 h with rfl | h
        · exact .inr List.mem_cons_self
        · exact (ih h).imp_right (List.mem_cons_of_mem _)

theorem pairwise_insertInto (t : Translation) {msgs : List Translation}
    (h : msgs.Pairwise Translation.before) : (insertInto t msgs).Pairwise Translation.before := by
  induction msgs with
  | nil => simp [insertInto]
  | cons s rest ih =>
    rw [List.pairwise_cons] at h
    obtain ⟨hs, hrest⟩ := h
    simp only [insertInto]
    split
    · rename_i hlt
      refine List.pairwise_cons.2 ⟨fun u hu => ?_, List.pairwise_cons.2 ⟨hs, hrest⟩⟩
      rcases List.mem_cons.1 hu with rfl | hu
      · exact hlt
      · exact UInt64.lt_trans hlt (hs u hu)
    · split
      · rename_i heq
        refine List.pairwise_cons.2 ⟨fun u hu => ?_, hrest⟩
        have := hs u hu
        simpa [Translation.before, heq] using this
      · rename_i hlt hne
        refine List.pairwise_cons.2 ⟨fun u hu => ?_, ih hrest⟩
        rcases mem_insertInto hu with rfl | hu
        · exact UInt64.lt_of_le_of_ne (UInt64.not_lt.1 hlt) (Ne.symm hne)
        · exact hs u hu

/-- The bundle with a translation added, which replaces one of the same
    identity. -/
def insert (bundle : Bundle) (t : Translation) : Bundle :=
  { bundle with
    msgs := insertInto t bundle.msgs
    ascending := pairwise_insertInto t bundle.ascending }

/-- The bundle of some translations for a locale; of those with the same
    identity the last counts. -/
def ofList (locale : Option String) (msgs : List Translation) : Bundle :=
  msgs.foldl insert { locale }

/-- The translation of the message with an identity. -/
def get? (bundle : Bundle) (id : MsgId) : Option Translation :=
  bundle.msgs.find? (·.id == id)

def size (bundle : Bundle) : Nat := bundle.msgs.length

/-- Two bundles say the same. -/
def sameAs (a b : Bundle) : Bool := a.locale == b.locale && a.msgs == b.msgs

end Bundle

end Stencil
