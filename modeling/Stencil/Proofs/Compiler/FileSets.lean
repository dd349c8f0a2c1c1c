/-
  Stencil/Proofs/Compiler/FileSets.lean
  =====================================
  **Well-formed file sets.**

  In a well-formed file set no two nodes have one identity, all identities are
  below the next free one, and every list of children knows the node that holds
  it, from the list of files down to the bodies.  A file set that is read is
  well-formed, and its bodies are placed (`exists_drafts_of_parse`,
  `wellFormed_of_parse`).
-/
import Mathlib.Data.List.Flatten
import Stencil.Proofs.Compiler.Bodies
import Stencil.Proofs.Tree.Links

namespace Stencil

open Stencil.Tree (ListedBy Drawn idsAll)

/-! ### Templates -/

namespace Template

/-- The identities of a template and of all nodes of its body. -/
def ids (t : Template Mark) : List NodeId := t.mark.id :: idsAll t.body

/-- A template that knows the file that holds it, and that its body knows. -/
def LinkedIn (holder : NodeId) (t : Template Mark) : Prop :=
  t.mark.parent = some holder ∧ t.mark.owner = t.mark.id ∧ ListedBy t.mark.id t.body

theorem drawn_place (path : String) (parent next : NodeId) (t : Template Nat) :
    Drawn next (place path parent next t).2 (place path parent next t).1.ids :=
  (Tree.drawn_placed _ _ _ _).cons

theorem drawn_placeAll (path : String) (parent next : NodeId) (drafts : List (Template Nat)) :
    Drawn next (placeAll path parent next drafts).2
      ((placeAll path parent next drafts).1.flatMap ids) := by
  induction drafts generalizing next with
  | nil => exact Drawn.nil next
  | cons t rest ih =>
    rw [placeAll, List.flatMap_cons]
    exact (drawn_place path parent next t).append (ih _)

theorem linkedIn_of_mem_placeAll {path : String} {parent next : NodeId}
    {drafts : List (Template Nat)} :
    ∀ t ∈ (placeAll path parent next drafts).1, t.LinkedIn parent := by
  intro t ht
  obtain ⟨d, -, start, rfl⟩ := exists_place_of_mem_placeAll t ht
  exact ⟨rfl, rfl, Tree.listedBy_linkAll _ _ _⟩

end Template

/-! ### Files -/

namespace SourceFile

/-- The identities of a file and of all nodes of its templates. -/
def ids (file : SourceFile Mark) : List NodeId := file.mark.id :: file.templates.flatMap Template.ids

/-- A file that knows the file set that holds it, and that its templates know. -/
def LinkedIn (holder : NodeId) (file : SourceFile Mark) : Prop :=
  file.mark.parent = some holder ∧ file.mark.owner = file.mark.id ∧
    ∀ t ∈ file.templates, t.LinkedIn file.mark.id

theorem drawn_place (next : NodeId) (file : SourceFile Nat) :
    Drawn next (place next file).2 (place next file).1.ids :=
  (Template.drawn_placeAll _ _ _ _).cons

theorem drawn_placeAll (next : NodeId) (files : List (SourceFile Nat)) :
    Drawn next (placeAll next files).2 ((placeAll next files).1.flatMap ids) := by
  induction files generalizing next with
  | nil => exact Drawn.nil next
  | cons file rest ih =>
    rw [placeAll, List.flatMap_cons]
    exact (drawn_place next file).append (ih _)

/-- Every file that is placed comes from a draft. -/
theorem exists_place_of_mem_placeAll {next : NodeId} {files : List (SourceFile Nat)} :
    ∀ file ∈ (placeAll next files).1, ∃ draft ∈ files, ∃ start, file = (place start draft).1 := by
  induction files generalizing next with
  | nil => exact fun _ hfile => (nomatch hfile)
  | cons draft rest ih =>
    intro file hfile
    rw [placeAll] at hfile
    rcases List.mem_cons.1 hfile with rfl | hfile
    · exact ⟨draft, List.mem_cons_self, next, rfl⟩
    · obtain ⟨draft', hdraft', start, rfl⟩ := ih file hfile
      exact ⟨draft', List.mem_cons_of_mem _ hdraft', start, rfl⟩

end SourceFile

/-! ### File sets -/

namespace FileSet

/-- The identities of a file set and of all nodes in it. -/
def ids (set : FileSet) : List NodeId := set.id :: set.files.flatMap SourceFile.ids

/-- Identities are distinct and not free, and every list of children knows the
    node that holds it. -/
structure WellFormed (set : FileSet) : Prop where
  ids_nodup : set.ids.Nodup
  ids_lt : ∀ id ∈ set.ids, id < set.next
  owner_eq : set.owner = set.id
  files : ∀ file ∈ set.files, file.LinkedIn set.id

/-- The templates of a well-formed file set have identities of their own. -/
theorem WellFormed.nodup_templates {set : FileSet} (h : set.WellFormed) :
    (set.templates.map (·.mark.id)).Nodup := by
  refine List.Nodup.sublist ?_ h.ids_nodup
  have hfile : ∀ file : SourceFile Mark, (file.templates.map (·.mark.id)).Sublist file.ids := by
    intro file
    refine List.Sublist.cons _ ?_
    rw [List.map_eq_flatMap]
    exact List.Sublist.flatMap_right _ fun t _ => List.sublist_append_left [t.mark.id] _
  rw [templates, List.map_flatMap]
  exact (List.Sublist.flatMap_right _ fun file _ => hfile file).cons _

theorem exists_place_of_mem_files {drafts : List (SourceFile Nat)} {file : SourceFile Mark}
    (hfile : file ∈ (place drafts).files) : ∃ draft ∈ drafts, ∃ start,
      file = { (SourceFile.place start draft).1 with
        mark := { (SourceFile.place start draft).1.mark with parent := some (place drafts).id } } := by
  obtain ⟨placed, hplaced, rfl⟩ := List.mem_map.1 hfile
  obtain ⟨draft, hdraft, start, rfl⟩ := SourceFile.exists_place_of_mem_placeAll placed hplaced
  exact ⟨draft, hdraft, start, rfl⟩

/-- Placing draws the identities of a file set from zero on. -/
theorem drawn_place (drafts : List (SourceFile Nat)) :
    Drawn 0 (place drafts).next (place drafts).ids := by
  have hids : (place drafts).ids = (SourceFile.placeAll 0 drafts).2 ::
      (SourceFile.placeAll 0 drafts).1.flatMap SourceFile.ids := by
    rw [ids, place, List.flatMap_map]
    rfl
  rw [hids]
  exact (SourceFile.drawn_placeAll 0 drafts).concat

theorem wellFormed_place (drafts : List (SourceFile Nat)) : (place drafts).WellFormed := by
  have hdrawn := drawn_place drafts
  refine ⟨hdrawn.nodup, hdrawn.lt, rfl, fun file hfile => ?_⟩
  obtain ⟨draft, -, start, rfl⟩ := exists_place_of_mem_files hfile
  exact ⟨rfl, rfl, Template.linkedIn_of_mem_placeAll⟩

end FileSet

/-! ### File sets that are read -/

theorem gives_mapM {ε σ α β : Type} {f : α → ExceptT ε (StateM σ) β} {as : List α} {bs : List β}
    (h : Gives (as.mapM f) bs) : ∀ b ∈ bs, ∃ a ∈ as, Gives (f a) b := by
  induction as generalizing bs with
  | nil =>
    rw [List.mapM_nil] at h
    rw [← eq_of_gives_pure h]
    exact fun _ hb => (nomatch hb)
  | cons a as ih =>
    rw [List.mapM_cons] at h
    obtain ⟨b, hb, h⟩ := gives_bind h
    obtain ⟨rest, hrest, h⟩ := gives_bind h
    rw [← eq_of_gives_pure h]
    intro c hc
    rcases List.mem_cons.1 hc with rfl | hc
    · exact ⟨a, List.mem_cons_self, hb⟩
    · obtain ⟨a', ha', hgives⟩ := ih hrest c hc
      exact ⟨a', List.mem_cons_of_mem _ ha', hgives⟩

namespace Compiler

variable {c : Compiler} {sources : List Source} {set : FileSet}

/-- A file set that is read is placed from the drafts of its sources. -/
theorem exists_sources_of_parse (h : (c.parse sources).1 = .ok set) :
    ∃ drafts : List (SourceFile Nat), set = FileSet.place drafts ∧
      ∀ d ∈ drafts, ∃ source ∈ sources, Gives (File.read source.path source.text.toList) d := by
  rw [Compiler.parse_eq] at h
  cases hread : (sources.mapM readSource).run.run c.types with
  | mk result types =>
    rw [hread] at h
    cases result with
    | error e => cases h
    | ok drafts =>
      cases h
      refine ⟨drafts, rfl, fun d hd => ?_⟩
      obtain ⟨source, hmem, hsource⟩ := gives_mapM ⟨c.types, types, hread⟩ d hd
      exact ⟨source, hmem, gives_of_gives_adapt hsource⟩

/-- A file set that is read is placed from drafts with bodies. -/
theorem exists_drafts_of_parse (h : (c.parse sources).1 = .ok set) :
    ∃ drafts : List (SourceFile Nat), set = FileSet.place drafts ∧
      ∀ d ∈ drafts, ∀ t ∈ d.templates, IsBody t.body := by
  obtain ⟨drafts, hset, hdrafts⟩ := exists_sources_of_parse h
  refine ⟨drafts, hset, fun d hd => ?_⟩
  obtain ⟨source, -, hsource⟩ := hdrafts d hd
  exact File.isBody_of_gives_read hsource

theorem wellFormed_of_parse (h : (c.parse sources).1 = .ok set) : set.WellFormed := by
  obtain ⟨drafts, rfl, -⟩ := exists_drafts_of_parse h
  exact FileSet.wellFormed_place drafts

/-- **Identities and nodes correspond.**  The identities of the nodes of a file set
    that is read, from the file set itself down to the texts in tags, are the
    numbers below the next free one, each once; and every list of children is owned
    by the node that holds it, which is the parent of each child on it. -/
theorem ids_perm_range_of_parse (h : (c.parse sources).1 = .ok set) :
    set.ids.Perm (List.range set.next) ∧ set.owner = set.id ∧
      ∀ file ∈ set.files, file.LinkedIn set.id := by
  obtain ⟨drafts, rfl, -⟩ := exists_drafts_of_parse h
  have hwell := FileSet.wellFormed_place drafts
  refine ⟨?_, hwell.owner_eq, hwell.files⟩
  rw [List.range_eq_range']
  exact (FileSet.drawn_place drafts).perm

/-- A file with a conditional and a call, and one with a tag in a message and a
    plural. -/
def manyKinds : List Source :=
  [{ path := "a.soy"
     text := "\x7bnamespace a\x7d\n\x7btemplate .t\x7d\n" ++
       "\x7bif $x\x7d\x7bcall .u\x7d\x7bparam k: 1 /\x7d\x7bparam m\x7dtext\x7b/param\x7d\x7b/call\x7d" ++
       "\x7belse\x7d\x7bxid y\x7d\x7b/if\x7d\n\x7b/template\x7d\n" },
   { path := "b.soy"
     text := "\x7bnamespace b\x7d\n\x7btemplate .t\x7d\n" ++
       "\x7bmsg desc=\"\"\x7dsee <a href=\"\x7b$url\x7d\">it</a>" ++
       "\x7bfallbackmsg desc=\"\"\x7d\x7bplural $n\x7d\x7bdefault\x7d\x7b$n\x7d\x7b/plural\x7d" ++
       "\x7b/msg\x7d\n\x7b/template\x7d\n" }]

theorem ids_perm_range_of_parse_manyKinds : ∃ set, (Compiler.parse {} manyKinds).1 = .ok set ∧
    set.ids.length = 30 ∧ set.ids.Perm (List.range set.next) ∧ set.owner = set.id ∧
      ∀ file ∈ set.files, file.LinkedIn set.id := by
  have hcheck : (Compiler.parse {} manyKinds).1.toOption.any (·.ids.length = 30) := by
    decide +kernel
  obtain ⟨set, hparse, hlength⟩ := any_toOption.1 hcheck
  exact ⟨set, hparse, of_decide_eq_true hlength, ids_perm_range_of_parse hparse⟩

/-- The templates of a file set that is read have placed bodies. -/
theorem isPlacedBody_of_parse (h : (c.parse sources).1 = .ok set) :
    ∀ t ∈ set.templates, IsPlacedBody t.body := by
  obtain ⟨drafts, rfl, hdrafts⟩ := exists_drafts_of_parse h
  intro t ht
  obtain ⟨file, hfile, ht⟩ := List.mem_flatMap.1 ht
  obtain ⟨draft, hdraft, start, rfl⟩ := FileSet.exists_place_of_mem_files hfile
  exact Template.isPlacedBody_of_mem_placeAll (hdrafts draft hdraft) t ht

end Compiler

end Stencil
