/-
  Stencil/Proofs/Ty/Grammar.lean
  ==============================
  **The grammar of type expressions.**

  A type expression is a sequence of tokens, words and marks, with white space
  around them as one likes:

      Type  := Alt ('|' Alt)*
      Alt   := '?' | 'list' '<' Type '>' | 'map' '<' Type ',' Type '>'
             | '[' ']' | '[' Field (',' Field)* ']' | Name
      Field := Segment ':' Type

  A derivation says which type its tokens denote: several alternatives denote
  their union, and a record has its fields in ascending order of name, so their
  names differ.  The list `known` has what alternatives are joined to; it rules out
  no derivation, since any list may be taken, but tells what is built on the way.
  Every text that is read is written by a derivation of the type that was read, and
  what it joins was built (`exists_isType_of_runs_readAll`).
-/
import Stencil.Proofs.Outcome
import Stencil.Proofs.Text.Characters
import Stencil.Proofs.Ty.Denoted
import Stencil.Proofs.Ty.Registry

namespace Stencil

open Text (trimStart isBlank allBlank isNameStart isNamePart isNamePart_of_isNameStart)

/-! ### Tokens -/

/-- A token of a type expression: a mark of one character, or a name. -/
inductive TypeToken where
  | mark (c : Char)
  | word (cs : List Char)

namespace TypeToken

def chars : TypeToken → List Char
  | mark c => [c]
  | word cs => cs

/-- The tokens stand at the start of a text, with white space around them, and something
    is left after them. -/
inductive Spelled : List TypeToken → List Char → List Char → Prop where
  | nil {blanks rest : List Char} : allBlank blanks → Spelled [] (blanks ++ rest) rest
  | cons {blanks cs rest : List Char} {token : TypeToken} {tokens : List TypeToken} :
      allBlank blanks → Spelled tokens cs rest →
      Spelled (token :: tokens) (blanks ++ (token.chars ++ cs)) rest

end TypeToken

open TypeToken (mark word Spelled)

/-! ### Derivations -/

namespace Ty

mutual

/-- The tokens are a type expression that denotes the type: one alternative, or several
    that are joined. -/
inductive IsType (find? : String → Option Ty) (known : List Ty) : List TypeToken → Ty → Prop where
  | single {tokens : List TypeToken} {t : Ty} : IsAlt find? known tokens t →
      IsType find? known tokens t
  | union {tokens more : List TypeToken} {first second : Ty} {others : List Ty} :
      IsAlt find? known tokens first → IsAltList find? known more (second :: others) →
      join (first :: second :: others) ∈ known →
      IsType find? known (tokens ++ more) (join (first :: second :: others))

/-- The tokens are alternatives, each after a bar. -/
inductive IsAltList (find? : String → Option Ty) (known : List Ty) :
    List TypeToken → List Ty → Prop where
  | nil : IsAltList find? known [] []
  | cons {tokens more : List TypeToken} {t : Ty} {others : List Ty} :
      IsAlt find? known tokens t → IsAltList find? known more others →
      IsAltList find? known (mark '|' :: (tokens ++ more)) (t :: others)

/-- The tokens are one alternative. -/
inductive IsAlt (find? : String → Option Ty) (known : List Ty) : List TypeToken → Ty → Prop where
  | unknown : IsAlt find? known [mark '?'] .unknown
  | list {tokens : List TypeToken} {element : Ty} : IsType find? known tokens element →
      IsAlt find? known (word "list".toList :: mark '<' :: (tokens ++ [mark '>'])) (.list element)
  | map {tokens more : List TypeToken} {key value : Ty} :
      IsType find? known tokens key → IsType find? known more value →
      IsAlt find? known
        (word "map".toList :: mark '<' :: (tokens ++ mark ',' :: (more ++ [mark '>'])))
        (.map key value)
  | emptyRecord : IsAlt find? known [mark '[', mark ']'] (.record [])
  | record {tokens : List TypeToken} {written fields : Fields} :
      IsFieldList find? known tokens written → fields.Ascending → fields.Perm written →
      IsAlt find? known (mark '[' :: (tokens ++ [mark ']'])) (.record fields)
  | name {cs : List Char} {t : Ty} : IsTypeName cs → find? (String.ofList cs) = some t →
      IsAlt find? known [word cs] t

/-- The tokens are the fields of a record, separated by commas, in the order in which they
    are written. -/
inductive IsFieldList (find? : String → Option Ty) (known : List Ty) :
    List TypeToken → Fields → Prop where
  | single {name : List Char} {tokens : List TypeToken} {t : Ty} :
      IsSegment name → IsType find? known tokens t →
      IsFieldList find? known (word name :: mark ':' :: tokens) [(String.ofList name, t)]
  | cons {name : List Char} {tokens more : List TypeToken} {t : Ty} {fields : Fields} :
      IsSegment name → IsType find? known tokens t → IsFieldList find? known more fields →
      IsFieldList find? known (word name :: mark ':' :: (tokens ++ mark ',' :: more))
        ((String.ofList name, t) :: fields)

end

variable {find? : String → Option Ty} {known known' : List Ty}

mutual

theorem IsType.mono {tokens : List TypeToken} {t : Ty} (hknown : known ⊆ known') :
    IsType find? known tokens t → IsType find? known' tokens t
  | .single h => .single (h.mono hknown)
  | .union h h' hjoin => .union (h.mono hknown) (h'.mono hknown) (hknown hjoin)

theorem IsAltList.mono {tokens : List TypeToken} {ts : List Ty} (hknown : known ⊆ known') :
    IsAltList find? known tokens ts → IsAltList find? known' tokens ts
  | .nil => .nil
  | .cons h h' => .cons (h.mono hknown) (h'.mono hknown)

theorem IsAlt.mono {tokens : List TypeToken} {t : Ty} (hknown : known ⊆ known') :
    IsAlt find? known tokens t → IsAlt find? known' tokens t
  | .unknown => .unknown
  | .list h => .list (h.mono hknown)
  | .map h h' => .map (h.mono hknown) (h'.mono hknown)
  | .emptyRecord => .emptyRecord
  | .record h hascending hperm => .record (h.mono hknown) hascending hperm
  | .name hname hfound => .name hname hfound

theorem IsFieldList.mono {tokens : List TypeToken} {fields : Fields} (hknown : known ⊆ known') :
    IsFieldList find? known tokens fields → IsFieldList find? known' tokens fields
  | .single hname h => .single hname (h.mono hknown)
  | .cons hname h h' => .cons hname (h.mono hknown) (h'.mono hknown)

end

/-! ### What derivations denote -/

mutual

/-- A derivation denotes a type that can be denoted. -/
theorem denoted_of_isType (hfind : Names find?) {tokens : List TypeToken} {t : Ty} :
    IsType find? known tokens t → Denoted find? known t
  | .single h => (isAlternative_of_isAlt hfind h).denoted
  | .union h h' hjoin => by
    refine denoted_join (List.cons_ne_nil _ _) ?_ hjoin
    exact List.forall_mem_cons.2
      ⟨isAlternative_of_isAlt hfind h, isAlternative_of_isAltList hfind h'⟩

theorem isAlternative_of_isAltList (hfind : Names find?) {tokens : List TypeToken} {ts : List Ty} :
    IsAltList find? known tokens ts → ∀ t ∈ ts, IsAlternative find? known t
  | .nil => List.forall_mem_nil _
  | .cons h h' => List.forall_mem_cons.2
      ⟨isAlternative_of_isAlt hfind h, isAlternative_of_isAltList hfind h'⟩

theorem isAlternative_of_isAlt (hfind : Names find?) {tokens : List TypeToken} {t : Ty} :
    IsAlt find? known tokens t → IsAlternative find? known t
  | .unknown => ⟨rfl, .unknown⟩
  | .list h => ⟨rfl, .list (denoted_of_isType hfind h)⟩
  | .map h h' => ⟨rfl, .map (denoted_of_isType hfind h) (denoted_of_isType hfind h')⟩
  | .emptyRecord => ⟨rfl, .record .nil (List.forall_mem_nil _) (List.forall_mem_nil _)⟩
  | .record h hascending hperm => by
    have hwritten := denoted_of_isFieldList hfind h
    refine ⟨rfl, .record hascending (fun f hf => ?_) fun f hf => ?_⟩
    · exact (hwritten f (hperm.mem_iff.1 hf)).1
    · exact (hwritten f (hperm.mem_iff.1 hf)).2
  | .name hname hfound =>
    ⟨(hfind _ _ hfound).1, .named (by rwa [String.toList_ofList]) hfound⟩

theorem denoted_of_isFieldList (hfind : Names find?) {tokens : List TypeToken} {fields : Fields} :
    IsFieldList find? known tokens fields →
      ∀ f ∈ fields, IsSegment f.1.toList ∧ Denoted find? known f.2
  | .single hname h => List.forall_mem_singleton.2
      ⟨by rwa [String.toList_ofList], denoted_of_isType hfind h⟩
  | .cons hname h h' => List.forall_mem_cons.2
      ⟨⟨by rwa [String.toList_ofList], denoted_of_isType hfind h⟩, denoted_of_isFieldList hfind h'⟩

end

/-! ### What stands where -/

/-- The text starts with none of the characters with a property. -/
def StartsNot (p : Char → Bool) (cs : List Char) : Prop := ∀ c ∈ cs.head?, p c = false

/-- What may stand after a type. -/
def closers : List Char := ['>', ',', ']']

/-- What may stand after an alternative. -/
def separators : List Char := '|' :: closers

theorem startsNot_cons {p : Char → Bool} {c : Char} (h : p c = false) (cs : List Char) :
    StartsNot p (c :: cs) := by
  rintro _ ⟨⟩
  exact h

theorem StartsNot.trimStart_eq {cs : List Char} (h : StartsNot isBlank cs) : trimStart cs = cs := by
  cases cs with
  | nil => rfl
  | cons c cs => exact Text.trimStart_cons (h c rfl) cs

/-- The text is empty or starts with one of the characters. -/
def StartsIn (stops cs : List Char) : Prop := ∀ c ∈ cs.head?, c ∈ stops

theorem StartsIn.startsNot {stops cs : List Char} (h : StartsIn stops cs) {p : Char → Bool}
    (hstops : stops.all (!p ·)) : StartsNot p cs := fun c hc =>
  (Bool.not_eq_true' _).mp (List.all_eq_true.1 hstops c (h c hc))

theorem StartsIn.cons {stops : List Char} {c : Char} (h : c ∈ stops) (cs : List Char) :
    StartsIn stops (c :: cs) := by
  rintro _ ⟨⟩
  exact h

theorem StartsIn.mono {stops more cs : List Char} (h : StartsIn stops cs) (hmore : stops ⊆ more) :
    StartsIn more cs := fun c hc => hmore (h c hc)

end Ty

/-! ### Texts of tokens -/

namespace TypeToken.Spelled

variable {tokens more : List TypeToken} {token : TypeToken} {cs mid rest : List Char}

theorem allBlank_takeWhile (cs : List Char) : allBlank (cs.takeWhile isBlank) := List.all_takeWhile

theorem refl (rest : List Char) : Spelled [] rest rest := @nil [] rest rfl

/-- White space may be skipped. -/
theorem skip (cs : List Char) : Spelled [] cs (trimStart cs) := by
  have hspelled : Spelled [] (cs.takeWhile isBlank ++ cs.dropWhile isBlank) (trimStart cs) :=
    nil (allBlank_takeWhile cs)
  rwa [List.takeWhile_append_dropWhile] at hspelled

theorem of_trimStart (hcs : trimStart cs = token.chars ++ mid) (h : Spelled tokens mid rest) :
    Spelled (token :: tokens) cs rest := by
  have hspelled : Spelled (token :: tokens) (cs.takeWhile isBlank ++ (token.chars ++ mid)) rest :=
    cons (allBlank_takeWhile cs) h
  rwa [← hcs, trimStart, List.takeWhile_append_dropWhile] at hspelled

theorem of_mark {c : Char} (hcs : trimStart cs = c :: mid) (h : Spelled tokens mid rest) :
    Spelled (mark c :: tokens) cs rest := of_trimStart hcs h

theorem blanks_append {blanks : List Char} (hblanks : allBlank blanks)
    (h : Spelled tokens cs rest) : Spelled tokens (blanks ++ cs) rest := by
  have hall : ∀ {more : List Char}, allBlank more → allBlank (blanks ++ more) := by
    intro more hmore
    rw [allBlank, List.all_append, Bool.and_eq_true]
    exact ⟨hblanks, hmore⟩
  cases h with
  | nil hmore =>
    rw [← List.append_assoc]
    exact nil (hall hmore)
  | cons hmore hspelled =>
    rw [← List.append_assoc]
    exact cons (hall hmore) hspelled

theorem append (h : Spelled tokens cs mid) (h' : Spelled more mid rest) :
    Spelled (tokens ++ more) cs rest := by
  induction h with
  | nil hblanks => exact blanks_append hblanks h'
  | cons hblanks _ ih => exact cons hblanks (ih h')

end TypeToken.Spelled

/-! ### What is read is written by a derivation -/

namespace Ty.Reader

variable {find? : String → Option Ty}

theorem not_runs_fail {α : Type} {cause : TypeCause} {left : List Char} {s s' : List Ty} {a : α} :
    ¬ Runs (fail cause left : Reading (List Ty) α) s a s' := not_runs_throw

theorem runs_expect {wanted : Char} {cs rest : List Char} {s s' : List Ty} :
    Runs (expect wanted cs) s rest s' ↔ trimStart cs = wanted :: rest ∧ s = s' := by
  rw [expect]
  split
  · rename_i c after hcs
    split_ifs with h
    · subst h
      rw [runs_pure, hcs]
      simp
    · refine iff_of_false not_runs_fail fun hcs' => h ?_
      rw [hcs, List.cons.injEq] at hcs'
      exact hcs'.1.1
  · rename_i hcs
    refine iff_of_false not_runs_fail fun hcs' => ?_
    rw [hcs] at hcs'
    cases hcs'.1

theorem isSegment_takeWhile {cs : List Char} (h : (cs.takeWhile isNamePart).isEmpty = false) :
    IsSegment (cs.takeWhile isNamePart) := by
  refine ⟨fun hnil => ?_, fun c hc => ?_⟩
  · rw [hnil] at h
    cases h
  · exact List.all_eq_true.1 List.all_takeWhile c hc

theorem exists_segments_of_runs {n : Nat} {cs more rest : List Char} {s s' : List Ty}
    (h : Runs (readSegments n cs) s (more, rest) s') : s = s' ∧ more ++ rest = cs ∧
      ∃ segments, more = dotted segments ∧ ∀ segment ∈ segments, IsSegment segment := by
  induction n generalizing cs more rest with
  | zero =>
    rw [readSegments.eq_def] at h
    obtain ⟨heq, rfl⟩ := runs_pure.1 h
    cases heq
    exact ⟨rfl, rfl, [], rfl, List.forall_mem_nil _⟩
  | succ n ih =>
    rw [readSegments.eq_def] at h
    split at h
    · rename_i heq
      cases heq
      dsimp only at h
      split_ifs at h with hempty
      · exact absurd h not_runs_fail
      · obtain ⟨⟨more', rest'⟩, mid, hmore, h⟩ := runs_bind.1 h
        obtain ⟨heq, rfl⟩ := runs_pure.1 h
        obtain ⟨rfl, hrest, segments, rfl, hsegments⟩ := ih hmore
        cases heq
        refine ⟨rfl, ?_, _ :: segments, rfl, List.forall_mem_cons.2 ⟨?_, hsegments⟩⟩
        · rw [List.cons_append, List.cons_append, List.append_assoc, hrest,
            List.takeWhile_append_dropWhile]
        · exact isSegment_takeWhile (Bool.eq_false_iff.2 hempty)
    · obtain ⟨heq, rfl⟩ := runs_pure.1 h
      cases heq
      exact ⟨rfl, rfl, [], rfl, List.forall_mem_nil _⟩

theorem isTypeName_of_runs {c : Char} {cs rest : List Char} {name : String} {s s' : List Ty}
    (hc : isNameStart c) (h : Runs (readName (c :: cs)) s (name, rest) s') :
    s = s' ∧ name.toList ++ rest = c :: cs ∧ IsTypeName name.toList := by
  rw [readName] at h
  obtain ⟨⟨more, rest'⟩, mid, hmore, h⟩ := runs_bind.1 h
  obtain ⟨heq, rfl⟩ := runs_pure.1 h
  obtain ⟨rfl, hrest, segments, rfl, hsegments⟩ := exists_segments_of_runs hmore
  cases heq
  refine ⟨rfl, ?_, c, cs.takeWhile isNamePart, segments, ?_, hc, ?_, hsegments⟩
  · rw [String.toList_ofList, List.append_assoc, hrest, List.takeWhile_append_dropWhile]
  · rw [String.toList_ofList, List.takeWhile_cons_of_pos (isNamePart_of_isNameStart hc)]
  · exact fun d hd => List.all_eq_true.1 List.all_takeWhile d hd

mutual

theorem exists_isType_of_runs {n : Nat} {cs rest : List Char} {s s' : List Ty} {t : Ty}
    (h : Runs (readAlternatives find? listing n cs) s (t, rest) s') :
    s ⊆ s' ∧ ∃ tokens, IsType find? s' tokens t ∧ Spelled tokens cs rest := by
  match n with
  | 0 => exact absurd h not_runs_fail
  | n + 1 =>
    rw [readAlternatives] at h
    obtain ⟨⟨first, rest₁⟩, s₁, hrun, h⟩ := runs_bind.1 h
    obtain ⟨⟨others, rest₂⟩, s₂, hrun', h⟩ := runs_bind.1 h
    obtain ⟨hs₁, tokens, hfirst, hspelled⟩ := exists_isAlt_of_runs hrun
    obtain ⟨hs₂, more, hothers, hspelled'⟩ := exists_isAltList_of_runs hrun'
    have hs := List.Subset.trans hs₁ hs₂
    have hboth := hspelled.append hspelled'
    dsimp only at h
    cases others with
    | nil =>
      obtain ⟨heq, rfl⟩ := runs_pure.1 h
      cases heq
      cases hothers
      rw [List.append_nil] at hboth
      exact ⟨hs, tokens, .single (hfirst.mono hs₂), hboth⟩
    | cons second others =>
      obtain ⟨_, s₃, hlisting, h⟩ := runs_bind.1 h
      obtain ⟨rfl, rfl⟩ := runs_listing.1 hlisting
      obtain ⟨heq, rfl⟩ := runs_pure.1 h
      cases heq
      have hs₃ : s₂ ⊆ join (first :: second :: others) :: s₂ := List.subset_cons_self _ _
      refine ⟨List.Subset.trans hs hs₃, tokens ++ more, .union ?_ ?_ List.mem_cons_self, hboth⟩
      · exact hfirst.mono (List.Subset.trans hs₂ hs₃)
      · exact hothers.mono hs₃

theorem exists_isAltList_of_runs {n : Nat} {cs rest : List Char} {s s' : List Ty} {ts : List Ty}
    (h : Runs (readOthers find? listing n cs) s (ts, rest) s') :
    s ⊆ s' ∧ ∃ tokens, IsAltList find? s' tokens ts ∧ Spelled tokens cs rest := by
  match n with
  | 0 => exact absurd h not_runs_fail
  | n + 1 =>
    rw [readOthers] at h
    split at h
    · rename_i after hbar
      obtain ⟨⟨first, rest₁⟩, s₁, hrun, h⟩ := runs_bind.1 h
      obtain ⟨⟨others, rest₂⟩, s₂, hrun', h⟩ := runs_bind.1 h
      obtain ⟨heq, rfl⟩ := runs_pure.1 h
      cases heq
      obtain ⟨hs₁, tokens, hfirst, hspelled⟩ := exists_isAlt_of_runs hrun
      obtain ⟨hs₂, more, hothers, hspelled'⟩ := exists_isAltList_of_runs hrun'
      exact ⟨List.Subset.trans hs₁ hs₂, _, .cons (hfirst.mono hs₂) hothers,
        .of_mark hbar (hspelled.append hspelled')⟩
    · obtain ⟨heq, rfl⟩ := runs_pure.1 h
      cases heq
      exact ⟨List.Subset.refl _, [], .nil, .skip cs⟩

theorem exists_isAlt_of_runs {n : Nat} {cs rest : List Char} {s s' : List Ty} {t : Ty}
    (h : Runs (readAlternative find? listing n cs) s (t, rest) s') :
    s ⊆ s' ∧ ∃ tokens, IsAlt find? s' tokens t ∧ Spelled tokens cs rest := by
  match n with
  | 0 => exact absurd h not_runs_fail
  | n + 1 =>
    rw [readAlternative] at h
    split at h
    · exact absurd h not_runs_fail
    · rename_i after hquestion
      obtain ⟨heq, rfl⟩ := runs_pure.1 h
      cases heq
      exact ⟨List.Subset.refl _, _, .unknown, .of_mark hquestion (.refl _)⟩
    · rename_i inside hopen
      split at h
      · rename_i after hclose
        obtain ⟨heq, rfl⟩ := runs_pure.1 h
        cases heq
        exact ⟨List.Subset.refl _, _, .emptyRecord, .of_mark hopen (.of_mark hclose (.refl _))⟩
      · obtain ⟨hs, tokens, written, fields, hwritten, rfl, hascending, hperm, hspelled⟩ :=
          exists_isFieldList_of_runs .nil h
        refine ⟨hs, _, .record hwritten hascending hperm, .of_mark hopen ?_⟩
        exact (Spelled.skip inside).append hspelled
    · rename_i c left _ _ hstart
      dsimp only at h
      split_ifs at h with hc
      · obtain ⟨⟨name, rest₁⟩, s₁, hname, h⟩ := runs_bind.1 h
        obtain ⟨rfl, hrest, htypeName⟩ := isTypeName_of_runs hc hname
        have hword : trimStart cs = (word name.toList).chars ++ rest₁ := hstart.trans hrest.symm
        dsimp only at h
        split at h
        · rename_i after hangle
          split_ifs at h with hlist hmap
          · obtain ⟨⟨element, rest₂⟩, s₂, hrun, h⟩ := runs_bind.1 h
            obtain ⟨rest₃, s₃, hexpect, h⟩ := runs_bind.1 h
            obtain ⟨heq, rfl⟩ := runs_pure.1 h
            cases heq
            obtain ⟨hclose, rfl⟩ := runs_expect.1 hexpect
            dsimp only at hclose
            obtain ⟨hs, tokens, helement, hspelled⟩ := exists_isType_of_runs hrun
            have hinside := hspelled.append (.of_mark hclose (.refl rest))
            subst hlist
            exact ⟨hs, _, .list helement, .of_trimStart hword (.of_mark hangle hinside)⟩
          · obtain ⟨⟨key, rest₂⟩, s₂, hrun, h⟩ := runs_bind.1 h
            obtain ⟨rest₃, s₃, hexpect, h⟩ := runs_bind.1 h
            obtain ⟨⟨value, rest₄⟩, s₄, hrun', h⟩ := runs_bind.1 h
            obtain ⟨rest₅, s₅, hexpect', h⟩ := runs_bind.1 h
            obtain ⟨heq, rfl⟩ := runs_pure.1 h
            cases heq
            obtain ⟨hcomma, rfl⟩ := runs_expect.1 hexpect
            obtain ⟨hclose, rfl⟩ := runs_expect.1 hexpect'
            dsimp only at hcomma hclose
            obtain ⟨hs, tokens, hkey, hspelled⟩ := exists_isType_of_runs hrun
            obtain ⟨hs', more, hvalue, hspelled'⟩ := exists_isType_of_runs hrun'
            have hsecond := hspelled'.append (.of_mark hclose (.refl rest))
            have hinside := hspelled.append (.of_mark hcomma hsecond)
            subst hmap
            exact ⟨List.Subset.trans hs hs', _, .map (hkey.mono hs') hvalue,
              .of_trimStart hword (.of_mark hangle hinside)⟩
          · exact absurd h not_runs_fail
        · split at h
          · rename_i hfound
            obtain ⟨heq, rfl⟩ := runs_pure.1 h
            cases heq
            refine ⟨List.Subset.refl _, _, .name htypeName ?_, .of_trimStart hword (.skip rest₁)⟩
            rw [String.ofList_toList]
            exact hfound
          · exact absurd h not_runs_fail
      · obtain ⟨_, _, hfail, -⟩ := runs_bind.1 h
        exact absurd hfail not_runs_fail

/-- The fields before and those that are written make the record together. -/
theorem exists_isFieldList_of_runs {n : Nat} {cs rest : List Char} {s s' : List Ty}
    {before : Fields} {t : Ty} (hbefore : before.Ascending)
    (h : Runs (readFields find? listing n before cs) s (t, rest) s') :
    s ⊆ s' ∧ ∃ (tokens : List TypeToken) (written fields : Fields),
      IsFieldList find? s' tokens written ∧ t = .record fields ∧ fields.Ascending ∧
      fields.Perm (before ++ written) ∧ Spelled (tokens ++ [mark ']']) cs rest := by
  match n with
  | 0 => exact absurd h not_runs_fail
  | n + 1 =>
    rw [readFields] at h
    dsimp only at h
    have htext : trimStart cs = (word ((trimStart cs).takeWhile isNamePart)).chars ++
        (trimStart cs).dropWhile isNamePart := List.takeWhile_append_dropWhile.symm
    generalize (trimStart cs).dropWhile isNamePart = rest₀ at h htext
    by_cases hempty : (String.ofList ((trimStart cs).takeWhile isNamePart)).isEmpty
    · rw [if_pos hempty] at h
      obtain ⟨_, _, hfail, -⟩ := runs_bind.1 h
      exact absurd hfail not_runs_fail
    · rw [if_neg hempty] at h
      obtain ⟨rest₁, s₁, hexpect, htail⟩ := runs_bind.1 h
      obtain ⟨⟨ty, rest₂⟩, s₂, hrun, hnext⟩ := runs_bind.1 htail
      obtain ⟨hcolon, rfl⟩ := runs_expect.1 hexpect
      obtain ⟨hs, tokens, hty, hspelled⟩ := exists_isType_of_runs hrun
      have hsegment : IsSegment ((trimStart cs).takeWhile isNamePart) := by
        refine isSegment_takeWhile (Bool.eq_false_iff.2 fun hnil => hempty ?_)
        rw [List.isEmpty_iff.1 hnil]
        rfl
      generalize (trimStart cs).takeWhile isNamePart = name at hnext htext hsegment
      cases hdup : Fields.type? before (String.ofList name) with
      | some _ =>
        rw [hdup, if_pos (by simp)] at hnext
        obtain ⟨_, _, hfail, -⟩ := runs_bind.1 hnext
        exact absurd hfail not_runs_fail
      | none =>
        have hperm := Fields.perm_insert hdup ty
        have hmore := hbefore.insert (String.ofList name) ty
        have hfield : ∀ {tokens' : List TypeToken} {rest' : List Char},
            Spelled tokens' rest₂ rest' →
            Spelled (word name :: mark ':' :: (tokens ++ tokens')) cs rest' := fun h' =>
          .of_trimStart htext (.of_mark hcolon (hspelled.append h'))
        rw [hdup, if_neg (by simp)] at hnext
        split at hnext
        · rename_i after hcomma
          obtain ⟨hs', more, written, fields, hwritten, rfl, hascending, hpermAll, hspelled'⟩ :=
            exists_isFieldList_of_runs hmore hnext
          refine ⟨List.Subset.trans hs hs', _, _, fields, .cons hsegment (hty.mono hs') hwritten,
            rfl, hascending, ?_, ?_⟩
          · exact hpermAll.trans ((hperm.append_right written).trans List.perm_middle.symm)
          · rw [List.cons_append, List.cons_append, List.append_assoc]
            exact hfield (.of_mark hcomma hspelled')
        · rename_i after hclose
          obtain ⟨heq, rfl⟩ := runs_pure.1 hnext
          cases heq
          refine ⟨hs, _, _, _, .single hsegment hty, rfl, hmore, ?_, ?_⟩
          · exact hperm.trans (List.perm_append_singleton _ _).symm
          · exact hfield (.of_mark hclose (.refl rest))
        · exact absurd hnext not_runs_fail

end

/-- Every text that is read is written by a derivation of the type that was read, and what
    it joins was built. -/
theorem exists_isType_of_runs_readAll {cs : List Char} {s s' : List Ty} {t : Ty}
    (h : Runs (readAll find? listing cs) s t s') :
    ∃ tokens, IsType find? s' tokens t ∧ Spelled tokens cs [] := by
  rw [readAll] at h
  obtain ⟨⟨ty, rest⟩, mid, hrun, hend⟩ := runs_bind.1 h
  obtain ⟨-, tokens, htype, hspelled⟩ := exists_isType_of_runs hrun
  dsimp only at hend
  split at hend
  · rename_i hblank
    obtain ⟨rfl, rfl⟩ := runs_pure.1 hend
    have hskip := Spelled.skip rest
    rw [hblank] at hskip
    refine ⟨tokens, htype, ?_⟩
    have happend := hspelled.append hskip
    rwa [List.append_nil] at happend
  · exact absurd hend not_runs_fail

end Ty.Reader

end Stencil
