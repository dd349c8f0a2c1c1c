/-
  Stencil/Proofs/Ty/Registry.lean
  ===============================
  **What a registry answers, and what it learns.**

  The union of some types is answered with the one that is kept, if one is; as
  it was kept for the same members, the answer is the same for every registry
  (`union_eq`).  Reading a text asks for unions in some order, which does not
  depend on the registry either: they can be listed, and the registry that read
  the text is the one that remembers them (`read_eq`).
-/
import Stencil.Proofs.Outcome
import Stencil.Ty.Reader

namespace Stencil

/-! ### Unions -/

namespace TypeRegistry

variable {registry : TypeRegistry}

/-- The registry after a type was asked for: a union is kept. -/
def remember (registry : TypeRegistry) : Ty → TypeRegistry
  | .union ms => (registry.intern ms).2
  | _ => registry

theorem lookup_kept_eq_some {ms : List Ty} {ty : Ty} (h : registry.kept.lookup ms = some ty) :
    ty = .union ms := by
  obtain ⟨before, after, hkept, -⟩ := List.lookup_eq_some_iff.1 h
  exact registry.kept_union (ms, ty) (hkept ▸ by simp)

theorem mem_unions_iff {ms : List Ty} : ms ∈ registry.unions ↔ registry.kept.lookup ms ≠ none := by
  rw [ne_eq, List.lookup_eq_none_iff, unions, List.mem_map]
  constructor
  · rintro ⟨e, he, rfl⟩ hnone
    exact absurd (hnone e he) (by simp)
  · intro h
    push Not at h
    obtain ⟨e, he, heq⟩ := h
    have heq : ms = e.1 := by simpa using heq
    exact ⟨e, he, heq.symm⟩

/-- What is kept under some members is their union. -/
theorem intern_eq (registry : TypeRegistry) (ms : List Ty) :
    registry.intern ms = (.union ms, registry.remember (.union ms)) := by
  have hfirst : (registry.intern ms).1 = .union ms := by
    rw [intern]
    split
    · exact lookup_kept_eq_some ‹_›
    · rfl
  exact Prod.ext hfirst rfl

/-- **A registry answers with the union of the types**, whatever it keeps, and keeps it. -/
theorem union_eq (registry : TypeRegistry) (types : List Ty) :
    registry.union types = (Ty.join types, registry.remember (Ty.join types)) := by
  rw [union]
  split
  · rename_i ms hjoin
    rw [intern_eq, hjoin]
  · rename_i hjoin
    rw [remember.eq_def]
    split
    · rename_i ms heq
      exact absurd heq (hjoin ms)
    · rfl

theorem mem_unions_remember {t : Ty} {ms : List Ty} :
    ms ∈ (registry.remember t).unions ↔ t = .union ms ∨ ms ∈ registry.unions := by
  unfold remember
  split
  · rename_i members
    rw [intern]
    split
    · rename_i ty hlookup
      refine ⟨.inr, ?_⟩
      rintro (heq | h)
      · cases heq
        exact mem_unions_iff.2 (by rw [hlookup]; simp)
      · exact h
    · rw [Ty.union.injEq]
      simp [unions, eq_comm]
  · rename_i hother
    exact ⟨.inr, fun h => h.resolve_left (hother ms)⟩

theorem nodup_unions_remember (h : registry.unions.Nodup) (t : Ty) :
    (registry.remember t).unions.Nodup := by
  unfold remember
  split
  · rw [intern]
    split
    · exact h
    · rename_i hlookup
      exact List.nodup_cons.2 ⟨fun hmem => mem_unions_iff.1 hmem hlookup, h⟩
  · exact h

@[simp] theorem protos_remember (registry : TypeRegistry) (ty : Ty) :
    (registry.remember ty).protos = registry.protos := by
  unfold remember
  split
  · rw [intern]
    split <;> rfl
  · rfl

end TypeRegistry

/-! ### Readers and what keeps their unions -/

namespace Ty.Reader

variable {σ τ α β : Type}

/-- Unions are listed, the latest first. -/
def listing (types : List Ty) : StateM (List Ty) Ty :=
  modifyGet fun built => (join types, join types :: built)

theorem runs_listing {types : List Ty} {built built' : List Ty} {t : Ty} :
    Runs (liftM (listing types) : Reading (List Ty) Ty) built t built' ↔
      t = join types ∧ built' = join types :: built := by
  constructor
  · intro h
    cases h
    exact ⟨rfl, rfl⟩
  · rintro ⟨rfl, rfl⟩
    rfl

/-- From the state that a state stands for, the second reading does what the first does, and
    it ends in the state that the end of the first stands for. -/
def Tracks (f : σ → τ) (x : Reading σ α) (y : Reading τ α) : Prop :=
  ∀ s, y.run.run (f s) = ((x.run.run s).1, f (x.run.run s).2)

section

variable {f : σ → τ}

theorem tracks_pure (a : α) : Tracks f (pure a) (pure a) := fun _ => rfl

theorem tracks_fail (cause : TypeCause) (left : List Char) :
    Tracks f (fail cause left : Reading σ α) (fail cause left) := fun _ => rfl

theorem tracks_fail_bind {cause : TypeCause} {left : List Char} {g : α → Reading σ β}
    {g' : α → Reading τ β} : Tracks f (fail cause left >>= g) (fail cause left >>= g') :=
  fun _ => rfl

theorem tracks_bind {x : Reading σ α} {y : Reading τ α} {g : α → Reading σ β}
    {g' : α → Reading τ β} (h : Tracks f x y) (hg : ∀ a, Tracks f (g a) (g' a)) :
    Tracks f (x >>= g) (y >>= g') := by
  intro s
  rw [ExceptT.run_bind, StateT.run_bind, ExceptT.run_bind, StateT.run_bind, h s]
  cases x.run.run s with
  | mk outcome mid =>
    cases outcome with
    | error e => rfl
    | ok a => exact hg a mid

theorem tracks_expect (wanted : Char) (cs : List Char) :
    Tracks f (expect wanted cs) (expect wanted cs) := by
  unfold expect
  split
  · split
    · exact tracks_pure _
    · exact tracks_fail _ _
  · exact tracks_fail _ _

theorem tracks_readSegments (n : Nat) (cs : List Char) :
    Tracks f (readSegments n cs) (readSegments n cs) := by
  induction n generalizing cs with
  | zero =>
    rw [readSegments.eq_def, readSegments.eq_def]
    exact tracks_pure _
  | succ n ih =>
    rw [readSegments.eq_def, readSegments.eq_def]
    split
    · rename_i after heq
      cases heq
      dsimp only
      split
      · exact tracks_fail _ _
      · exact tracks_bind (ih _) fun _ => tracks_pure _
    · exact tracks_pure _

theorem tracks_readName (cs : List Char) : Tracks f (readName cs) (readName cs) :=
  tracks_bind (tracks_readSegments _ _) fun _ => tracks_pure _

end

section

variable {find? : String → Option Ty} {f : σ → τ} {join₁ : List Ty → StateM σ Ty}
  {join₂ : List Ty → StateM τ Ty}

mutual

theorem tracks_readAlternatives (hjoin : ∀ types, Tracks f (liftM (join₁ types)) (liftM (join₂ types)))
    (n : Nat) (cs : List Char) :
    Tracks f (readAlternatives find? join₁ n cs) (readAlternatives find? join₂ n cs) := by
  cases n with
  | zero => exact tracks_fail _ _
  | succ n =>
    rw [readAlternatives, readAlternatives]
    refine tracks_bind (tracks_readAlternative hjoin n cs) fun ⟨first, rest⟩ => ?_
    refine tracks_bind (tracks_readOthers hjoin n rest) fun ⟨others, rest⟩ => ?_
    dsimp only
    split
    · exact tracks_pure _
    · exact tracks_bind (hjoin _) fun _ => tracks_pure _

theorem tracks_readOthers (hjoin : ∀ types, Tracks f (liftM (join₁ types)) (liftM (join₂ types)))
    (n : Nat) (cs : List Char) :
    Tracks f (readOthers find? join₁ n cs) (readOthers find? join₂ n cs) := by
  cases n with
  | zero => exact tracks_fail _ _
  | succ n =>
    rw [readOthers, readOthers]
    split
    · refine tracks_bind (tracks_readAlternative hjoin n _) fun r => ?_
      exact tracks_bind (tracks_readOthers hjoin n _) fun r' => tracks_pure _
    · exact tracks_pure _

theorem tracks_readAlternative (hjoin : ∀ types, Tracks f (liftM (join₁ types)) (liftM (join₂ types)))
    (n : Nat) (cs : List Char) :
    Tracks f (readAlternative find? join₁ n cs) (readAlternative find? join₂ n cs) := by
  cases n with
  | zero => exact tracks_fail _ _
  | succ n =>
    rw [readAlternative, readAlternative]
    split
    · exact tracks_fail _ _
    · exact tracks_pure _
    · split
      · exact tracks_pure _
      · exact tracks_readFields hjoin n _ _
    · dsimp only
      split
      · refine tracks_bind (tracks_readName _) fun ⟨name, rest⟩ => ?_
        dsimp only
        split
        · split
          · refine tracks_bind (tracks_readAlternatives hjoin n _) fun r => ?_
            exact tracks_bind (tracks_expect _ _) fun _ => tracks_pure _
          · split
            · refine tracks_bind (tracks_readAlternatives hjoin n _) fun r => ?_
              refine tracks_bind (tracks_expect _ _) fun second => ?_
              refine tracks_bind (tracks_readAlternatives hjoin n _) fun r => ?_
              exact tracks_bind (tracks_expect _ _) fun _ => tracks_pure _
            · exact tracks_fail _ _
        · split
          · exact tracks_pure _
          · exact tracks_fail _ _
      · exact tracks_fail_bind

theorem tracks_readFields (hjoin : ∀ types, Tracks f (liftM (join₁ types)) (liftM (join₂ types)))
    (n : Nat) (fields : Fields) (cs : List Char) :
    Tracks f (readFields find? join₁ n fields cs) (readFields find? join₂ n fields cs) := by
  cases n with
  | zero => exact tracks_fail _ _
  | succ n =>
    rw [readFields, readFields]
    dsimp only
    split
    · exact tracks_fail_bind
    · refine tracks_bind (tracks_expect _ _) fun rest => ?_
      refine tracks_bind (tracks_readAlternatives hjoin n rest) fun ⟨ty, rest⟩ => ?_
      dsimp only
      split
      · exact tracks_fail_bind
      · split
        · exact tracks_readFields hjoin n _ _
        · exact tracks_pure _
        · exact tracks_fail _ _

end

theorem tracks_readAll (hjoin : ∀ types, Tracks f (liftM (join₁ types)) (liftM (join₂ types)))
    (cs : List Char) : Tracks f (readAll find? join₁ cs) (readAll find? join₂ cs) := by
  unfold readAll
  refine tracks_bind (tracks_readAlternatives hjoin _ cs) fun ⟨ty, rest⟩ => ?_
  dsimp only
  split
  · exact tracks_pure _
  · exact tracks_fail _ _

end

end Ty.Reader

namespace TypeRegistry

/-- **What reading takes from a registry**: names.  The unions that are asked for while a text
    is read can be listed, and the registry that read the text remembers them. -/
theorem read_eq (registry : TypeRegistry) (source : List Char) :
    registry.read source =
      let (outcome, built) :=
        (Ty.Reader.readAll registry.find? Ty.Reader.listing source).run.run []
      (match outcome with
        | .ok ty => .ok ty
        | .error (cause, left) => .error ⟨cause, source.length - left + 1⟩,
        built.foldr (fun ty r => r.remember ty) registry) := by
  have hjoin : ∀ types, Ty.Reader.Tracks
      (fun built : List Ty => built.foldr (fun ty r => r.remember ty) registry)
      (liftM (Ty.Reader.listing types)) (liftM (askUnion types)) := by
    intro types built
    change (Except.ok (union _ types).1, (union _ types).2) = _
    rw [union_eq]
    rfl
  have hrun : (Ty.Reader.readAll registry.find? askUnion source).run.run registry = _ :=
    Ty.Reader.tracks_readAll hjoin source []
  rw [read]
  dsimp only
  rw [hrun]
  rfl

end TypeRegistry

end Stencil
