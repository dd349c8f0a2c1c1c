/-
  Stencil/Proofs/Outcome.lean
  ===========================
  **Computations that end well.**

  What the readers need to know about a computation that may fail: each of its
  steps ended well, and what every step keeps is kept by all of them.  A
  computation that looks at a part of the state only is steady on the states
  with one such part, which its steps keep.
-/
import Mathlib.Data.List.Forall2
import Mathlib.Data.List.Perm.Basic
import Mathlib.Tactic.Choose
import Stencil.ParseError

namespace Stencil

variable {ε ε' α β : Type}

theorem bind_eq_ok {x : Except ε α} {f : α → Except ε β} {b : β} :
    x >>= f = .ok b ↔ ∃ a, x = .ok a ∧ f a = .ok b := by
  cases x with
  | error e => exact ⟨fun h => (by cases h), fun ⟨_, h, _⟩ => (by cases h)⟩
  | ok a => exact ⟨fun h => ⟨a, rfl, h⟩, fun ⟨_, h, hb⟩ => (by cases h; exact hb)⟩

theorem mapError_eq_ok {x : Except ε α} {f : ε → ε'} {a : α} :
    x.mapError f = .ok a ↔ x = .ok a := by
  cases x with
  | error e => exact ⟨fun h => (by cases h), fun h => (by cases h)⟩
  | ok b => exact ⟨fun h => (by cases h; rfl), fun h => (by cases h; rfl)⟩

theorem bind_eq_error {x : Except ε α} {f : α → Except ε β} {e : ε} :
    x >>= f = .error e ↔ x = .error e ∨ ∃ a, x = .ok a ∧ f a = .error e := by
  cases x with
  | error e' =>
    constructor
    · exact fun h => .inl (by cases h; rfl)
    · rintro (h | ⟨_, h, _⟩)
      · cases h
        rfl
      · cases h
  | ok a =>
    constructor
    · exact fun h => .inr ⟨a, rfl, h⟩
    · rintro (h | ⟨_, h, hf⟩)
      · cases h
      · cases h
        exact hf

theorem mapError_eq_error {x : Except ε α} {f : ε → ε'} {e' : ε'} :
    x.mapError f = .error e' ↔ ∃ e, x = .error e ∧ f e = e' := by
  cases x <;> simp [Except.mapError]

theorem map_eq_ok {x : Except ε α} {f : α → β} {b : β} :
    x.map f = .ok b ↔ ∃ a, x = .ok a ∧ f a = b := by
  cases x <;> simp [Except.map]

theorem map_eq_error {x : Except ε α} {f : α → β} {e : ε} :
    x.map f = .error e ↔ x = .error e := by
  cases x <;> simp [Except.map]

theorem isOk_iff {x : Except ε α} : x.isOk ↔ ∃ a, x = .ok a := by
  cases x with
  | error e => exact ⟨fun h => (nomatch h), fun ⟨_, h⟩ => (nomatch h)⟩
  | ok a => exact ⟨fun _ => ⟨a, rfl⟩, fun _ => rfl⟩

/-- A test of what a computation ends well with, if it does. -/
theorem any_toOption {x : Except ε α} {p : α → Bool} :
    x.toOption.any p ↔ ∃ a, x = .ok a ∧ p a := by
  cases x with
  | error e =>
    refine ⟨fun h => (by cases h), ?_⟩
    rintro ⟨_, h, _⟩
    cases h
  | ok a =>
    refine ⟨fun h => ⟨a, rfl, h⟩, ?_⟩
    rintro ⟨_, h, hp⟩
    cases h
    exact hp

/-- What each step keeps is kept by all steps together. -/
theorem foldlM_keeps {step : β → α → Except ε β} {P : β → Prop} {as : List α} {s s' : β}
    (hstep : ∀ a ∈ as, ∀ s s', P s → step s a = .ok s' → P s') (hs : P s)
    (h : as.foldlM step s = .ok s') : P s' := by
  induction as generalizing s with
  | nil =>
    cases h
    exact hs
  | cons a as ih =>
    rw [List.foldlM_cons, bind_eq_ok] at h
    obtain ⟨mid, hmid, hrest⟩ := h
    exact ih (fun b hb => hstep b (List.mem_cons_of_mem _ hb))
      (hstep a List.mem_cons_self _ _ hs hmid) hrest

/-- If the computation ends well, it ends with a value of the property. -/
def Ensures (P : α → Prop) (x : Except ε α) : Prop := ∀ a, x = .ok a → P a

section

variable {P : α → Prop} {Q : β → Prop} {x : Except ε α}

theorem ensures_ok {a : α} (h : P a) : Ensures P (.ok a : Except ε α) := by
  rintro _ ⟨⟩
  exact h

theorem ensures_error (e : ε) : Ensures P (.error e) := fun _ h => nomatch h

theorem ensures_mapError {f : ε → ε'} (h : Ensures P x) : Ensures P (x.mapError f) :=
  fun a ha => h a (mapError_eq_ok.1 ha)

theorem ensures_bind {f : α → Except ε β} (h : Ensures P x) (hf : ∀ a, P a → Ensures Q (f a)) :
    Ensures Q (x >>= f) := by
  intro b hb
  obtain ⟨a, ha, hb⟩ := bind_eq_ok.1 hb
  exact hf a (h a ha) b hb

end

/-! ### Complaints at lines -/

/-- The computation ends well with a value of the property, or complains at a line of
    the other property. -/
structure Located {Cause : Type} (Q : Nat → Prop) (P : α → Prop) (x : Except (Fault Cause) α) :
    Prop where
  ensures : Ensures P x
  fault : ∀ f, x = .error f → Q f.line

section

variable {Cause Other : Type} {Q : Nat → Prop} {P : α → Prop} {R : β → Prop}
  {x : Except (Fault Cause) α}

theorem located_ok {a : α} (h : P a) : Located Q P (.ok a : Except (Fault Cause) α) :=
  ⟨ensures_ok h, fun _ hf => nomatch hf⟩

theorem located_error {f : Fault Cause} (h : Q f.line) : Located Q P (.error f) := by
  refine ⟨ensures_error f, ?_⟩
  rintro _ ⟨⟩
  exact h

theorem Located.imp {P' : α → Prop} {Q' : Nat → Prop} (h : Located Q P x) (hP : ∀ a, P a → P' a)
    (hQ : ∀ line, Q line → Q' line) : Located Q' P' x :=
  ⟨fun a ha => hP a (h.ensures a ha), fun f hf => hQ f.line (h.fault f hf)⟩

theorem located_bind {f : α → Except (Fault Cause) β} (h : Located Q P x)
    (hf : ∀ a, P a → Located Q R (f a)) : Located Q R (x >>= f) := by
  cases x with
  | error e => exact located_error (h.fault e rfl)
  | ok a => exact hf a (h.ensures a rfl)

/-- The same complaints in the words of another reader. -/
theorem located_mapError (h : Located Q P x) (g : Cause → Other) :
    Located Q P (x.mapError (Fault.map g)) := by
  cases x with
  | error e => exact located_error (h.fault e rfl)
  | ok a => exact located_ok (h.ensures a rfl)

theorem located_map {f : α → β} (h : Located Q P x) (hf : ∀ a, P a → R (f a)) :
    Located Q R (x.map f) := by
  cases x with
  | error e => exact located_error (h.fault e rfl)
  | ok a => exact located_ok (hf a (h.ensures a rfl))

theorem located_foldlM {f : β → α → Except (Fault Cause) β} {as : List α} {b : β}
    (hstep : ∀ a ∈ as, ∀ b, R b → Located Q R (f b a)) (hb : R b) :
    Located Q R (as.foldlM f b) := by
  induction as generalizing b with
  | nil => exact located_ok hb
  | cons a as ih =>
    rw [List.foldlM_cons]
    exact located_bind (hstep a List.mem_cons_self b hb) fun b hb =>
      ih (fun a ha => hstep a (List.mem_cons_of_mem _ ha)) hb

end

/-! ### Two computations -/

/-- If both computations end well, they end with related values. -/
def Agree (R : α → β → Prop) (x : Except ε α) (y : Except ε' β) : Prop :=
  ∀ a b, x = .ok a → y = .ok b → R a b

section

variable {α' β' : Type} {R : α → β → Prop} {R' : α' → β' → Prop} {x : Except ε α}
  {y : Except ε' β}

theorem agree_ok {a : α} {b : β} (h : R a b) :
    Agree R (.ok a : Except ε α) (.ok b : Except ε' β) := by
  rintro _ _ ⟨⟩ ⟨⟩
  exact h

theorem agree_error (e : ε) : Agree R (.error e) y := fun _ _ h _ => nomatch h

theorem agree_error_right (e : ε') : Agree R x (.error e) := fun _ _ _ h => nomatch h

theorem agree_mapError {ε₁ ε₂ : Type} {f : ε → ε₁} {g : ε' → ε₂} (h : Agree R x y) :
    Agree R (x.mapError f) (y.mapError g) :=
  fun a b ha hb => h a b (mapError_eq_ok.1 ha) (mapError_eq_ok.1 hb)

theorem agree_bind {f : α → Except ε α'} {g : β → Except ε' β'} (h : Agree R x y)
    (hfg : ∀ a b, R a b → Agree R' (f a) (g b)) : Agree R' (x >>= f) (y >>= g) := by
  intro a' b' ha' hb'
  obtain ⟨a, ha, ha'⟩ := bind_eq_ok.1 ha'
  obtain ⟨b, hb, hb'⟩ := bind_eq_ok.1 hb'
  exact hfg a b (h a b ha hb) a' b' ha' hb'

/-- The same computation, with different continuations. -/
theorem agree_bind_self {α : Type} {x : Except ε α} {f g : α → Except ε β}
    {R : β → β → Prop} (h : ∀ a, Agree R (f a) (g a)) : Agree R (x >>= f) (x >>= g) := by
  cases x with
  | error e => exact agree_error e
  | ok a => exact h a

/-- Related steps over related lists. -/
theorem agree_foldlM {S : β → β' → Prop} {T : α → α' → Prop} {f : β → α → Except ε β}
    {g : β' → α' → Except ε' β'} {as : List α} {bs : List α'}
    (hstep : ∀ s s' a b, S s s' → T a b → Agree S (f s a) (g s' b))
    (has : List.Forall₂ T as bs) {s : β} {s' : β'} (hs : S s s') :
    Agree S (as.foldlM f s) (bs.foldlM g s') := by
  induction has generalizing s s' with
  | nil => exact agree_ok hs
  | cons hab _ ih =>
    rw [List.foldlM_cons, List.foldlM_cons]
    exact agree_bind (hstep _ _ _ _ hs hab) fun _ _ h => ih h

end

/-- Both computations end well, with related values, or both complain, with related
    complaints. -/
inductive Tallies (E : ε → ε' → Prop) (R : α → β → Prop) : Except ε α → Except ε' β → Prop
  | ok {a : α} {b : β} (h : R a b) : Tallies E R (.ok a) (.ok b)
  | error {e : ε} {e' : ε'} (h : E e e') : Tallies E R (.error e) (.error e')

/-- Both computations end well, with related values, or neither does. -/
inductive Matches (R : α → β → Prop) : Except ε α → Except ε' β → Prop
  | ok {a : α} {b : β} (h : R a b) : Matches R (.ok a) (.ok b)
  | error (e : ε) (e' : ε') : Matches R (.error e) (.error e')

section

variable {α' β' : Type} {E : ε → ε' → Prop} {R : α → β → Prop} {R' : α' → β' → Prop}
  {x : Except ε α} {y : Except ε' β}

theorem tallies_map {f : α → α'} {g : β → β'} (h : Tallies E R x y)
    (hfg : ∀ a b, R a b → R' (f a) (g b)) : Tallies E R' (x.map f) (y.map g) := by
  cases h with
  | ok h => exact .ok (hfg _ _ h)
  | error h => exact .error h

theorem tallies_bind {f : α → Except ε α'} {g : β → Except ε' β'} (h : Tallies E R x y)
    (hfg : ∀ a b, R a b → Tallies E R' (f a) (g b)) : Tallies E R' (x >>= f) (y >>= g) := by
  cases h with
  | ok h => exact hfg _ _ h
  | error h => exact .error h

/-- Related steps over one list. -/
theorem tallies_foldlM {γ : Type} {f : α → γ → Except ε α} {g : β → γ → Except ε' β} {cs : List γ}
    (hstep : ∀ c ∈ cs, ∀ a b, R a b → Tallies E R (f a c) (g b c)) {a : α} {b : β} (h : R a b) :
    Tallies E R (cs.foldlM f a) (cs.foldlM g b) := by
  induction cs generalizing a b with
  | nil => exact .ok h
  | cons c cs ih =>
    rw [List.foldlM_cons, List.foldlM_cons]
    exact tallies_bind (hstep c List.mem_cons_self a b h) fun a b h =>
      ih (fun c hc => hstep c (List.mem_cons_of_mem _ hc)) h

/-- One computation with two continuations. -/
theorem tallies_bind_self {z : Except ε α} {f : α → Except ε α'} {g : α → Except ε β'}
    (h : ∀ a, z = .ok a → Tallies Eq R' (f a) (g a)) : Tallies Eq R' (z >>= f) (z >>= g) := by
  cases z with
  | ok a => exact h a rfl
  | error e => exact .error rfl

theorem tallies_mapError_self {y : Except ε β} (h : Tallies Eq R x y) (f : ε → ε') :
    Tallies Eq R (x.mapError f) (y.mapError f) := by
  cases h with
  | ok h => exact .ok h
  | error h => exact .error (congrArg f h)

theorem tallies_of_eq_map {y : Except ε β} {f : α → β} (h : y = x.map f)
    (hR : ∀ a, x = .ok a → R a (f a)) : Tallies Eq R x y := by
  subst h
  cases x with
  | ok a => exact .ok (hR a rfl)
  | error e => exact .error rfl

theorem Tallies.eq_map {y : Except ε β} {f : α → β} (h : Tallies Eq (fun a b => b = f a) x y) :
    y = x.map f := by
  cases h with
  | ok h => exact congrArg Except.ok h
  | error h => exact congrArg Except.error h.symm

theorem Tallies.matches (h : Tallies E R x y) : Matches R x y := by
  cases h with
  | ok h => exact .ok h
  | error _ => exact .error _ _

theorem Matches.agree (h : Matches R x y) : Agree R x y := by
  cases h with
  | ok h => exact agree_ok h
  | error e e' => exact agree_error e

theorem Matches.exists_ok {a : α} (h : Matches R (.ok a : Except ε α) y) :
    ∃ b, y = .ok b ∧ R a b := by
  cases h with
  | ok h => exact ⟨_, rfl, h⟩

theorem Matches.imp {R' : α → β → Prop} (h : Matches R x y) (hR : ∀ a b, R a b → R' a b) :
    Matches R' x y := by
  cases h with
  | ok h => exact .ok (hR _ _ h)
  | error e e' => exact .error e e'

end

/-! ### Computations with a state -/

variable {σ : Type}

/-- From some state on the computation ends well with this value. -/
def Gives (x : ExceptT ε (StateM σ) α) (a : α) : Prop := ∃ s s', x.run.run s = (.ok a, s')

theorem exists_gives_of_isOk {x : ExceptT ε (StateM σ) α} {s : σ} (h : (x.run.run s).1.isOk) :
    ∃ a, Gives x a := by
  obtain ⟨a, ha⟩ := isOk_iff.1 h
  exact ⟨a, s, (x.run.run s).2, Prod.ext ha rfl⟩

theorem gives_bind {x : ExceptT ε (StateM σ) α} {f : α → ExceptT ε (StateM σ) β} {b : β}
    (h : Gives (x >>= f) b) : ∃ a, Gives x a ∧ Gives (f a) b := by
  obtain ⟨s, s', h⟩ := h
  rw [ExceptT.run_bind, StateT.run_bind] at h
  cases hx : x.run.run s with
  | mk result mid =>
    rw [hx] at h
    cases result with
    | error e => cases h
    | ok a => exact ⟨a, ⟨s, mid, hx⟩, mid, s', h⟩

theorem eq_of_gives_pure {a b : α} (h : Gives (pure a : ExceptT ε (StateM σ) α) b) : a = b := by
  obtain ⟨s, s', h⟩ := h
  cases h
  rfl

theorem not_gives_throw {e : ε} {a : α} : ¬ Gives (throw e : ExceptT ε (StateM σ) α) a := by
  rintro ⟨s, s', h⟩
  cases h

theorem eq_ok_of_gives_mk {result : Except ε α} {a : α}
    (h : Gives (ExceptT.mk (pure result) : ExceptT ε (StateM σ) α) a) : result = .ok a := by
  obtain ⟨s, s', h⟩ := h
  cases h
  rfl

theorem gives_of_gives_adapt {f : ε → ε'} {x : ExceptT ε (StateM σ) α} {a : α}
    (h : Gives (x.adapt f) a) : Gives x a := by
  obtain ⟨s, s', h⟩ := h
  cases hx : x.run.run s with
  | mk result mid =>
    have hadapt : (x.adapt f).run.run s = (result.mapError f, mid) := by
      change ((x.run.run s).1.mapError f, (x.run.run s).2) = _
      rw [hx]
    rw [hadapt, Prod.mk.injEq] at h
    exact ⟨s, mid, by rw [hx, mapError_eq_ok.1 h.1]⟩

/-- What each step keeps is kept by all steps together. -/
theorem foldlM_gives {step : β → α → ExceptT ε (StateM σ) β} {P : β → Prop} {as : List α}
    {b b' : β} (hstep : ∀ a ∈ as, ∀ b b', P b → Gives (step b a) b' → P b') (hb : P b)
    (h : Gives (as.foldlM step b) b') : P b' := by
  induction as generalizing b with
  | nil => exact eq_of_gives_pure h ▸ hb
  | cons a as ih =>
    rw [List.foldlM_cons] at h
    obtain ⟨mid, hmid, hrest⟩ := gives_bind h
    exact ih (fun c hc => hstep c (List.mem_cons_of_mem _ hc))
      (hstep a List.mem_cons_self _ _ hb hmid) hrest

/-- What is given for a list is given for its elements one by one. -/
theorem forall₂_of_gives_mapM {f : α → ExceptT ε (StateM σ) β} {as : List α} {bs : List β}
    (h : Gives (as.mapM f) bs) : List.Forall₂ (fun a b => Gives (f a) b) as bs := by
  induction as generalizing bs with
  | nil =>
    rw [List.mapM_nil] at h
    rw [← eq_of_gives_pure h]
    exact .nil
  | cons a as ih =>
    rw [List.mapM_cons] at h
    obtain ⟨b, hb, h⟩ := gives_bind h
    obtain ⟨bs', hbs', h⟩ := gives_bind h
    rw [← eq_of_gives_pure h]
    exact .cons hb (ih hbs')

/-- From some state on the computation ends with this complaint. -/
def Fails (x : ExceptT ε (StateM σ) α) (e : ε) : Prop := ∃ s, (x.run.run s).1 = .error e

theorem eq_of_fails_throw {e e' : ε} (h : Fails (throw e : ExceptT ε (StateM σ) α) e') :
    e = e' := by
  obtain ⟨s, h⟩ := h
  cases h
  rfl

theorem not_fails_pure {a : α} {e : ε} : ¬ Fails (pure a : ExceptT ε (StateM σ) α) e := by
  rintro ⟨s, h⟩
  cases h

theorem eq_error_of_fails_mk {result : Except ε α} {e : ε}
    (h : Fails (ExceptT.mk (pure result) : ExceptT ε (StateM σ) α) e) : result = .error e := by
  obtain ⟨s, h⟩ := h
  exact h

theorem fails_bind {x : ExceptT ε (StateM σ) α} {f : α → ExceptT ε (StateM σ) β} {e : ε}
    (h : Fails (x >>= f) e) : Fails x e ∨ ∃ a, Gives x a ∧ Fails (f a) e := by
  obtain ⟨s, h⟩ := h
  rw [ExceptT.run_bind, StateT.run_bind] at h
  cases hx : x.run.run s with
  | mk result mid =>
    rw [hx] at h
    cases result with
    | error e' =>
      cases h
      exact .inl ⟨s, congrArg Prod.fst hx⟩
    | ok a => exact .inr ⟨a, ⟨s, mid, hx⟩, mid, h⟩

theorem fails_adapt {f : ε → ε'} {x : ExceptT ε (StateM σ) α} {e' : ε'}
    (h : Fails (x.adapt f) e') : ∃ e, Fails x e ∧ f e = e' := by
  obtain ⟨s, h⟩ := h
  change (x.run.run s).1.mapError f = .error e' at h
  cases hx : (x.run.run s).1 with
  | error e =>
    rw [hx] at h
    cases h
    exact ⟨e, ⟨s, hx⟩, rfl⟩
  | ok a =>
    rw [hx] at h
    cases h

/-- Steps fail together because one of them does. -/
theorem exists_fails_of_foldlM {step : β → α → ExceptT ε (StateM σ) β} {as : List α} {b : β} {e : ε}
    (h : Fails (as.foldlM step b) e) : ∃ a ∈ as, ∃ b, Fails (step b a) e := by
  induction as generalizing b with
  | nil => exact absurd h not_fails_pure
  | cons a as ih =>
    rw [List.foldlM_cons] at h
    rcases fails_bind h with h | ⟨b', -, h⟩
    · exact ⟨a, List.mem_cons_self, b, h⟩
    · obtain ⟨a', ha', hstep⟩ := ih h
      exact ⟨a', List.mem_cons_of_mem _ ha', hstep⟩

/-- From this state on the computation ends well with this value, in that state. -/
def Runs (x : ExceptT ε (StateM σ) α) (s : σ) (a : α) (s' : σ) : Prop := x.run.run s = (.ok a, s')

theorem runs_pure {a b : α} {s s' : σ} :
    Runs (pure a : ExceptT ε (StateM σ) α) s b s' ↔ a = b ∧ s = s' := by
  constructor
  · intro h
    cases h
    exact ⟨rfl, rfl⟩
  · rintro ⟨rfl, rfl⟩
    rfl

theorem not_runs_throw {e : ε} {a : α} {s s' : σ} :
    ¬ Runs (throw e : ExceptT ε (StateM σ) α) s a s' := fun h => nomatch h

theorem runs_bind {x : ExceptT ε (StateM σ) α} {f : α → ExceptT ε (StateM σ) β} {b : β}
    {s s' : σ} : Runs (x >>= f) s b s' ↔ ∃ a mid, Runs x s a mid ∧ Runs (f a) mid b s' := by
  unfold Runs
  rw [ExceptT.run_bind, StateT.run_bind]
  cases hx : x.run.run s with
  | mk result mid =>
    cases result with
    | error e => exact ⟨fun h => (nomatch h), fun ⟨_, _, h, _⟩ => (nomatch h)⟩
    | ok a =>
      constructor
      · exact fun h => ⟨a, mid, rfl, h⟩
      · rintro ⟨_, _, h, hf⟩
        cases h
        exact hf

theorem runs_adapt {f : ε → ε'} {x : ExceptT ε (StateM σ) α} {a : α} {s s' : σ}
    (h : Runs x s a s') : Runs (x.adapt f) s a s' := by
  change ((x.run.run s).1.mapError f, (x.run.run s).2) = (.ok a, s')
  rw [h]
  rfl

/-! ### Computations that do not look at the whole state -/

/-- From each state with the property the computation ends in the same way, and
    in such a state. -/
def Answers (S : σ → Prop) (x : ExceptT ε (StateM σ) α) (result : Except ε α) : Prop :=
  ∀ s, S s → (x.run.run s).1 = result ∧ S (x.run.run s).2

/-- The computation cannot tell the states with the property apart. -/
def Steady (S : σ → Prop) (x : ExceptT ε (StateM σ) α) : Prop := ∃ result, Answers S x result

variable {S : σ → Prop}

theorem answers_mk (result : Except ε α) :
    Answers S (ExceptT.mk (pure result) : ExceptT ε (StateM σ) α) result := fun _ hs => ⟨rfl, hs⟩

theorem answers_bind {x : ExceptT ε (StateM σ) α} {f : α → ExceptT ε (StateM σ) β}
    {result : Except ε α} {rest : α → Except ε β} (hx : Answers S x result)
    (hf : ∀ a, Answers S (f a) (rest a)) : Answers S (x >>= f) (result >>= rest) := by
  intro s hs
  obtain ⟨hresult, hmid⟩ := hx s hs
  rw [ExceptT.run_bind, StateT.run_bind]
  cases hrun : x.run.run s with
  | mk outcome mid =>
    rw [hrun] at hresult hmid
    subst hresult
    cases outcome with
    | error e => exact ⟨rfl, hmid⟩
    | ok a => exact hf a mid hmid

theorem answers_bind_ok {x : ExceptT ε (StateM σ) α} {f : α → ExceptT ε (StateM σ) β} {a : α}
    {result : Except ε β} (hx : Answers S x (.ok a)) (hf : Answers S (f a) result) :
    Answers S (x >>= f) result := by
  intro s hs
  obtain ⟨hok, hmid⟩ := hx s hs
  rw [ExceptT.run_bind, StateT.run_bind]
  cases hrun : x.run.run s with
  | mk outcome mid =>
    rw [hrun] at hok hmid
    subst hok
    exact hf mid hmid

theorem answers_bind_error {x : ExceptT ε (StateM σ) α} {f : α → ExceptT ε (StateM σ) β} {e : ε}
    (hx : Answers S x (.error e)) : Answers S (x >>= f) (.error e) := by
  intro s hs
  obtain ⟨herror, hmid⟩ := hx s hs
  rw [ExceptT.run_bind, StateT.run_bind]
  cases hrun : x.run.run s with
  | mk outcome mid =>
    rw [hrun] at herror hmid
    subst herror
    exact ⟨rfl, hmid⟩

theorem answers_adapt {x : ExceptT ε (StateM σ) α} {result : Except ε α} (hx : Answers S x result)
    (f : ε → ε') : Answers S (x.adapt f) (result.mapError f) :=
  fun s hs => ⟨congrArg (Except.mapError f) (hx s hs).1, (hx s hs).2⟩

/-- Steps that cannot tell the states apart answer like steps without a state. -/
theorem answers_mapM {f : α → ExceptT ε (StateM σ) β} {answer : α → Except ε β}
    (h : ∀ a, Answers S (f a) (answer a)) (as : List α) :
    Answers S (as.mapM f) (as.mapM answer) := by
  induction as with
  | nil =>
    rw [List.mapM_nil, List.mapM_nil]
    exact answers_mk _
  | cons a as ih =>
    rw [List.mapM_cons, List.mapM_cons]
    exact answers_bind (h a) fun b => answers_bind ih fun bs => answers_mk _

theorem Steady.answers {x : ExceptT ε (StateM σ) α} (hx : Steady S x) {s : σ} (hs : S s) :
    Answers S x (x.run.run s).1 := by
  obtain ⟨result, hresult⟩ := hx
  rwa [(hresult s hs).1]

theorem steady_mk (result : Except ε α) :
    Steady S (ExceptT.mk (pure result) : ExceptT ε (StateM σ) α) := ⟨result, answers_mk result⟩

theorem steady_pure (a : α) : Steady S (pure a : ExceptT ε (StateM σ) α) := steady_mk (.ok a)

theorem steady_throw (e : ε) : Steady S (throw e : ExceptT ε (StateM σ) α) := steady_mk (.error e)

theorem steady_bind {x : ExceptT ε (StateM σ) α} {f : α → ExceptT ε (StateM σ) β}
    (hx : Steady S x) (hf : ∀ a, Steady S (f a)) : Steady S (x >>= f) := by
  obtain ⟨result, hresult⟩ := hx
  choose rest hrest using hf
  exact ⟨_, answers_bind hresult hrest⟩

theorem steady_adapt {x : ExceptT ε (StateM σ) α} (hx : Steady S x) (f : ε → ε') :
    Steady S (x.adapt f) := by
  obtain ⟨result, hresult⟩ := hx
  exact ⟨result.mapError f, answers_adapt hresult f⟩

theorem steady_mapM {f : α → ExceptT ε (StateM σ) β} (h : ∀ a, Steady S (f a)) (as : List α) :
    Steady S (as.mapM f) := by
  choose answer hanswer using h
  exact ⟨_, answers_mapM hanswer as⟩

theorem steady_foldlM {step : β → α → ExceptT ε (StateM σ) β} (h : ∀ b a, Steady S (step b a))
    (as : List α) (b : β) : Steady S (as.foldlM step b) := by
  induction as generalizing b with
  | nil => exact steady_pure b
  | cons a as ih =>
    rw [List.foldlM_cons]
    exact steady_bind (h b a) ih

/-! ### Computations with a state that complain at lines -/

/-- From every state on the computation ends well with a value of the property, or
    complains at a line of the other property. -/
def RunsLocated {Cause : Type} (Q : Nat → Prop) (P : α → Prop)
    (x : ExceptT (Fault Cause) (StateM σ) α) : Prop := ∀ s, Located Q P (x.run.run s).1

section

variable {Cause Other : Type} {Q : Nat → Prop} {P : α → Prop} {R : β → Prop}

theorem runsLocated_mk {result : Except (Fault Cause) α} (h : Located Q P result) :
    RunsLocated Q P (ExceptT.mk (pure result) : ExceptT (Fault Cause) (StateM σ) α) := fun _ => h

theorem runsLocated_pure {a : α} (h : P a) :
    RunsLocated Q P (pure a : ExceptT (Fault Cause) (StateM σ) α) := fun _ => located_ok h

theorem runsLocated_throw {f : Fault Cause} (h : Q f.line) :
    RunsLocated Q P (throw f : ExceptT (Fault Cause) (StateM σ) α) := fun _ => located_error h

theorem runsLocated_bind {x : ExceptT (Fault Cause) (StateM σ) α}
    {f : α → ExceptT (Fault Cause) (StateM σ) β} (hx : RunsLocated Q P x)
    (hf : ∀ a, P a → RunsLocated Q R (f a)) : RunsLocated Q R (x >>= f) := by
  intro s
  have hs := hx s
  rw [ExceptT.run_bind, StateT.run_bind]
  cases hrun : x.run.run s with
  | mk result mid =>
    rw [hrun] at hs
    cases result with
    | error e => exact located_error (hs.fault e rfl)
    | ok a => exact hf a (hs.ensures a rfl) mid

theorem runsLocated_adapt {x : ExceptT (Fault Cause) (StateM σ) α} (h : RunsLocated Q P x)
    (g : Cause → Other) : RunsLocated Q P (x.adapt (Fault.map g)) :=
  fun s => located_mapError (h s) g

/-- A computation that complains without a line, its complaints put at one. -/
theorem runsLocated_adapt_at {line : Nat} (hline : Q line) (x : ExceptT ε (StateM σ) α)
    (g : ε → Cause) :
    RunsLocated Q (fun _ => True) (x.adapt fun e => (⟨g e, line⟩ : Fault Cause)) := by
  intro s
  change Located Q _ ((x.run.run s).1.mapError _)
  cases (x.run.run s).1 with
  | error e => exact located_error hline
  | ok a => exact located_ok trivial

theorem runsLocated_mapM {f : α → ExceptT (Fault Cause) (StateM σ) β} {as : List α}
    (h : ∀ a ∈ as, RunsLocated Q R (f a)) :
    RunsLocated Q (fun bs => ∀ b ∈ bs, R b) (as.mapM f) := by
  induction as with
  | nil =>
    rw [List.mapM_nil]
    exact runsLocated_pure (List.forall_mem_nil _)
  | cons a as ih =>
    rw [List.mapM_cons]
    refine runsLocated_bind (h a List.mem_cons_self) fun b hb => ?_
    refine runsLocated_bind (ih fun a ha => h a (List.mem_cons_of_mem _ ha)) fun bs hbs => ?_
    exact runsLocated_pure (List.forall_mem_cons.2 ⟨hb, hbs⟩)

end

/-! ### Computations that keep a property of the state -/

/-- From each state with the property the computation ends in one, well with a value of
    the second property or with a complaint of the third. -/
def Maintains (S : σ → Prop) (P : α → Prop) (E : ε → Prop) (x : ExceptT ε (StateM σ) α) : Prop :=
  ∀ s, S s → S (x.run.run s).2 ∧ (∀ a, (x.run.run s).1 = .ok a → P a) ∧
    ∀ e, (x.run.run s).1 = .error e → E e

section

variable {P : α → Prop} {Q : β → Prop} {E : ε → Prop}

theorem maintains_pure {a : α} (h : P a) :
    Maintains S P E (pure a : ExceptT ε (StateM σ) α) := by
  intro s hs
  refine ⟨hs, fun a ha => ?_, fun e he => ?_⟩
  · cases ha
    exact h
  · cases he

theorem maintains_throw {e : ε} (h : E e) :
    Maintains S P E (throw e : ExceptT ε (StateM σ) α) := by
  intro s hs
  refine ⟨hs, fun a ha => ?_, fun e he => ?_⟩
  · cases ha
  · cases he
    exact h

theorem maintains_bind {x : ExceptT ε (StateM σ) α} {f : α → ExceptT ε (StateM σ) β}
    (hx : Maintains S P E x) (hf : ∀ a, P a → Maintains S Q E (f a)) :
    Maintains S Q E (x >>= f) := by
  intro s hs
  obtain ⟨hmid, hok, herror⟩ := hx s hs
  rw [ExceptT.run_bind, StateT.run_bind]
  cases hrun : x.run.run s with
  | mk result mid =>
    rw [hrun] at hmid hok herror
    cases result with
    | ok a => exact hf a (hok a rfl) mid hmid
    | error e =>
      refine ⟨hmid, fun b hb => ?_, fun e' he' => ?_⟩
      · cases hb
      · cases he'
        exact herror e rfl

/-- A complaint ends what comes after it. -/
theorem maintains_throw_bind {e : ε} (h : E e) (f : α → ExceptT ε (StateM σ) β) :
    Maintains S Q E ((throw e : ExceptT ε (StateM σ) α) >>= f) :=
  maintains_bind (P := fun _ => False) (maintains_throw h) fun _ hfalse => hfalse.elim

theorem Maintains.imp {x : ExceptT ε (StateM σ) α} {P' : α → Prop} {E' : ε → Prop}
    (h : Maintains S P E x) (hP : ∀ a, P a → P' a) (hE : ∀ e, E e → E' e) :
    Maintains S P' E' x := by
  intro s hs
  obtain ⟨hmid, hok, herror⟩ := h s hs
  exact ⟨hmid, fun a ha => hP a (hok a ha), fun e he => hE e (herror e he)⟩

end

/-! ### Computations that do the same up to what they end with -/

/-- The second computation does what the first does, and ends with another value or
    complaint. -/
def Mirrors (f : α → β) (g : ε → ε') (x : ExceptT ε (StateM σ) α) (y : ExceptT ε' (StateM σ) β) :
    Prop := ∀ s, y.run.run s = (((x.run.run s).1.map f).mapError g, (x.run.run s).2)

section

variable {α' β' : Type} {f : α → β} {g : ε → ε'} {x : ExceptT ε (StateM σ) α}
  {y : ExceptT ε' (StateM σ) β}

theorem mirrors_mk {result : Except ε α} :
    Mirrors f g (ExceptT.mk (pure result) : ExceptT ε (StateM σ) α)
      (ExceptT.mk (pure ((result.map f).mapError g))) := fun _ => rfl

theorem mirrors_pure (a : α) :
    Mirrors f g (pure a : ExceptT ε (StateM σ) α) (pure (f a) : ExceptT ε' (StateM σ) β) :=
  fun _ => rfl

theorem mirrors_throw (e : ε) :
    Mirrors f g (throw e : ExceptT ε (StateM σ) α) (throw (g e) : ExceptT ε' (StateM σ) β) :=
  fun _ => rfl

/-- A computation whose value and complaint are changed once it has ended. -/
theorem mirrors_changed (f : α → β) (g : ε → ε') (x : ExceptT ε (StateM σ) α) :
    Mirrors f g x (do pure (f (← x.adapt g))) := by
  intro s
  have hadapt : (x.adapt g).run.run s = ((x.run.run s).1.mapError g, (x.run.run s).2) := rfl
  rw [ExceptT.run_bind, StateT.run_bind, hadapt]
  cases (x.run.run s).1 with
  | error e => rfl
  | ok a => rfl

theorem mirrors_bind {f' : α' → β'} {rest : α → ExceptT ε (StateM σ) α'}
    {rest' : β → ExceptT ε' (StateM σ) β'} (h : Mirrors f g x y)
    (hrest : ∀ a, Mirrors f' g (rest a) (rest' (f a))) :
    Mirrors f' g (x >>= rest) (y >>= rest') := by
  intro s
  rw [ExceptT.run_bind, StateT.run_bind, ExceptT.run_bind, StateT.run_bind, h s]
  cases hrun : x.run.run s with
  | mk result mid =>
    cases result with
    | error e => rfl
    | ok a => exact hrest a mid

theorem mirrors_adapt {ε₁ ε₂ : Type} {h : ε → ε₁} {h' : ε' → ε₂} {g' : ε₁ → ε₂}
    (hxy : Mirrors f g x y) (hcomm : ∀ e, h' (g e) = g' (h e)) :
    Mirrors f g' (x.adapt h) (y.adapt h') := by
  intro s
  change ((y.run.run s).1.mapError h', (y.run.run s).2) =
    ((((x.run.run s).1.mapError h).map f).mapError g', (x.run.run s).2)
  rw [hxy s]
  cases (x.run.run s).1 with
  | error e => exact congrArg (fun e => (Except.error e, _)) (hcomm e)
  | ok a => rfl

/-- Two computations that mirror a third mirror each other, as far as it comes to. -/
theorem Mirrors.between {γ ε₁ : Type} {z : ExceptT ε₁ (StateM σ) γ} {f' : α → γ} {g' : ε → ε₁}
    {h : β → γ} {k : ε' → ε₁} (hy : Mirrors f g x y) (hz : Mirrors f' g' x z)
    (hok : ∀ s a, (x.run.run s).1 = .ok a → f' a = h (f a))
    (herror : ∀ s e, (x.run.run s).1 = .error e → g' e = k (g e)) : Mirrors h k y z := by
  intro s
  rw [hz s, hy s]
  cases hrun : (x.run.run s).1 with
  | error e => exact congrArg (fun e => (Except.error e, _)) (herror s e hrun)
  | ok a => exact congrArg (fun a => (Except.ok a, _)) (hok s a hrun)

/-- Steps that mirror each other on elements that correspond. -/
theorem mirrors_foldlM {h : α' → β'} {step : α → α' → ExceptT ε (StateM σ) α}
    {step' : β → β' → ExceptT ε' (StateM σ) β} {as : List α'}
    (hstep : ∀ a ∈ as, ∀ b, Mirrors f g (step b a) (step' (f b) (h a))) (b : α) :
    Mirrors f g (as.foldlM step b) ((as.map h).foldlM step' (f b)) := by
  induction as generalizing b with
  | nil => exact mirrors_pure b
  | cons a as ih =>
    rw [List.map_cons, List.foldlM_cons, List.foldlM_cons]
    exact mirrors_bind (hstep a List.mem_cons_self b)
      fun b => ih (fun a ha => hstep a (List.mem_cons_of_mem _ ha)) b

end

/-! ### Several computations, one after the other -/

theorem mapM_eq_pure {m : Type → Type} [Monad m] [LawfulMonad m] {f : α → m β} {g : α → β}
    {as : List α} (h : ∀ a ∈ as, f a = pure (g a)) : as.mapM f = pure (as.map g) := by
  induction as with
  | nil => rfl
  | cons a rest ih =>
    rw [List.mapM_cons, h a List.mem_cons_self, ih fun b hb => h b (List.mem_cons_of_mem _ hb),
      pure_bind, pure_bind, List.map_cons]

theorem mapM_eq_ok_iff {f : α → Except ε β} {as : List α} {bs : List β} :
    as.mapM f = .ok bs ↔ List.Forall₂ (fun a b => f a = .ok b) as bs := by
  induction as generalizing bs with
  | nil =>
    rw [List.mapM_nil, List.forall₂_nil_left_iff]
    exact ⟨fun h => (by cases h; rfl), fun h => h ▸ rfl⟩
  | cons a as ih =>
    simp only [List.mapM_cons, bind_eq_ok, ih, List.forall₂_cons_left_iff]
    constructor
    · rintro ⟨b, hb, bs', hbs', h⟩
      cases h
      exact ⟨b, bs', hb, hbs', rfl⟩
    · rintro ⟨b, bs', hb, hbs', rfl⟩
      exact ⟨b, hb, bs', hbs', rfl⟩

/-- Whether computations end well does not depend on their order. -/
theorem exists_perm_of_mapM {f : α → Except ε β} {as as' : List α} {bs : List β}
    (hperm : as.Perm as') (h : as.mapM f = .ok bs) : ∃ bs', as'.mapM f = .ok bs' ∧ bs.Perm bs' := by
  obtain ⟨bs', hbs', hperm'⟩ := List.perm_comp_forall₂ hperm.symm (mapM_eq_ok_iff.1 h)
  exact ⟨bs', mapM_eq_ok_iff.2 hbs', hperm'.symm⟩

end Stencil
