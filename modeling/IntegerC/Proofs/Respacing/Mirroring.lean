import IntegerC.Proofs.Ensures
import IntegerC.Proofs.Grammar.Spans

set_option autoImplicit false

/-! # Computations without spans

A pass that is run on input without spans does what it does on the input itself: it answers the same
result without spans, or fails with the same fault without spans. `Mirrors` says so of a
computation, and `MirrorsFrom` of one with a state. The rules follow the steps of the two
computations, of which the second one is always the one without spans.
-/

namespace IntegerC

/-! ## Faults -/

def Token.bare (t : Token) : Token := { t with span := .nowhere }

def Cause.bare : Cause → Cause
  | unexpectedToken expected found => unexpectedToken expected found.bare
  | c => c

/-- A fault without spans; where one was known it is nowhere now. -/
def Fault.bare (f : Fault) : Fault := ⟨f.cause.bare, f.span.map fun _ => .nowhere⟩

theorem Cause.category_bare (c : Cause) : c.bare.category = c.category := by cases c <;> rfl

theorem Cause.message_bare (c : Cause) : c.bare.message = c.message := by cases c <;> rfl

/-! ## Expressions -/

@[simp] theorem Expr.span_bare (e : Expr) : e.bare.span = .nowhere := by cases e <;> rfl

@[simp] theorem Expr.isVar_bare (e : Expr) : e.bare.isVar = e.isVar := by cases e <;> rfl

@[simp] theorem Expr.type_bare (e : Expr) : e.bare.type = e.type := by cases e <;> rfl

/-! ## Declarations -/

theorem VarDecl.name_bare (d : VarDecl) : d.bare.name = d.name := rfl

theorem VarDecl.storage_bare (d : VarDecl) : d.bare.storage = d.storage := rfl

theorem FunHeader.name_bare (h : FunHeader) : h.bare.name = h.name := rfl

variable {α α' β β' σ : Type} {f : α → α'} {k : β → β'} {h : σ → σ}

/-! ## Computations without a state -/

/-- The computation `r'` ends as `r` does, without spans: with `f` of the result, or with the bare
fault. -/
def Mirrors (f : α → α') (r : Except Fault α) (r' : Except Fault α') : Prop :=
  match r with
  | .ok a => r' = .ok (f a)
  | .error e => r' = .error e.bare

namespace Mirrors

/-- There is just one such computation. -/
theorem eq {r : Except Fault α} {r₁ r₂ : Except Fault α'} (h₁ : Mirrors f r r₁)
    (h₂ : Mirrors f r r₂) : r₁ = r₂ := by
  cases r with
  | ok a => exact Eq.trans h₁ (Eq.symm h₂)
  | error e => exact Eq.trans h₁ (Eq.symm h₂)

theorem pure {a : α} {a' : α'} (ha : a' = f a) : Mirrors f (.ok a) (.ok a') :=
  congrArg Except.ok ha

theorem error {e e' : Fault} (he : e' = e.bare) :
    Mirrors f (.error e : Except Fault α) (.error e') :=
  congrArg Except.error he

/-- What mirrors may be followed by continuations that mirror. -/
theorem bind {r : Except Fault α} {r' : Except Fault α'} {g : α → Except Fault β}
    {g' : α' → Except Fault β'} (hr : Mirrors f r r') (hg : ∀ a, Mirrors k (g a) (g' (f a))) :
    Mirrors k (r >>= g) (r' >>= g') := by
  cases r with
  | ok a =>
      cases hr
      exact hg a
  | error e =>
      cases hr
      rfl

theorem map {r : Except Fault α} {r' : Except Fault α'} {g : α → β} {g' : α' → β'}
    (hr : Mirrors f r r') (hg : ∀ a, g' (f a) = k (g a)) : Mirrors k (r.map g) (r'.map g') := by
  cases r with
  | ok a =>
      cases hr
      exact congrArg Except.ok (hg a)
  | error e =>
      cases hr
      rfl

theorem ite {c : Prop} [Decidable c] {x y : Except Fault α} {x' y' : Except Fault α'}
    (hx : c → Mirrors f x x') (hy : ¬ c → Mirrors f y y') :
    Mirrors f (if c then x else y) (if c then x' else y') := by
  by_cases hc : c
  · rw [if_pos hc, if_pos hc]
    exact hx hc
  · rw [if_neg hc, if_neg hc]
    exact hy hc

end Mirrors

/-! ## Computations with a state -/

/-- From the bare state `h s` the computation `x'` ends as `x` does from `s`, without spans. -/
def MirrorsFrom (h : σ → σ) (f : α → α') (x : StateT σ (Except Fault) α)
    (x' : StateT σ (Except Fault) α') : Prop :=
  ∀ s, Mirrors (Prod.map f h) (x.run s) (x'.run (h s))

namespace MirrorsFrom

theorem pure {a : α} {a' : α'} (ha : a' = f a) :
    MirrorsFrom h f (Pure.pure a) (Pure.pure a') :=
  fun s => Mirrors.pure (congrArg (·, h s) ha)

theorem throw {e e' : Fault} (he : e' = e.bare) :
    MirrorsFrom h f (MonadExcept.throw e) (MonadExcept.throw e') :=
  fun _ => Mirrors.error he

theorem bind {x : StateT σ (Except Fault) α} {x' : StateT σ (Except Fault) α'}
    {g : α → StateT σ (Except Fault) β} {g' : α' → StateT σ (Except Fault) β'}
    (hx : MirrorsFrom h f x x') (hg : ∀ a, MirrorsFrom h k (g a) (g' (f a))) :
    MirrorsFrom h k (x >>= g) (x' >>= g') := by
  intro s
  rw [StateT.run_bind, StateT.run_bind]
  exact (hx s).bind fun p => hg p.1 p.2

theorem map {x : StateT σ (Except Fault) α} {x' : StateT σ (Except Fault) α'} {g : α → β}
    {g' : α' → β'} (hx : MirrorsFrom h f x x') (hg : ∀ a, g' (f a) = k (g a)) :
    MirrorsFrom h k (g <$> x) (g' <$> x') := by
  intro s
  rw [StateT.run_map, StateT.run_map]
  exact (hx s).bind fun p => Mirrors.pure (congrArg (·, h p.2) (hg p.1))

theorem get : MirrorsFrom h h MonadState.get MonadState.get := fun _ => rfl

theorem set {s : σ} : MirrorsFrom h id (MonadStateOf.set s) (MonadStateOf.set (h s)) :=
  fun _ => rfl

theorem update {g : σ → σ} (hg : ∀ s, g (h s) = h (g s)) :
    MirrorsFrom h id (modify g) (modify g) :=
  fun s => Mirrors.pure (congrArg (PUnit.unit, ·) (hg s))

/-- States without spans change as they do anyway. -/
theorem update_id {g : σ → σ} : MirrorsFrom id id (modify g) (modify g) := .update fun _ => rfl

/-- A step that does not look at the state. -/
theorem lift {r : Except Fault α} {r' : Except Fault α'} (hr : Mirrors f r r') :
    MirrorsFrom h f (liftM r) (liftM r') := by
  intro s
  cases r with
  | ok a =>
      cases hr
      rfl
  | error e =>
      cases hr
      rfl

theorem ite {c : Prop} [Decidable c] {x y : StateT σ (Except Fault) α}
    {x' y' : StateT σ (Except Fault) α'} (hx : c → MirrorsFrom h f x x')
    (hy : ¬ c → MirrorsFrom h f y y') :
    MirrorsFrom h f (if c then x else y) (if c then x' else y') := by
  by_cases hc : c
  · rw [if_pos hc, if_pos hc]
    exact hx hc
  · rw [if_neg hc, if_neg hc]
    exact hy hc

/-- What is left of a computation when its state is thrown away. -/
theorem run' {x : StateT σ (Except Fault) α} {x' : StateT σ (Except Fault) α'}
    (hx : MirrorsFrom h f x x') (s : σ) : Mirrors f (x.run' s) (x'.run' (h s)) :=
  (hx s).map fun _ => rfl

end MirrorsFrom

end IntegerC
