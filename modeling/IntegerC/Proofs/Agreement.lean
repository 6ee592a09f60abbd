import IntegerC.Fault

set_option autoImplicit false

/-! # Two computations side by side

`Agree r r' ok` says that two computations both fail, with whatever faults, or both succeed, with
results that `ok` holds of. The rules follow the steps of two computations of one shape, with and
without a state.
-/

namespace IntegerC

variable {α α' β β' σ σ' : Type}

/-- Both computations fail, or both succeed and `ok` holds of their results. -/
def Agree (r : Except Fault α) (r' : Except Fault α') (ok : α → α' → Prop) : Prop :=
  match r, r' with
  | .ok a, .ok a' => ok a a'
  | .error _, .error _ => True
  | _, _ => False

namespace Agree

/-! ## Introduction and elimination -/

theorem pure {ok : α → α' → Prop} {a : α} {a' : α'} (h : ok a a') :
    Agree (.ok a) (.ok a') ok := h

theorem error {ok : α → α' → Prop} (f f' : Fault) :
    Agree (.error f : Except Fault α) (.error f' : Except Fault α') ok := trivial

/-- The two ways in which computations agree. -/
theorem cases {r : Except Fault α} {r' : Except Fault α'} {ok : α → α' → Prop}
    (h : Agree r r' ok) :
    (∃ a a', r = .ok a ∧ r' = .ok a' ∧ ok a a') ∨ ∃ f f', r = .error f ∧ r' = .error f' := by
  cases r with
  | ok a =>
      cases r' with
      | ok a' => exact .inl ⟨a, a', rfl, rfl, h⟩
      | error f' => exact False.elim h
  | error f =>
      cases r' with
      | ok a' => exact False.elim h
      | error f' => exact .inr ⟨f, f', rfl, rfl⟩

theorem imp {r : Except Fault α} {r' : Except Fault α'} {ok ok' : α → α' → Prop}
    (h : Agree r r' ok) (hok : ∀ a a', ok a a' → ok' a a') : Agree r r' ok' := by
  rcases h.cases with ⟨a, a', rfl, rfl, ha⟩ | ⟨f, f', rfl, rfl⟩
  · exact hok a a' ha
  · trivial

/-! ## Computations without a state -/

theorem bind {r : Except Fault α} {r' : Except Fault α'} {g : α → Except Fault β}
    {g' : α' → Except Fault β'} {q : α → α' → Prop} {ok : β → β' → Prop} (h : Agree r r' q)
    (hg : ∀ a a', q a a' → Agree (g a) (g' a') ok) : Agree (r >>= g) (r' >>= g') ok := by
  rcases h.cases with ⟨a, a', rfl, rfl, ha⟩ | ⟨f, f', rfl, rfl⟩
  · exact hg a a' ha
  · trivial

theorem map {r : Except Fault α} {r' : Except Fault α'} {g : α → β} {g' : α' → β'}
    {ok : β → β' → Prop} (h : Agree r r' fun a a' => ok (g a) (g' a')) :
    Agree (r.map g) (r'.map g') ok := by
  rcases h.cases with ⟨a, a', rfl, rfl, ha⟩ | ⟨f, f', rfl, rfl⟩
  · exact ha
  · trivial

theorem ite {c : Prop} [Decidable c] {x y : Except Fault α} {x' y' : Except Fault α'}
    {ok : α → α' → Prop} (hx : c → Agree x x' ok) (hy : ¬ c → Agree y y' ok) :
    Agree (if c then x else y) (if c then x' else y') ok := by
  by_cases h : c
  · rw [if_pos h, if_pos h]
    exact hx h
  · rw [if_neg h, if_neg h]
    exact hy h

/-! ## Computations with a state -/

theorem run_pure {s : σ} {s' : σ'} {a : α} {a' : α'} {ok : α × σ → α' × σ' → Prop}
    (h : ok (a, s) (a', s')) :
    Agree ((Pure.pure a : StateT σ (Except Fault) α).run s)
      ((Pure.pure a' : StateT σ' (Except Fault) α').run s') ok := h

theorem run_throw {s : σ} {s' : σ'} {f f' : Fault} {ok : α × σ → α' × σ' → Prop} :
    Agree ((throw f : StateT σ (Except Fault) α).run s)
      ((throw f' : StateT σ' (Except Fault) α').run s') ok := trivial

theorem run_bind {x : StateT σ (Except Fault) α} {x' : StateT σ' (Except Fault) α'}
    {g : α → StateT σ (Except Fault) β} {g' : α' → StateT σ' (Except Fault) β'} {s : σ} {s' : σ'}
    {q : α × σ → α' × σ' → Prop} {ok : β × σ → β' × σ' → Prop} (h : Agree (x.run s) (x'.run s') q)
    (hg : ∀ a a' s₁ s₁', q (a, s₁) (a', s₁') → Agree ((g a).run s₁) ((g' a').run s₁') ok) :
    Agree ((x >>= g).run s) ((x' >>= g').run s') ok := by
  rw [StateT.run_bind, StateT.run_bind]
  exact h.bind fun p p' hp => hg p.1 p'.1 p.2 p'.2 hp

theorem run_get {g : σ → StateT σ (Except Fault) β} {g' : σ' → StateT σ' (Except Fault) β'}
    {s : σ} {s' : σ'} {ok : β × σ → β' × σ' → Prop}
    (h : Agree ((g s).run s) ((g' s').run s') ok) :
    Agree ((get >>= g).run s) ((get >>= g').run s') ok := h

theorem run_modify {f : σ → σ} {f' : σ' → σ'} {g : PUnit → StateT σ (Except Fault) β}
    {g' : PUnit → StateT σ' (Except Fault) β'} {s : σ} {s' : σ'} {ok : β × σ → β' × σ' → Prop}
    (h : Agree ((g ⟨⟩).run (f s)) ((g' ⟨⟩).run (f' s')) ok) :
    Agree ((modify f >>= g).run s) ((modify f' >>= g').run s') ok := h

/-- A step that does not look at the state leaves it alone. -/
theorem run_lift {x : Except Fault α} {x' : Except Fault α'} {g : α → StateT σ (Except Fault) β}
    {g' : α' → StateT σ' (Except Fault) β'} {s : σ} {s' : σ'} {q : α → α' → Prop}
    {ok : β × σ → β' × σ' → Prop} (h : Agree x x' q)
    (hg : ∀ a a', q a a' → Agree ((g a).run s) ((g' a').run s') ok) :
    Agree ((liftM x >>= g).run s) ((liftM x' >>= g').run s') ok := by
  rcases h.cases with ⟨a, a', rfl, rfl, ha⟩ | ⟨f, f', rfl, rfl⟩
  · exact hg a a' ha
  · trivial

/-- The same at the end of a computation. -/
theorem run_lift_last {x : Except Fault α} {x' : Except Fault α'} {s : σ} {s' : σ'}
    {ok : α × σ → α' × σ' → Prop} (h : Agree x x' fun a a' => ok (a, s) (a', s')) :
    Agree ((liftM x : StateT σ (Except Fault) α).run s)
      ((liftM x' : StateT σ' (Except Fault) α').run s') ok := by
  rcases h.cases with ⟨a, a', rfl, rfl, ha⟩ | ⟨f, f', rfl, rfl⟩
  · exact ha
  · trivial

theorem run_ite {c c' : Prop} [Decidable c] [Decidable c'] {x y : StateT σ (Except Fault) α}
    {x' y' : StateT σ' (Except Fault) α'} {s : σ} {s' : σ'} {ok : α × σ → α' × σ' → Prop}
    (hc : c ↔ c') (hx : c → Agree (x.run s) (x'.run s') ok)
    (hy : ¬ c → Agree (y.run s) (y'.run s') ok) :
    Agree ((if c then x else y).run s) ((if c' then x' else y').run s') ok := by
  by_cases h : c
  · rw [if_pos h, if_pos (hc.1 h)]
    exact hx h
  · rw [if_neg h, if_neg fun h' => h (hc.2 h')]
    exact hy h

theorem run_map {x : StateT σ (Except Fault) α} {x' : StateT σ' (Except Fault) α'} {g : α → β}
    {g' : α' → β'} {s : σ} {s' : σ'} {ok : β × σ → β' × σ' → Prop}
    (h : Agree (x.run s) (x'.run s') fun p p' => ok (g p.1, p.2) (g' p'.1, p'.2)) :
    Agree ((g <$> x).run s) ((g' <$> x').run s') ok := by
  rw [StateT.run_map, StateT.run_map]
  exact h.bind fun _ _ => id

end Agree

end IntegerC
