import IntegerC.Fault

set_option autoImplicit false

/-! # What a computation ensures

The passes fail with a `Fault` or answer a result. `Ensures r bad ok` says both at once: `bad` of
the fault of a computation that fails, `ok` of the result of one that succeeds. With
`bad := fun _ => False` it says that the computation succeeds. The rules below follow the steps of a
computation, with and without a state.
-/

namespace IntegerC

variable {α β σ : Type}

/-- `ok` holds of the result if the computation succeeds, and `bad` of the fault if it fails. -/
def Ensures (r : Except Fault α) (bad : Fault → Prop) (ok : α → Prop) : Prop :=
  match r with
  | .ok a => ok a
  | .error f => bad f

/-- The computation succeeds, and `ok` holds of its result. -/
abbrev Succeeds (r : Except Fault α) (ok : α → Prop) : Prop := Ensures r (fun _ => False) ok

/-- If the computation succeeds, then `ok` holds of its result. -/
abbrev Answers (r : Except Fault α) (ok : α → Prop) : Prop := Ensures r (fun _ => True) ok

namespace Ensures

variable {bad bad' : Fault → Prop}

/-! ## Introduction and elimination -/

theorem pure {ok : α → Prop} {a : α} (h : ok a) : Ensures (.ok a) bad ok := h

theorem error {ok : α → Prop} {f : Fault} (h : bad f) :
    Ensures (.error f : Except Fault α) bad ok := h

theorem ok_of_eq {r : Except Fault α} {ok : α → Prop} (h : Ensures r bad ok) {a : α}
    (e : r = .ok a) : ok a := by
  subst e; exact h

theorem bad_of_eq {r : Except Fault α} {ok : α → Prop} (h : Ensures r bad ok) {f : Fault}
    (e : r = .error f) : bad f := by
  subst e; exact h

/-- A computation all of whose faults are impossible has a result. -/
theorem exists_ok {r : Except Fault α} {ok : α → Prop} (h : Ensures r (fun _ => False) ok) :
    ∃ a, r = .ok a ∧ ok a := by
  cases r with
  | ok a => exact ⟨a, rfl, h⟩
  | error f => exact h.elim

theorem and {r : Except Fault α} {ok ok' : α → Prop} (h : Ensures r bad ok)
    (h' : Ensures r bad ok') : Ensures r bad (fun a => ok a ∧ ok' a) := by
  cases r with
  | ok a => exact ⟨h, h'⟩
  | error f => exact h

theorem mono {r : Except Fault α} {ok ok' : α → Prop} (h : Ensures r bad ok)
    (hbad : ∀ f, bad f → bad' f) (hok : ∀ a, ok a → ok' a) : Ensures r bad' ok' := by
  cases r with
  | ok a => exact hok a h
  | error f => exact hbad f h

/-- The result of a computation that succeeds is its result. -/
theorem self (r : Except Fault α) : Answers r (fun a => r = .ok a) := by
  cases r with
  | ok a => rfl
  | error f => trivial

/-- A computation ends as it does. -/
theorem outcome (r : Except Fault α) : Ensures r (fun f => r = .error f) (fun a => r = .ok a) := by
  cases r <;> rfl

/-- What holds of the result holds of it whatever the faults are. -/
theorem answers {r : Except Fault α} {ok : α → Prop} (h : Ensures r bad ok) : Answers r ok :=
  h.mono (fun _ _ => trivial) fun _ => id

theorem imp {r : Except Fault α} {ok ok' : α → Prop} (h : Ensures r bad ok)
    (hok : ∀ a, ok a → ok' a) : Ensures r bad ok' :=
  h.mono (fun _ hf => hf) hok

/-! ## Computations without a state -/

theorem bind {r : Except Fault α} {g : α → Except Fault β} {q : α → Prop} {ok : β → Prop}
    (h : Ensures r bad q) (hg : ∀ a, q a → Ensures (g a) bad ok) :
    Ensures (r >>= g) bad ok := by
  cases r with
  | ok a => exact hg a h
  | error f => exact h

theorem map {r : Except Fault α} {g : α → β} {ok : β → Prop}
    (h : Ensures r bad (fun a => ok (g a))) : Ensures (r.map g) bad ok := by
  cases r with
  | ok a => exact h
  | error f => exact h

theorem ite {c : Prop} [Decidable c] {x y : Except Fault α} {ok : α → Prop}
    (hx : c → Ensures x bad ok) (hy : ¬ c → Ensures y bad ok) :
    Ensures (if c then x else y) bad ok := by
  split
  · exact hx ‹_›
  · exact hy ‹_›

/-! ## Computations with a state -/

theorem run_pure {s : σ} {a : α} {ok : α × σ → Prop} (h : ok (a, s)) :
    Ensures ((Pure.pure a : StateT σ (Except Fault) α).run s) bad ok := h

theorem run_throw {s : σ} {f : Fault} {ok : α × σ → Prop} (h : bad f) :
    Ensures ((throw f : StateT σ (Except Fault) α).run s) bad ok := h

theorem run_bind {x : StateT σ (Except Fault) α} {g : α → StateT σ (Except Fault) β} {s : σ}
    {q : α × σ → Prop} {ok : β × σ → Prop} (h : Ensures (x.run s) bad q)
    (hg : ∀ a s', q (a, s') → Ensures ((g a).run s') bad ok) :
    Ensures ((x >>= g).run s) bad ok := by
  rw [StateT.run_bind]
  exact h.bind fun p hp => hg p.1 p.2 hp

theorem run_get {g : σ → StateT σ (Except Fault) β} {s : σ} {ok : β × σ → Prop}
    (h : Ensures ((g s).run s) bad ok) : Ensures ((get >>= g).run s) bad ok := h

theorem run_modify {f : σ → σ} {g : PUnit → StateT σ (Except Fault) β} {s : σ} {ok : β × σ → Prop}
    (h : Ensures ((g ⟨⟩).run (f s)) bad ok) : Ensures ((modify f >>= g).run s) bad ok := h

/-- A step that does not look at the state leaves it alone. -/
theorem run_lift {x : Except Fault α} {g : α → StateT σ (Except Fault) β} {s : σ} {q : α → Prop}
    {ok : β × σ → Prop} (h : Ensures x bad q) (hg : ∀ a, q a → Ensures ((g a).run s) bad ok) :
    Ensures ((liftM x >>= g).run s) bad ok := by
  cases x with
  | ok a => exact hg a h
  | error f => exact h

theorem run_ite {c : Prop} [Decidable c] {x y : StateT σ (Except Fault) α} {s : σ}
    {ok : α × σ → Prop} (hx : c → Ensures (x.run s) bad ok) (hy : ¬ c → Ensures (y.run s) bad ok) :
    Ensures ((if c then x else y).run s) bad ok := by
  split
  · exact hx ‹_›
  · exact hy ‹_›

/-- The same at the end of a computation. -/
theorem run_lift_last {x : Except Fault α} {s : σ} {ok : α × σ → Prop}
    (h : Ensures x bad (fun a => ok (a, s))) :
    Ensures ((liftM x : StateT σ (Except Fault) α).run s) bad ok := by
  cases x with
  | ok a => exact h
  | error f => exact h

theorem run_map {x : StateT σ (Except Fault) α} {g : α → β} {s : σ} {ok : β × σ → Prop}
    (h : Ensures (x.run s) bad (fun p => ok (g p.1, p.2))) :
    Ensures ((g <$> x).run s) bad ok := by
  rw [StateT.run_map]
  cases e : x.run s with
  | ok p => exact h.ok_of_eq e
  | error f => exact h.bad_of_eq e

end Ensures

/-! ## Taking a computation apart -/

theorem bind_eq_ok {x : Except Fault α} {g : α → Except Fault β} {b : β} :
    x >>= g = .ok b ↔ ∃ a, x = .ok a ∧ g a = .ok b := by
  cases x with
  | ok a => exact ⟨fun h => ⟨a, rfl, h⟩, fun ⟨_, e, h⟩ => by cases e; exact h⟩
  | error f => exact ⟨fun h => (by cases h), fun ⟨_, e, _⟩ => (by cases e)⟩

theorem map_eq_ok {x : Except Fault α} {g : α → β} {b : β} :
    x.map g = .ok b ↔ ∃ a, x = .ok a ∧ g a = b := by
  cases x with
  | ok a => simp [Except.map]
  | error f => simp [Except.map]

theorem bind_eq_error_iff {x : Except Fault α} {g : α → Except Fault β} {f : Fault} :
    (x >>= g) = .error f ↔ x = .error f ∨ ∃ a, x = .ok a ∧ g a = .error f := by
  cases x <;> simp [bind, Except.bind]

theorem map_eq_error {x : Except Fault α} {g : α → β} {f : Fault} :
    x.map g = .error f ↔ x = .error f := by
  cases x <;> simp [Except.map]

/-- What an evaluation says of a computation that succeeds, in the form that evaluates. -/
theorem toOption_bind_eq_some {x : Except Fault α} {g : α → Option β} {b : β} :
    x.toOption.bind g = some b ↔ ∃ a, x = .ok a ∧ g a = some b := by
  cases x with
  | ok a => simp [Except.toOption]
  | error f => simp [Except.toOption]

/-- A computation with a state that succeeds has succeeded in its first step. -/
theorem run_bind_eq_ok {x : StateT σ (Except Fault) α} {g : α → StateT σ (Except Fault) β} {s : σ}
    {r : β × σ} : (x >>= g).run s = .ok r ↔ ∃ o, x.run s = .ok o ∧ (g o.1).run o.2 = .ok r := by
  rw [StateT.run_bind]
  cases x.run s with
  | ok o => exact ⟨fun h => ⟨o, rfl, h⟩, fun ⟨_, e, h⟩ => by cases e; exact h⟩
  | error f => exact ⟨fun h => (by cases h), fun ⟨_, e, _⟩ => (by cases e)⟩

/-- The same in the other direction: a step that succeeds, in front of further steps. -/
theorem run_bind_of_eq {x : StateT σ (Except Fault) α} {g : α → StateT σ (Except Fault) β}
    {s t : σ} {a : α} {r : Except Fault (β × σ)} (hx : x.run s = .ok (a, t))
    (hg : (g a).run t = r) : (x >>= g).run s = r := by
  rw [StateT.run_bind, hx]
  exact hg

/-- A step that does not look at the state and succeeds, in front of further steps. -/
theorem run_lift_of_eq {x : Except Fault α} {g : α → StateT σ (Except Fault) β} {s : σ} {a : α}
    {r : Except Fault (β × σ)} (hx : x = .ok a) (hg : (g a).run s = r) :
    (liftM x >>= g).run s = r := by
  rw [hx]
  exact hg

end IntegerC
