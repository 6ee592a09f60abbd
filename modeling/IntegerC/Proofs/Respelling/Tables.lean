import IntegerC.Proofs.Respelling.Likeness
import IntegerC.SymbolTable
import Mathlib.Data.List.Forall2

set_option autoImplicit false

/-! # Symbol tables of two spellings

Two runs record their symbols in the same order. So the entries at equal places of the two tables
belong together: the names there correspond, and the symbols are the same. Only the name of an
automatic variable can differ.
-/

namespace IntegerC

/-- The symbol of an automatic variable, whose name may be spelled anew. -/
def Symbol.IsAutomatic (s : Symbol) : Prop := ∃ t, s = .automatic t

namespace SymbolTable

/-- The names stand at the same place of two tables. -/
def Paired (t t' : SymbolTable) (x y : String) : Prop := (x, y) ∈ t.names.zip t'.names

/-- Tables with the same symbols under names that correspond by `V`, and under the same names where
the symbols are not those of automatic variables. -/
structure Alike (V : String → String → Prop) (t t' : SymbolTable) : Prop where
  entries : List.Forall₂ (fun e e' => V e.1 e'.1 ∧ e'.2 = e.2 ∧ (e'.1 = e.1 ∨ e.2.IsAutomatic)) t t'
  nodup : t.names.Nodup

variable {V : String → String → Prop} {t t' : SymbolTable} {x y : String}

@[simp] theorem paired_cons {e e' : String × Symbol} :
    Paired (e :: t) (e' :: t') x y ↔ (x = e.1 ∧ y = e'.1) ∨ Paired t t' x y := by
  simp [Paired, Table.names]

theorem not_paired_nil : ¬ Paired [] [] x y := by simp [Paired, Table.names]

theorem Alike.nil : Alike V [] [] := ⟨.nil, .nil⟩

/-- Corresponding names have the same symbol. -/
theorem Alike.find?_eq (hV : Relator.BiUnique V) (h : Alike V t t') (hx : V x y) :
    t'.find? y = t.find? x := by
  obtain ⟨entries, -⟩ := h
  induction entries with
  | nil => rfl
  | @cons e e' t t' he _ ih =>
      obtain ⟨n, s⟩ := e
      obtain ⟨n', s'⟩ := e'
      obtain ⟨hn, hs, -⟩ := he
      dsimp only at hn hs
      rw [Table.find?_cons, Table.find?_cons, ih, hs]
      -- the names correspond one to one, so both searches end at this entry or both go on
      by_cases e : n = x
      · rw [if_pos e, if_pos ((Relator.rel_eq hV hn hx).1 e)]
      · rw [if_neg e, if_neg fun e' => e ((Relator.rel_eq hV hn hx).2 e')]

/-- Corresponding names stand at the same place, if they are in the tables at all. -/
theorem Alike.paired (hV : Relator.BiUnique V) (h : Alike V t t') (hx : V x y) {s : Symbol}
    (hs : t.find? x = some s) : Paired t t' x y ∧ (y = x ∨ s.IsAutomatic) := by
  obtain ⟨entries, -⟩ := h
  induction entries with
  | nil => cases hs
  | @cons e e' t t' he _ ih =>
      obtain ⟨n, s₁⟩ := e
      obtain ⟨n', s₁'⟩ := e'
      obtain ⟨hn, -, hfixed⟩ := he
      dsimp only at hn hfixed
      rw [Table.find?_cons] at hs
      by_cases e : n = x
      · obtain rfl : n' = y := (Relator.rel_eq hV hn hx).1 e
        rw [if_pos e, Option.some.injEq] at hs
        subst e hs
        exact ⟨paired_cons.2 (.inl ⟨rfl, rfl⟩), hfixed⟩
      · rw [if_neg e] at hs
        obtain ⟨hp, hname⟩ := ih hs
        exact ⟨paired_cons.2 (.inr hp), hname⟩

/-- What is recorded in both tables under corresponding names stands at the same place. -/
theorem Alike.put (hV : Relator.BiUnique V) (h : Alike V t t') (hx : V x y) {s : Symbol}
    (hs : y = x ∨ s.IsAutomatic) :
    Alike V (t.put x s) (t'.put y s) ∧ Paired (t.put x s) (t'.put y s) x y ∧
      ∀ a b, Paired t t' a b → Paired (t.put x s) (t'.put y s) a b := by
  have hnodup := Table.nodup_put h.nodup x s
  obtain ⟨entries, -⟩ := h
  -- that no name occurs twice is said of the whole table, so the induction leaves it out
  suffices hall : List.Forall₂
      (fun e e' => V e.1 e'.1 ∧ e'.2 = e.2 ∧ (e'.1 = e.1 ∨ e.2.IsAutomatic))
      (t.put x s) (t'.put y s) ∧ Paired (t.put x s) (t'.put y s) x y ∧
      ∀ a b, Paired t t' a b → Paired (t.put x s) (t'.put y s) a b from
    ⟨⟨hall.1, hnodup⟩, hall.2⟩
  clear hnodup
  induction entries with
  | nil =>
      refine ⟨.cons ⟨hx, rfl, hs⟩ .nil, paired_cons.2 (.inl ⟨rfl, rfl⟩), fun a b hab => ?_⟩
      exact absurd hab not_paired_nil
  | @cons e e' t t' he hrest ih =>
      obtain ⟨n, s₁⟩ := e
      obtain ⟨n', s₁'⟩ := e'
      obtain ⟨hn, hs₁, hfixed⟩ := he
      dsimp only at hn hs₁ hfixed
      by_cases e : n = x
      · have e' : n' = y := (Relator.rel_eq hV hn hx).1 e
        subst e e'
        simp only [Table.put, if_true]
        exact ⟨.cons ⟨hn, rfl, hs⟩ hrest, paired_cons.2 (.inl ⟨rfl, rfl⟩),
          fun a b hab => paired_cons.2 (paired_cons.1 hab)⟩
      · have e' : n' ≠ y := fun e' => e ((Relator.rel_eq hV hn hx).2 e')
        obtain ⟨hall, hp, hkeep⟩ := ih
        simp only [Table.put, e, e', if_false]
        exact ⟨.cons ⟨hn, hs₁, hfixed⟩ hall, paired_cons.2 (.inr hp),
          fun a b hab => paired_cons.2 ((paired_cons.1 hab).imp id (hkeep a b))⟩

end SymbolTable

end IntegerC
