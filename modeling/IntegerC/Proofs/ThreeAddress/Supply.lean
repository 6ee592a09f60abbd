import Mathlib.Data.List.Nodup
import Mathlib.Data.List.Perm.Subperm
import IntegerC.Proofs.Checking
import IntegerC.ThreeAddress.Code

set_option autoImplicit false

/-! # Temporaries and labels

Making code adds temporaries to the symbol table and uses up numbers of labels. A temporary gets a
name that the table does not have: a table has fewer names than there are numbers to try. So code
that is made later does not touch what was known before.
-/

namespace IntegerC.ThreeAddress

/-! ## Free numbers -/

/-- If the number that was found is taken, then so are all numbers that were tried. -/
theorem taken_of_freeNumber_taken (t : SymbolTable) (tries : Nat) :
    ∀ n, t.Knows (temporaryName (freeNumber t tries n)) →
      ∀ i ≤ tries, t.Knows (temporaryName (n + i)) := by
  induction tries with
  | zero =>
      intro n h i hi
      obtain rfl : i = 0 := by omega
      exact h
  | succ tries ih =>
      intro n h i hi
      rw [freeNumber] at h
      split at h
      · rename_i hn
        cases i with
        | zero =>
            intro e
            rw [Nat.add_zero] at e
            rw [SymbolTable.typeOf?_eq_none.1 e] at hn
            cases hn
        | succ i =>
            have hi' := ih (n + 1) h i (by omega)
            rwa [Nat.add_right_comm] at hi'
      · rename_i hn
        refine absurd h ?_
        rw [SymbolTable.Knows, ne_eq, Decidable.not_not, SymbolTable.typeOf?_eq_none]
        simpa using hn

theorem mem_names_of_knows {t : SymbolTable} {x : String} (h : t.Knows x) : x ∈ t.names := by
  by_contra hx
  exact h (SymbolTable.typeOf?_eq_none.2 ((Table.find?_eq_none_iff t x).2 hx))

/-- A table cannot have as many temporaries as there are numbers to try. -/
theorem not_knows_freeNumber (t : SymbolTable) (n : Nat) :
    ¬ t.Knows (temporaryName (freeNumber t t.length n)) := by
  intro h
  have htaken := taken_of_freeNumber_taken t t.length n h
  -- one name more than the table has entries
  let tried := (List.range (t.length + 1)).map fun i => temporaryName (n + i)
  have hnodup : tried.Nodup := by
    refine List.Nodup.map (fun i j e => ?_) List.nodup_range
    have := temporaryName_inj.1 e
    omega
  have hsub : tried ⊆ t.names := by
    intro x hx
    obtain ⟨i, hi, rfl⟩ := List.mem_map.1 hx
    exact mem_names_of_knows (htaken i (by simpa [Nat.lt_succ_iff] using hi))
  have hlen := (List.subperm_of_subset hnodup hsub).length_le
  simp only [tried, List.length_map, List.length_range, Table.names] at hlen
  omega

/-! ## Growth -/

/-- How a supply grows: known names keep their types, new ones are temporaries, and numbers of
labels are used up. -/
structure Supply.Grows (s s' : Supply) : Prop where
  symbols : s.symbols.Extends s'.symbols
  made : ∀ x, s'.symbols.Knows x → s.symbols.Knows x ∨ ∃ n, x = temporaryName n
  consistent : s.symbols.Consistent → s'.symbols.Consistent
  labels : s.labels ≤ s'.labels

namespace Supply.Grows

variable {s s' s'' : Supply}

theorem refl (s : Supply) : s.Grows s := ⟨.refl _, fun _ h => .inl h, id, Nat.le_refl _⟩

theorem trans (h : s.Grows s') (h' : s'.Grows s'') : s.Grows s'' where
  symbols := h.symbols.trans h'.symbols
  made := fun x hx => (h'.made x hx).elim (h.made x) .inr
  consistent := fun hc => h'.consistent (h.consistent hc)
  labels := Nat.le_trans h.labels h'.labels

/-- A supply that only uses up numbers of labels grows. -/
theorem of_symbols_eq (h : s'.symbols = s.symbols) (hl : s.labels ≤ s'.labels) : s.Grows s' where
  symbols := by
    rw [h]
    exact .refl _
  made := fun x hx => .inl (by rwa [h] at hx)
  consistent := fun hc => by rwa [h]
  labels := hl

end Supply.Grows

namespace Coder

/-- A temporary has a name that was not known, and then has its type. -/
theorem temporary_ensures (τ : IntType) (s : Supply) :
    Succeeds ((temporary τ).run s) (fun o =>
      ∃ x, o.1 = .var x ∧ ¬ s.symbols.Knows x ∧ o.2.symbols.typeOf? x = some (.integer τ) ∧
        s.Grows o.2 ∧ o.2.labels = s.labels) := by
  have hnew := not_knows_freeNumber s.symbols s.temporaries
  refine Ensures.pure ⟨_, rfl, hnew, ?_, ⟨?_, ?_, ?_, Nat.le_refl _⟩, rfl⟩
  · show SymbolTable.typeOf? (Table.put s.symbols _ _) _ = _
    rw [SymbolTable.typeOf?_put, if_pos rfl]
    rfl
  · exact SymbolTable.extends_put (.inl (Decidable.not_not.1 hnew))
  · intro x hx
    rw [SymbolTable.Knows, SymbolTable.typeOf?_put] at hx
    split at hx
    · rename_i e
      exact .inr ⟨_, e⟩
    · exact .inl hx
  · intro hc
    exact SymbolTable.consistent_put hc trivial

theorem label_ensures (word : String) (s : Supply) :
    Succeeds ((label word).run s) (fun o =>
      o.1 = numbered word s.labels ∧ o.2.symbols = s.symbols ∧ o.2.labels = s.labels + 1) :=
  Ensures.pure ⟨rfl, rfl, rfl⟩

end Coder

end IntegerC.ThreeAddress
