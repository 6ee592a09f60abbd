import Mathlib.Data.List.Basic
import IntegerC.Machine.Encodable

set_option autoImplicit false

/-! # Mending comes to an end

Whatever comes out of a rule goes through all the rules again. `mendWithin` bounds how deep that may
go, and for any list of rules a small depth is enough: what a rule puts in place of an instruction
weighs less, and no instruction weighs much. No rule fits what comes out in the end, so mending it
again leaves it as it is.
-/

namespace IntegerC.Machine

variable {rules : List Rule} {i : Instr}

/-! ## Depth -/

/-- The instruction with every defect mended that one of the rules mends, if the output of a rule
needs to be mended no more than `depth` times over. -/
def mendWithin (rules : List Rule) : Nat → Instr → Option (List Instr)
  | 0, _ => none
  | depth + 1, i =>
      match rules.findSome? (·.mend? i) with
      | none => some [i]
      | some out => (out.mapM (mendWithin rules depth)).map List.flatten

/-- No instruction has many defects at once: an operand that is large is not in memory. -/
theorem Instr.weight_le (i : Instr) : i.weight ≤ 21 := by
  cases i <;> grind [Instr.weight, overlong, oneIf, Operand.isMemory_of_isLarge]

/-- A walk over a list has a result if every step has one. -/
theorem mapM_eq_some_map {α β : Type} {f : α → Option β} {g : α → β} {xs : List α}
    (h : ∀ x ∈ xs, f x = some (g x)) : xs.mapM f = some (xs.map g) := by
  induction xs with
  | nil => rfl
  | cons x xs ih =>
      obtain ⟨hx, hxs⟩ := List.forall_mem_cons.1 h
      simp [List.mapM_cons, hx, ih hxs]

/-- What an instruction weighs bounds how deep its mending goes. -/
theorem mendWithin_eq_some_mend {depth : Nat} (h : i.weight < depth) :
    mendWithin rules depth i = some (mend rules i) := by
  induction depth generalizing i with
  | zero => exact absurd h (Nat.not_lt_zero _)
  | succ depth ih =>
      rw [mendWithin, mend_eq]
      cases hfound : rules.findSome? (·.mend? i) with
      | none => rfl
      | some out =>
          obtain ⟨r, -, hr⟩ := List.exists_of_findSome?_eq_some hfound
          have hparts : ∀ j ∈ out, mendWithin rules depth j = some (mend rules j) := by
            intro j hj
            have hlighter := Rule.weight_lt hr hj
            exact ih (by omega)
          simp [mapM_eq_some_map hparts, List.flatMap_def]

/-! ## Fixpoints -/

/-- An instruction that no rule fits stays as it is. -/
theorem mend_of_fits_none (h : ∀ r ∈ rules, r.mend? i = none) : mend rules i = [i] := by
  rw [mend_eq, List.findSome?_eq_none_iff.2 h]

/-- No rule fits an instruction that comes out. -/
theorem fits_none_of_mem_mend {j : Instr} (hj : j ∈ mend rules i) : ∀ r ∈ rules, r.mend? j = none :=
  (forall_mem_mend (p := fun _ => True) (fun _ _ _ _ _ _ _ _ => trivial) trivial j hj).2

/-- With any rules in any order mending comes to an end, no rule fits what comes out, and mending
that again changes nothing. -/
theorem mend_reaches_fixpoint (rules : List Rule) (i : Instr) :
    (∀ n, mendWithin rules (22 + n) i = some (mend rules i)) ∧
      (∀ j ∈ mend rules i, ∀ r ∈ rules, r.mend? j = none) ∧
      (mend rules i).flatMap (mend rules) = mend rules i := by
  have hfits : ∀ j ∈ mend rules i, ∀ r ∈ rules, r.mend? j = none :=
    fun j hj => fits_none_of_mem_mend hj
  refine ⟨fun n => mendWithin_eq_some_mend ?_, hfits, ?_⟩
  · have hweight := i.weight_le
    omega
  · calc (mend rules i).flatMap (mend rules)
        = (mend rules i).flatMap fun j => [j] :=
          List.flatMap_congr fun j hj => mend_of_fits_none (hfits j hj)
      _ = mend rules i := List.flatMap_singleton' _

end IntegerC.Machine
