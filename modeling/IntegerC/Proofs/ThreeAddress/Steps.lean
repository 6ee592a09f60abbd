import IntegerC.Proofs.Store
import IntegerC.Proofs.ThreeAddress.WellTyped

set_option autoImplicit false

/-! # Running three-address code

One step carries out the instruction at the program counter. A jump goes to the first place where
its label is set; where no label is set twice that is the only one. `CodeAt code pc part` says that
`part` stands in `code` from `pc` on, which is how the code of a part of a program is found again in
the code of the whole.
-/

namespace IntegerC.ThreeAddress

variable {types : VarTypes}

/-! ## Values -/

namespace Value

def type (types : VarTypes) : Value → IntType
  | constant c => c.type
  | var x => types x

def eval (s : Store types) : Value → Int
  | constant c => c.number
  | var x => s.get x

/-- The store after a number was written to a value. -/
def assign (s : Store types) (n : Int) : Value → Store types
  | constant _ => s
  | var x => s.set x n

theorem HasType.type_eq {t : SymbolTable} {v : Value} {τ : IntType} (h : v.HasType t τ) :
    v.type t.varTypes = τ := by
  cases v with
  | constant c => exact h
  | var x => exact SymbolTable.varTypes_eq h

theorem eval_set_of_ne {v : Value} {x : String} (h : v ≠ var x) (s : Store types) (n : Int) :
    v.eval (s.set x n) = v.eval s := by
  cases v with
  | constant c => rfl
  | var y => exact Store.get_set_of_ne (fun e => h (congrArg var e)) s n

theorem holds_eval (v : Value) (s : Store types) : (v.type types).Holds (v.eval s) := by
  cases v with
  | constant c => exact c.type.holds_wrap _
  | var x => exact s.holds x

end Value

/-- The result of an operator on values of type `t`; none if no instruction is known for it. -/
def Operator.value (w : World) (t : IntType) (a b : Int) : Operator → Option Int
  | arith op => some (op.value w t a b)
  | shift op => some (op.eval t a b)
  | compare op => some (truth (op.holds a b))
  | other _ => none

/-! ## Steps -/

/-- What an instruction does: it goes on with a store, jumps to a label, or returns a number. -/
inductive Effect (types : VarTypes) where
  | next (s : Store types)
  | jump (target : String)
  | finish (n : Int)

def Instr.effect (w : World) (s : Store types) : Instr → Option (Effect types)
  | ret v => some (.finish (v.eval s))
  | signExtend src dst => some (.next (dst.assign s (IntType.int.wrap (src.eval s))))
  | zeroExtend src dst => some (.next (dst.assign s (IntType.unsignedInt.wrap (src.eval s))))
  | truncate src dst | copy src dst => some (.next (dst.assign s (src.eval s)))
  | unary op src dst => some (.next (dst.assign s (op.eval (src.type types) (src.eval s))))
  | binary op left right dst =>
      (op.value w (left.type types) (left.eval s) (right.eval s)).map (.next <| dst.assign s ·)
  | jump target => some (.jump target)
  | jumpIfZero c target => some (if c.eval s = 0 then .jump target else .next s)
  | jumpIfNotZero c target => some (if c.eval s ≠ 0 then .jump target else .next s)
  | label _ => some (.next s)
  | call f args dst => some (.next (dst.assign s (w.call f (args.map (·.eval s)))))

/-- The destination of an operator is not the variable of its right operand. -/
def Instr.DstApart : Instr → Prop
  | binary _ _ right dst => dst ≠ right
  | _ => True

/-- No division by zero, and none of the least value of a type by -1. -/
def Instr.Defined (s : Store types) : Instr → Prop
  | binary (.arith op) left right _ => op = .divide ∨ op = .remainder →
      right.eval s ≠ 0 ∧ ¬ (left.eval s = (left.type types).min ∧ right.eval s = -1)
  | _ => True

/-- Where code is running, or what it has returned. -/
inductive State (types : VarTypes) where
  | running (pc : Nat) (s : Store types)
  | returned (n : Int) (s : Store types)

/-- Where a label is set first. -/
def position? (code : List Instr) (label : String) : Option Nat :=
  code.findIdx? (fun i => i.label? = some label)

/-- One step of code; none behind its end. -/
def State.step (w : World) (code : List Instr) : State types → Option (State types)
  | running pc s => do
      let i ← code[pc]?
      match ← i.effect w s with
      | .next s' => return running (pc + 1) s'
      | .jump target => return running (← position? code target) s
      | .finish n => return returned n s
  | returned _ _ => none

inductive Steps (w : World) (code : List Instr) : Nat → State types → State types → Prop where
  | refl (a : State types) : Steps w code 0 a a
  | head {n : Nat} {a b c : State types} :
      a.step w code = some b → Steps w code n b c → Steps w code (n + 1) a c

/-- Any number of steps. -/
def Runs (w : World) (code : List Instr) (a b : State types) : Prop := ∃ n, Steps w code n a b

variable {w : World} {code : List Instr} {a b c : State types} {m n : Nat}

namespace Steps

/-- Steps follow each other and their numbers add up. -/
theorem trans (h : Steps w code m a b) (h' : Steps w code n b c) : Steps w code (m + n) a c := by
  induction h with
  | refl _ =>
      rw [Nat.zero_add]
      exact h'
  | @head k _ _ _ hs _ ih =>
      rw [Nat.add_right_comm]
      exact .head hs (ih h')

/-- Steps are determined, so a run to the end passes every state that is reached. -/
theorem of_final (h : Steps w code m a b) (h' : Steps w code n a c) (hc : c.step w code = none) :
    ∃ k, n = m + k ∧ Steps w code k b c := by
  induction h generalizing n with
  | refl a => exact ⟨n, (Nat.zero_add n).symm, h'⟩
  | @head m a b _ hs _ ih =>
      cases h' with
      | refl _ => rw [hc] at hs; cases hs
      | @head n _ b' _ hs' h' =>
          obtain rfl : b = b' := Option.some.inj (hs.symm.trans hs')
          obtain ⟨k, rfl, hk⟩ := ih h'
          exact ⟨k, by omega, hk⟩

end Steps

namespace Runs

theorem refl (a : State types) : Runs w code a a := ⟨0, .refl a⟩

theorem head (h : a.step w code = some b) (h' : Runs w code b c) : Runs w code a c := by
  obtain ⟨n, hn⟩ := h'
  exact ⟨n + 1, .head h hn⟩

theorem trans (h : Runs w code a b) (h' : Runs w code b c) : Runs w code a c := by
  obtain ⟨m, hm⟩ := h
  obtain ⟨n, hn⟩ := h'
  exact ⟨m + n, hm.trans hn⟩

end Runs

/-! ## Code in its place -/

/-- The instructions `part` stand in `code` from `pc` on. -/
def CodeAt (code : List Instr) (pc : Nat) (part : List Instr) : Prop :=
  ∃ front back, code = front ++ part ++ back ∧ front.length = pc

namespace CodeAt

variable {pc : Nat} {xs ys : List Instr} {i : Instr}

theorem whole (code : List Instr) : CodeAt code 0 code := ⟨[], [], by simp, rfl⟩

theorem left (h : CodeAt code pc (xs ++ ys)) : CodeAt code pc xs := by
  obtain ⟨front, back, rfl, hpc⟩ := h
  exact ⟨front, ys ++ back, by simp, hpc⟩

theorem right (h : CodeAt code pc (xs ++ ys)) : CodeAt code (pc + xs.length) ys := by
  obtain ⟨front, back, rfl, hpc⟩ := h
  exact ⟨front ++ xs, back, by simp, by simp [hpc]⟩

/-- The second part, from a place that is known to be the end of the first one. -/
theorem behind {pc' : Nat} (h : CodeAt code pc (xs ++ ys)) (e : pc' = pc + xs.length) :
    CodeAt code pc' ys :=
  e ▸ h.right

theorem tail (h : CodeAt code pc (i :: xs)) : CodeAt code (pc + 1) xs := by
  rw [← List.singleton_append] at h
  exact h.right

theorem getElem? (h : CodeAt code pc (i :: xs)) : code[pc]? = some i := by
  obtain ⟨front, back, rfl, rfl⟩ := h
  simp

/-- The place of a label that is set once. -/
theorem position? {l : String} (h : CodeAt code pc (.label l :: xs)) (hn : (labelsOf code).Nodup) :
    ThreeAddress.position? code l = some pc := by
  obtain ⟨front, back, rfl, rfl⟩ := h
  have hfront : ∀ i ∈ front, i.label? ≠ some l := by
    intro i hi he
    have hmem : l ∈ labelsOf front := List.mem_filterMap.2 ⟨i, hi, he⟩
    rw [labelsOf_append, labelsOf_append, List.append_assoc] at hn
    exact (List.nodup_append.1 hn).2.2 l hmem l (by simp) rfl
  rw [ThreeAddress.position?, List.append_assoc, List.findIdx?_append,
    List.findIdx?_eq_none_iff.2 fun i hi => decide_eq_false (hfront i hi)]
  simp [List.findIdx?_cons]

/-! ## One instruction -/

/-- An instruction that neither jumps nor returns. -/
theorem step_next {s s' : Store types} (h : CodeAt code pc (i :: xs))
    (hi : i.effect w s = some (.next s')) :
    (State.running pc s).step w code = some (.running (pc + 1) s') := by
  rw [State.step, h.getElem?]
  simp [hi]

/-- An instruction that returns. -/
theorem step_finish {n : Int} {s : Store types} (h : CodeAt code pc (i :: xs))
    (hi : i.effect w s = some (.finish n)) :
    (State.running pc s).step w code = some (.returned n s) := by
  rw [State.step, h.getElem?]
  simp [hi]

/-- An instruction that jumps. -/
theorem step_jump_to {l : String} {s : Store types} (h : CodeAt code pc (i :: xs))
    (hi : i.effect w s = some (.jump l)) {pc' : Nat}
    (hl : ThreeAddress.position? code l = some pc') :
    (State.running pc s).step w code = some (.running pc' s) := by
  rw [State.step, h.getElem?]
  simp [hi, hl]

/-- A jump to a label which is set once. -/
theorem step_jump {l : String} {s : Store types} (h : CodeAt code pc (i :: xs))
    (hi : i.effect w s = some (.jump l)) {pc' : Nat} {ys : List Instr}
    (h' : CodeAt code pc' (.label l :: ys)) (hn : (labelsOf code).Nodup) :
    (State.running pc s).step w code = some (.running pc' s) :=
  h.step_jump_to hi (h'.position? hn)

end CodeAt

end IntegerC.ThreeAddress
