import Mathlib.Data.List.Forall2
import IntegerC.Proofs.Typed
import IntegerC.ThreeAddress

set_option autoImplicit false

/-! # Well typed instructions

What the types of the operands of an instruction have to do with each other. A copy keeps the size,
an extension and a truncation change it, an operator works on operands of one type, and a comparison
answers an `int`. Destinations are variables.
-/

namespace IntegerC.ThreeAddress

/-! ## Values -/

namespace Value

/-- A value of type `τ`, where variables have the types of the table. -/
def HasType (t : SymbolTable) : Value → IntType → Prop
  | constant c, τ => c.type = τ
  | var x, τ => t.typeOf? x = some (.integer τ)

/-- A variable of type `τ`, which can be a destination. -/
def Receives (t : SymbolTable) (v : Value) (τ : IntType) : Prop :=
  ∃ x, v = .var x ∧ t.typeOf? x = some (.integer τ)

variable {t u : SymbolTable} {v : Value} {τ : IntType}

theorem HasType.mono (h : t.Extends u) (hv : v.HasType t τ) : v.HasType u τ := by
  cases v with
  | constant c => exact hv
  | var x => exact h x _ hv

theorem Receives.mono (h : t.Extends u) (hv : v.Receives t τ) : v.Receives u τ := by
  obtain ⟨x, rfl, hx⟩ := hv
  exact ⟨x, rfl, h x _ hx⟩

theorem Receives.hasType (hv : v.Receives t τ) : v.HasType t τ := by
  obtain ⟨x, rfl, hx⟩ := hv
  exact hx

end Value

/-! ## Instructions -/

namespace Instr

/-- The types of the operands of an instruction fit. -/
def WellTyped (t : SymbolTable) : Instr → Prop
  | ret v | jumpIfZero v _ | jumpIfNotZero v _ => ∃ τ, v.HasType t τ
  | copy src dst => ∃ σ τ, src.HasType t σ ∧ dst.Receives t τ ∧ σ.size = τ.size
  | signExtend src dst => ∃ τ, src.HasType t .int ∧ dst.Receives t τ ∧ τ.size = 8
  | zeroExtend src dst => ∃ τ, src.HasType t .unsignedInt ∧ dst.Receives t τ ∧ τ.size = 8
  | truncate src dst =>
      ∃ σ τ, src.HasType t σ ∧ dst.Receives t τ ∧ σ.size = 8 ∧ τ.size = 4
  | unary op src dst => ∃ τ, src.HasType t τ ∧ dst.Receives t (op.resultType τ)
  | binary (.arith _) left right dst =>
      ∃ τ, left.HasType t τ ∧ right.HasType t τ ∧ dst.Receives t τ
  | binary (.shift _) left right dst =>
      ∃ τ σ, left.HasType t τ ∧ right.HasType t σ ∧ dst.Receives t τ
  | binary (.compare _) left right dst =>
      ∃ τ, left.HasType t τ ∧ right.HasType t τ ∧ dst.Receives t .int
  | binary (.other _) _ _ _ => False
  | call f args dst =>
      ∃ params τ, t.typeOf? f = some (.function params τ) ∧
        List.Forall₂ (Value.HasType t) args params ∧ dst.Receives t τ
  | jump _ | label _ => True

variable {t u : SymbolTable}

@[simp] theorem wellTyped_jump (target : String) : (jump target).WellTyped t := trivial

@[simp] theorem wellTyped_label (name : String) : (label name).WellTyped t := trivial

/-- An instruction that is well typed stays so when the table learns more names. -/
theorem WellTyped.mono (h : t.Extends u) {i : Instr} (hi : i.WellTyped t) : i.WellTyped u := by
  cases i with
  | ret v | jumpIfZero v _ | jumpIfNotZero v _ =>
      obtain ⟨τ, hv⟩ := hi
      exact ⟨τ, hv.mono h⟩
  | copy src dst =>
      obtain ⟨σ, τ, hs, hd, he⟩ := hi
      exact ⟨σ, τ, hs.mono h, hd.mono h, he⟩
  | signExtend src dst | zeroExtend src dst =>
      obtain ⟨τ, hs, hd, he⟩ := hi
      exact ⟨τ, hs.mono h, hd.mono h, he⟩
  | truncate src dst =>
      obtain ⟨σ, τ, hs, hd, he⟩ := hi
      exact ⟨σ, τ, hs.mono h, hd.mono h, he⟩
  | unary op src dst =>
      obtain ⟨τ, hs, hd⟩ := hi
      exact ⟨τ, hs.mono h, hd.mono h⟩
  | binary op left right dst =>
      cases op with
      | arith op | compare op =>
          obtain ⟨τ, hl, hr, hd⟩ := hi
          exact ⟨τ, hl.mono h, hr.mono h, hd.mono h⟩
      | shift op =>
          obtain ⟨τ, σ, hl, hr, hd⟩ := hi
          exact ⟨τ, σ, hl.mono h, hr.mono h, hd.mono h⟩
      | other name => exact hi
  | call f args dst =>
      obtain ⟨params, τ, hf, hargs, hd⟩ := hi
      exact ⟨params, τ, h _ _ hf, hargs.imp fun _ _ ha => ha.mono h, hd.mono h⟩
  | jump _ | label _ => trivial

end Instr

/-! ## Code -/

def CodeTyped (t : SymbolTable) (code : List Instr) : Prop := ∀ i ∈ code, i.WellTyped t

theorem CodeTyped.mono {t u : SymbolTable} (h : t.Extends u) {code : List Instr}
    (hc : CodeTyped t code) : CodeTyped u code :=
  fun i hi => (hc i hi).mono h

@[simp] theorem codeTyped_nil {t : SymbolTable} : CodeTyped t [] := by simp [CodeTyped]

@[simp] theorem codeTyped_cons {t : SymbolTable} {i : Instr} {code : List Instr} :
    CodeTyped t (i :: code) ↔ i.WellTyped t ∧ CodeTyped t code :=
  List.forall_mem_cons

@[simp] theorem codeTyped_append {t : SymbolTable} {code code' : List Instr} :
    CodeTyped t (code ++ code') ↔ CodeTyped t code ∧ CodeTyped t code' :=
  List.forall_mem_append

@[simp] def Instr.label? : Instr → Option String
  | .label l => some l
  | _ => none

/-- The labels that are set in a piece of code. -/
def labelsOf (code : List Instr) : List String := code.filterMap Instr.label?

@[simp] theorem labelsOf_nil : labelsOf [] = [] := rfl

@[simp] theorem labelsOf_cons (i : Instr) (code : List Instr) :
    labelsOf (i :: code) = i.label?.toList ++ labelsOf code := by
  unfold labelsOf
  rw [List.filterMap_cons]
  cases i.label? <;> rfl

@[simp] theorem labelsOf_append (code code' : List Instr) :
    labelsOf (code ++ code') = labelsOf code ++ labelsOf code' :=
  List.filterMap_append

end IntegerC.ThreeAddress
