import IntegerC.Machine.Code
import IntegerC.Proofs.Machine.Bits

set_option autoImplicit false

/-! # Running machine code

A machine has registers of 64 bits, flags, and a memory that says how operands in it are read and
written. An instruction has no effect where the hardware raises a fault, where an operand is out of
bounds, and where it asks for flags that nothing has set to known values.
-/

namespace IntegerC.Machine

/-! ## Flags -/

structure Flags where
  zero : Bool
  sign : Bool
  carry : Bool
  overflow : Bool
deriving Repr, DecidableEq

/-- The flags that the subtraction `a - b` sets. -/
def Flags.ofDifference {n : Nat} (a b : BitVec n) : Flags where
  zero := a - b = 0
  sign := (a - b).msb
  carry := a.toNat < b.toNat
  overflow := (a - b).toInt ≠ a.toInt - b.toInt

def Cond.holds (f : Flags) : Cond → Bool
  | .e => f.zero
  | .ne => !f.zero
  | .l => f.sign != f.overflow
  | .ge => f.sign == f.overflow
  | .le => f.zero || f.sign != f.overflow
  | .g => !f.zero && f.sign == f.overflow
  | .b => f.carry
  | .ae => !f.carry
  | .be => f.carry || f.zero
  | .a => !f.carry && !f.zero

/-- After a subtraction sign and overflow differ exactly if the first number with sign is less. -/
theorem Flags.sign_bne_overflow {w : Width} (a b : BitVec w.bits) :
    ((ofDifference a b).sign != (ofDifference a b).overflow) = decide (a.toInt < b.toInt) := by
  have ha := BitVec.two_mul_toInt_lt (x := a)
  have ha' := BitVec.le_two_mul_toInt (x := a)
  have hb := BitVec.two_mul_toInt_lt (x := b)
  have hb' := BitVec.le_two_mul_toInt (x := b)
  rw [ofDifference, BitVec.msb_eq_toInt, BitVec.toInt_sub, Bool.eq_iff_iff]
  generalize a.toInt = x at *
  generalize b.toInt = y at *
  simp only [bne_iff_ne, ne_eq, decide_eq_decide, decide_eq_true_eq]
  rw [Int.bmod]
  rcases w.bits_cases with h | h <;> rw [h] at ha ha' hb hb' ⊢ <;> omega

/-- The conditions on the flags of a difference are the comparisons of the operands. -/
theorem Cond.holds_ofDifference (op : CompareOp) (signed : Bool) {w : Width} (a b : BitVec w.bits) :
    (Cond.ofCompare op signed).holds (.ofDifference a b) =
      op.holds (intOf signed a) (intOf signed b) := by
  have hless := Flags.sign_bne_overflow a b
  have hnotless : ((Flags.ofDifference a b).sign == (Flags.ofDifference a b).overflow) =
      !decide (a.toInt < b.toInt) := by
    rw [← hless]
    cases (Flags.ofDifference a b).sign <;> cases (Flags.ofDifference a b).overflow <;> rfl
  have hzero : (Flags.ofDifference a b).zero = decide (intOf signed a = intOf signed b) := by
    show decide (a - b = 0) = _
    rw [decide_eq_decide, intOf_inj, BitVec.sub_eq_iff_eq_add, BitVec.ofNat_eq_ofNat,
      BitVec.zero_add]
  have hcarry : (Flags.ofDifference a b).carry = decide (a.toNat < b.toNat) := rfl
  rw [Bool.eq_iff_iff]
  cases signed <;> cases op <;>
    simp [ofCompare, holds, CompareOp.holds, hless, hnotless, hzero, hcarry, intOf] <;>
    omega

/-- The same for values of a type. -/
theorem Cond.holds_ofInt {t : IntType} {a b : Int} (ha : t.Holds a) (hb : t.Holds b)
    (op : CompareOp) :
    (Cond.ofCompare op t.signed).holds
      (.ofDifference (BitVec.ofInt (Width.ofType t).bits a) (BitVec.ofInt _ b)) =
        op.holds a b := by
  rw [holds_ofDifference, IntType.intOf_ofInt_of_holds ha, IntType.intOf_ofInt_of_holds hb]

/-! ## Operations -/

def UnaryOp.value {n : Nat} (op : UnaryOp) (a : BitVec n) : BitVec n :=
  match op with
  | .neg => -a
  | .not => ~~~a

/-- The value of an operation on two operands, of which `a` is the destination. The count of a shift
is taken modulo the width. -/
def BinaryOp.value {n : Nat} (op : BinaryOp) (a b : BitVec n) : BitVec n :=
  match op with
  | .add => a + b
  | .sub => a - b
  | .mult => a * b
  | .and => a &&& b
  | .or => a ||| b
  | .xor => a ^^^ b
  | .sal => a <<< (b.toNat % n)
  | .sar => a.sshiftRight (b.toNat % n)
  | .shr => a >>> (b.toNat % n)

/-- A shift of a value of a type, by a count of which the low byte is known. -/
theorem BinaryOp.value_ofShift {t : IntType} {a : Int} (ha : t.Holds a) (op : ShiftOp)
    (count : Int) :
    (BinaryOp.ofShift op t.signed).value (BitVec.ofInt (Width.ofType t).bits a)
      ((BitVec.ofInt 8 count).setWidth _) = BitVec.ofInt _ (op.eval t a count) := by
  have hcount : ((BitVec.ofInt 8 count).setWidth (Width.ofType t).bits).toNat %
      (Width.ofType t).bits = (count % t.bits).toNat := by
    have hbits := (Width.ofType t).bits_bounds
    rw [BitVec.toNat_setWidth_of_le (by omega), t.mask_ofInt]
  cases op with
  | left =>
      rw [ShiftOp.eval, IntType.ofInt_wrap, ofInt_shiftLeft, ← hcount]
      rfl
  | right =>
      have hright := ofInt_shiftRight t.signed (BitVec.ofInt (Width.ofType t).bits a)
        (count % t.bits).toNat
      rw [IntType.intOf_ofInt_of_holds ha, ← hcount] at hright
      rw [ShiftOp.eval, IntType.ofInt_wrap, ← hcount, hright]
      cases t.signed <;> rfl

/-- The quotient and the remainder of a number in two registers; none if the divisor is zero or the
quotient does not fit into one register. -/
def divide (signed : Bool) {n : Nat} (high low divisor : BitVec n) :
    Option (BitVec n × BitVec n) :=
  let a := intOf signed high <<< n + low.toNat
  let b := intOf signed divisor
  let quotient := BitVec.ofInt n (a.tdiv b)
  if b = 0 ∨ intOf signed quotient ≠ a.tdiv b then none
  else some (quotient, BitVec.ofInt n (a.tmod b))

/-- The division instruction gives quotient and remainder of the integers, when its two halves hold
the dividend and the quotient fits. -/
theorem divide_ofInt {t : IntType} {a b : Int} (ha : t.Holds a) (hb : t.Holds b) (hzero : b ≠ 0)
    (hmin : ¬ (a = t.min ∧ b = -1)) {high : BitVec (Width.ofType t).bits}
    (hhigh : intOf t.signed high <<< (Width.ofType t).bits +
      (BitVec.ofInt (Width.ofType t).bits a).toNat = a) :
    divide t.signed high (BitVec.ofInt _ a) (BitVec.ofInt _ b) =
      some (BitVec.ofInt _ (a.tdiv b), BitVec.ofInt _ (a.tmod b)) := by
  simp only [divide, hhigh, IntType.intOf_ofInt_of_holds hb,
    IntType.intOf_ofInt_of_holds (IntType.holds_tdiv ha hb hmin)]
  rw [if_neg (by simpa using hzero)]

/-- What stands in front of a number to give it a sign. -/
def signFill {n : Nat} (v : BitVec n) : BitVec n := if v.msb then BitVec.allOnes n else 0#n

/-- The sign spread over the upper half makes the two halves together the signed value. -/
theorem toInt_signFill {w : Width} (v : BitVec w.bits) :
    (signFill v).toInt <<< w.bits + v.toNat = v.toInt := by
  have hpos : 0 < w.bits := by
    rcases w.bits_cases with h | h <;> omega
  have hcast : ((2 ^ w.bits : Nat) : Int) = 2 ^ w.bits := Int.natCast_pow 2 w.bits
  rw [signFill, BitVec.toInt_eq_msb_cond v, Int.shiftLeft_eq]
  split
  · rw [BitVec.toInt_allOnes, if_pos hpos]
    omega
  · rw [BitVec.toInt_zero, Int.zero_mul, Int.zero_add]

/-- The pattern `old` with its low bits replaced. -/
def patch {n k : Nat} (old : BitVec n) (v : BitVec k) : BitVec n := old >>> k <<< k ||| v.setWidth n

theorem patch_self {k : Nat} (old v : BitVec k) : patch old v = v := by
  apply BitVec.eq_of_toNat_eq
  simp [patch]

/-! ## States -/

/-- A memory, in which operands that are neither immediates nor registers have their places. -/
class Memory (M : Type) where
  load : M → Operand → (n : Nat) → Option (BitVec n)
  store : M → Operand → {n : Nat} → BitVec n → Option M

/-- A machine. The flags are unknown behind an instruction that sets them to something other than a
comparison does. -/
structure State (M : Type) where
  regs : Reg → BitVec 64
  flags : Option Flags
  memory : M

namespace State

variable {M : Type}

/-- Writes a register. A longword clears the upper half, and a byte leaves the other bytes alone. -/
def setReg (m : State M) (r : Reg) {n : Nat} (v : BitVec n) : State M where
  regs r' := if r' = r then (if n < 32 then patch (m.regs r) v else v.setWidth 64) else m.regs r'
  flags := m.flags
  memory := m.memory

def setFlags (m : State M) (flags : Option Flags) : State M := ⟨m.regs, flags, m.memory⟩

variable [Memory M]

def read (m : State M) (n : Nat) : Operand → Option (BitVec n)
  | .imm k => some (BitVec.ofInt n k)
  | .reg r => some ((m.regs r).setWidth n)
  | a => Memory.load m.memory a n

def write (m : State M) {n : Nat} (v : BitVec n) : Operand → Option (State M)
  | .imm _ => none
  | .reg r => some (m.setReg r v)
  | a => (Memory.store m.memory a v).map fun memory => ⟨m.regs, m.flags, memory⟩

/-- Reads the count of a shift, which is an immediate or the low byte of `cx`. -/
def readCount (m : State M) : Operand → Option (BitVec 8)
  | .imm n => some (BitVec.ofInt 8 n)
  | .reg .cx => some ((m.regs .cx).setWidth 8)
  | _ => none

def readSource (m : State M) (op : BinaryOp) (n : Nat) (src : Operand) : Option (BitVec n) :=
  if op.isShift then (m.readCount src).map (·.setWidth n) else m.read n src

/-- A division leaves the quotient in `ax` and the remainder in `dx`. -/
def divided (m : State M) {n : Nat} (quotient remainder : BitVec n) : State M :=
  ((m.setReg .ax quotient).setReg .dx remainder).setFlags none

def divide (m : State M) (signed : Bool) (n : Nat) (a : Operand) : Option (State M) := do
  let divisor ← m.read n a
  let (quotient, remainder) ←
    Machine.divide signed ((m.regs .dx).setWidth n) ((m.regs .ax).setWidth n) divisor
  return m.divided quotient remainder

variable {m : State M}

/-- A register that was written as a whole or as a longword holds what was written. -/
theorem read_setReg {r : Reg} {k j : Nat} {v : BitVec k} (hk : 32 ≤ k) (hk' : k ≤ 64)
    (hj : j ≤ k) : (m.setReg r v).read j (.reg r) = some (v.setWidth j) := by
  show some (BitVec.setWidth j (if r = r then (if k < 32 then _ else v.setWidth 64) else _)) = _
  rw [if_pos rfl, if_neg (by omega), BitVec.setWidth_setWidth_of_le _ (by omega)]

theorem read_setReg_of_ne {r r' : Reg} {k j : Nat} {v : BitVec k} (h : r' ≠ r) :
    (m.setReg r v).read j (.reg r') = m.read j (.reg r') := by
  show some (BitVec.setWidth j (if r' = r then _ else m.regs r')) = _
  rw [if_neg h]
  rfl

theorem read_setFlags {flags : Option Flags} {k : Nat} {a : Operand} :
    (m.setFlags flags).read k a = m.read k a := by
  cases a <;> rfl

end State

/-! ## Steps -/

/-- How a piece of code is left: at its end, by a jump, or by a return. -/
inductive Exit where
  | next
  | jump (target : String)
  | ret
deriving Repr, DecidableEq

variable {M : Type} [Memory M]

/-- What an instruction does. The stack and calls are left to others. -/
def Instr.effect (m : State M) : Instr → Option (Exit × State M)
  | .mov w src dst => do return (.next, ← m.write (← m.read w.bits src) dst)
  | .movsx src dst => do return (.next, ← m.write ((← m.read 32 src).signExtend 64) dst)
  | .movZeroExtend src dst => do return (.next, ← m.write ((← m.read 32 src).setWidth 64) dst)
  | .unary op w a => do
      let m' ← m.write (op.value (← m.read w.bits a)) a
      return (.next, if op = .not then m' else m'.setFlags none)
  | .binary op w src dst => do
      let a ← m.read w.bits dst
      let b ← m.readSource op w.bits src
      return (.next, (← m.write (op.value a b) dst).setFlags none)
  | .cmp w src dst => do
      let b ← m.read w.bits src
      let a ← m.read w.bits dst
      return (.next, m.setFlags (some (.ofDifference a b)))
  | .idiv w a => do return (.next, ← m.divide true w.bits a)
  | .div w a => do return (.next, ← m.divide false w.bits a)
  | .cdq w => some (.next, m.setReg .dx (signFill ((m.regs .ax).setWidth w.bits)))
  | .jmp target => some (.jump target, m)
  | .jmpCC c target => do return (if c.holds (← m.flags) then .jump target else .next, m)
  | .setCC c a => do return (.next, ← m.write (if c.holds (← m.flags) then 1#8 else 0#8) a)
  | .label _ => some (.next, m)
  | .ret => some (.ret, m)
  | .allocateStack _ | .deallocateStack _ | .push _ | .call _ => none

/-- Carries out instructions until the last one, or one that jumps or returns. -/
def run (m : State M) : List Instr → Option (Exit × State M)
  | [] => some (.next, m)
  | i :: is =>
      match i.effect m with
      | some (.next, m') => run m' is
      | r => r

theorem run_cons {m m' : State M} {i : Instr} {is : List Instr}
    (h : i.effect m = some (.next, m')) : run m (i :: is) = run m' is := by
  rw [run, h]

end IntegerC.Machine
