import Mathlib.Algebra.Group.Int.Defs
import Mathlib.Algebra.Group.Nat.Defs
import IntegerC.Proofs.Machine.Steps

set_option autoImplicit false

/-! # A machine with a memory of bytes

Once all variables have places, a machine has one memory of bytes: an operand in it is the number
that the bytes from its address on make, the low byte first. The frame has a base, each static
variable has an address, and the stack grows down from the address in `sp`.
-/

namespace IntegerC.Machine

/-! ## Memory -/

/-- A memory of bytes, with the base of the frame and the addresses of the static variables. -/
structure Bytes where
  base : BitVec 64
  symbols : String → BitVec 64
  byte : BitVec 64 → BitVec 8

namespace Bytes

def address? (p : Bytes) : Operand → Option (BitVec 64)
  | .stack offset => some (p.base + BitVec.ofInt 64 offset)
  | .data x => some (p.symbols x)
  | _ => none

/-- The number that `k` bytes make, the first of which is the lowest. -/
def word (p : Bytes) (a : BitVec 64) : (k : Nat) → BitVec (8 * k)
  | 0 => 0#0
  | k + 1 => p.word (a + 1#64) k ++ p.byte a

/-- The memory with the bytes from an address on replaced by those of a number. -/
def setWord (p : Bytes) (a : BitVec 64) {n : Nat} (v : BitVec n) : Bytes where
  base := p.base
  symbols := p.symbols
  byte x :=
    if (x - a).toNat < n / 8 then v.extractLsb' (8 * (x - a).toNat) 8 else p.byte x

/-- The bits of the number are the bits of the bytes, one byte after the other. -/
theorem getLsbD_word (p : Bytes) (a : BitVec 64) (k i : Nat) :
    (p.word a k).getLsbD i =
      (decide (i < 8 * k) && (p.byte (a + BitVec.ofNat 64 (i / 8))).getLsbD (i % 8)) := by
  induction k generalizing a i with
  | zero =>
      show (0#0).getLsbD i = _
      simp
  | succ k ih =>
      have hsplit : (p.word a (k + 1)).getLsbD i =
          if i < 8 then (p.byte a).getLsbD i else (p.word (a + 1#64) k).getLsbD (i - 8) :=
        BitVec.getLsbD_append
      rw [hsplit]
      by_cases h : i < 8
      · have hdiv : i / 8 = 0 := by omega
        have hmod : i % 8 = i := by omega
        have hlt : i < 8 * (k + 1) := by omega
        simp [h, hdiv, hmod, hlt]
      · -- the bits above the first byte are those of the bytes from the next address on
        have hdiv : i / 8 = (i - 8) / 8 + 1 := by omega
        have hmod : i % 8 = (i - 8) % 8 := by omega
        have hlt : decide (i < 8 * (k + 1)) = decide (i - 8 < 8 * k) := by
          rw [decide_eq_decide]
          omega
        have hnext : a + 1#64 + BitVec.ofNat 64 ((i - 8) / 8) = a + BitVec.ofNat 64 (i / 8) := by
          rw [hdiv, BitVec.ofNat_add, BitVec.add_assoc, BitVec.add_comm 1#64]
        rw [if_neg h, ih, hnext, hmod, hlt]

/-- What was stored is read back. -/
theorem word_setWord (p : Bytes) (a : BitVec 64) {k : Nat} (hk : k < 2 ^ 64)
    (v : BitVec (8 * k)) : (p.setWord a v).word a k = v := by
  apply BitVec.eq_of_getLsbD_eq
  intro i hi
  have hoffset : (a + BitVec.ofNat 64 (i / 8) - a).toNat = i / 8 := by
    rw [BitVec.add_comm, BitVec.add_sub_cancel, BitVec.toNat_ofNat]
    exact Nat.mod_eq_of_lt (by omega)
  -- bit `i` is in the byte number `i / 8`
  have hbyte : (p.setWord a v).byte (a + BitVec.ofNat 64 (i / 8)) =
      v.extractLsb' (8 * (i / 8)) 8 := by
    have hlt : i / 8 < 8 * k / 8 := by omega
    show (if (a + BitVec.ofNat 64 (i / 8) - a).toNat < 8 * k / 8 then
      v.extractLsb' (8 * (a + BitVec.ofNat 64 (i / 8) - a).toNat) 8 else _) = _
    rw [hoffset, if_pos hlt]
  have hbit : 8 * (i / 8) + i % 8 = i := Nat.div_add_mod i 8
  have hmod : i % 8 < 8 := Nat.mod_lt i (by decide)
  rw [getLsbD_word, hbyte, BitVec.getLsbD_extractLsb', hbit]
  simp [hi, hmod]

/-- A byte that the number does not reach stays what it was. -/
theorem byte_setWord (p : Bytes) (a x : BitVec 64) {n : Nat} (v : BitVec n)
    (h : n / 8 ≤ (x - a).toNat) : (p.setWord a v).byte x = p.byte x :=
  if_neg (Nat.not_lt.2 h)

end Bytes

/-- Operands in memory are read and written at their addresses. -/
instance : Memory Bytes where
  load p a n := (p.address? a).map fun address => (p.word address (n / 8)).setWidth n
  store p a _ v := (p.address? a).map fun address => p.setWord address v

/-! ## The stack and calls -/

namespace State

variable (m : State Bytes)

/-- The state with the top of the stack moved, towards higher addresses if `bytes` is positive. -/
def moveStack (bytes : Int) : State Bytes :=
  m.setReg .sp (m.regs .sp + BitVec.ofInt 64 bytes)

def push (v : BitVec 64) : State Bytes :=
  let m' := m.moveStack (-8)
  ⟨m'.regs, m'.flags, m'.memory.setWord (m'.regs .sp) v⟩

end State

variable (calls : String → State Bytes → Option (State Bytes))

/-- What an instruction does, where `calls` says what the functions do that are called. -/
def Instr.exec (m : State Bytes) : Instr → Option (Exit × State Bytes)
  | .allocateStack n => some (.next, (m.moveStack (-n)).setFlags none)
  | .deallocateStack n => some (.next, (m.moveStack n).setFlags none)
  | .push a => do return (.next, m.push (← m.read 64 a))
  | .call f => do return (.next, ← calls f m)
  | i => i.effect m

def execAll (m : State Bytes) : List Instr → Option (Exit × State Bytes)
  | [] => some (.next, m)
  | i :: is =>
      match i.exec calls m with
      | some (.next, m') => execAll m' is
      | r => r

@[simp] theorem execAll_nil (m : State Bytes) : execAll calls m [] = some (.next, m) := rfl

theorem execAll_cons {m m' : State Bytes} {i : Instr} {is : List Instr}
    (h : i.exec calls m = some (.next, m')) : execAll calls m (i :: is) = execAll calls m' is := by
  rw [execAll, h]

theorem execAll_singleton (m : State Bytes) (i : Instr) : execAll calls m [i] = i.exec calls m := by
  rw [execAll]
  split
  · rename_i m' h
    rw [h, execAll_nil]
  · rfl

end IntegerC.Machine
