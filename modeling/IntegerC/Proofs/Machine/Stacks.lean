import IntegerC.Proofs.Machine.Bytes
import IntegerC.Proofs.Machine.Slots

set_option autoImplicit false

/-! # Machines with a stack

Whether its variables have places or not, a machine keeps its stack in a memory of bytes. A function
that is called finds the words that were pushed for it above the base of its own frame, in the
reverse of the order in which they were pushed.
-/

namespace IntegerC.Machine

/-! ## Memories with a stack -/

/-- A memory with bytes in it, to which the places on the stack belong. -/
class StackMemory (M : Type) [Memory M] where
  bytes : M → Bytes
  setBytes : M → Bytes → M
  bytes_setBytes (p : M) (b : Bytes) : bytes (setBytes p b) = b
  setBytes_bytes (p : M) : setBytes p (bytes p) = p
  setBytes_setBytes (p : M) (b b' : Bytes) : setBytes (setBytes p b) b' = setBytes p b'
  load_stack (p : M) (offset : Int) (n : Nat) :
    Memory.load p (.stack offset) n = Memory.load (bytes p) (.stack offset) n

open StackMemory (bytes setBytes)

instance : StackMemory Bytes where
  bytes p := p
  setBytes _ b := b
  bytes_setBytes _ _ := rfl
  setBytes_bytes _ := rfl
  setBytes_setBytes _ _ _ := rfl
  load_stack _ _ _ := rfl

/-- Variables without places, beside the bytes of the stack. -/
structure Unplaced (types : VarTypes) where
  slots : Slots types
  bytes : Bytes

instance {types : VarTypes} : Memory (Unplaced types) where
  load p a n :=
    match a with
    | .pseudo _ => Memory.load p.slots a n
    | _ => Memory.load p.bytes a n
  store p a _ v :=
    match a with
    | .pseudo _ => (Memory.store p.slots a v).map fun slots => ⟨slots, p.bytes⟩
    | _ => (Memory.store p.bytes a v).map fun b => ⟨p.slots, b⟩

instance {types : VarTypes} : StackMemory (Unplaced types) where
  bytes p := p.bytes
  setBytes p b := ⟨p.slots, b⟩
  bytes_setBytes _ _ := rfl
  setBytes_bytes _ := rfl
  setBytes_setBytes _ _ _ := rfl
  load_stack _ _ _ := rfl

/-! ## Running code with a stack -/

variable {M : Type} [Memory M] [StackMemory M]

namespace State

/-- What a state is without the variables that have no places. -/
def stack (m : State M) : State Bytes := ⟨m.regs, m.flags, bytes m.memory⟩

/-- A state of bytes beside the variables of the memory `p`. -/
def ofStack (p : M) (b : State Bytes) : State M := ⟨b.regs, b.flags, setBytes p b.memory⟩

/-- The base of the frame moves to the top of the stack. -/
def rebase (m : State Bytes) : State Bytes :=
  ⟨m.regs, m.flags, { m.memory with base := m.regs .sp }⟩

/-- A function is called and sets up its frame: the call pushes the address `ret` to return to, the
function pushes the base, and the new base is the top of the stack. -/
def enter (m : State Bytes) (ret : BitVec 64) : State Bytes :=
  ((m.push ret).push m.memory.base).rebase

end State

section

variable (calls : String → State M → Option (State M))

def Instr.perform (m : State M) : Instr → Option (Exit × State M)
  | .allocateStack n => some (.next, .ofStack m.memory ((m.stack.moveStack (-n)).setFlags none))
  | .deallocateStack n => some (.next, .ofStack m.memory ((m.stack.moveStack n).setFlags none))
  | .push a => do return (.next, .ofStack m.memory (m.stack.push (← m.read 64 a)))
  | .call f => do return (.next, ← calls f m)
  | i => i.effect m

def performAll (m : State M) : List Instr → Option (Exit × State M)
  | [] => some (.next, m)
  | i :: is =>
      match i.perform calls m with
      | some (.next, m') => performAll m' is
      | r => r

end

section

variable {calls : String → State M → Option (State M)} {m m' : State M}

theorem performAll_cons {i : Instr} {is : List Instr} (h : i.perform calls m = some (.next, m')) :
    performAll calls m (i :: is) = performAll calls m' is := by
  rw [performAll, h]

/-- Code that runs to its end goes on with the code behind it. -/
theorem performAll_append {is js : List Instr} (h : performAll calls m is = some (.next, m')) :
    performAll calls m (is ++ js) = performAll calls m' js := by
  induction is generalizing m with
  | nil =>
      cases h
      rfl
  | cons i is ih =>
      rw [performAll] at h
      split at h
      · rename_i m₁ hi
        rw [List.cons_append, performAll_cons hi, ih h]
      · rename_i hi
        exact absurd h (hi m')

theorem perform_load {w : Width} {src : Operand} {v : BitVec w.bits}
    (h : m.read w.bits src = some v) (r : Reg) :
    (Instr.mov w src (.reg r)).perform calls m = some (.next, m.setReg r v) := by
  show (Instr.mov w src (.reg r)).effect m = _
  simp [Instr.effect, h, State.write]

theorem perform_push {a : Operand} {v : BitVec 64} (h : m.read 64 a = some v) :
    (Instr.push a).perform calls m = some (.next, .ofStack m.memory (m.stack.push v)) := by
  rw [Instr.perform, h]
  rfl

end

/-- On bytes alone that is how instructions are carried out. -/
theorem performAll_bytes (calls : String → State Bytes → Option (State Bytes)) (is : List Instr) :
    ∀ m : State Bytes, performAll calls m is = execAll calls m is := by
  have hstep : ∀ (m : State Bytes) (i : Instr), i.perform calls m = i.exec calls m := by
    intro m i
    cases i <;> rfl
  induction is with
  | nil => exact fun _ => rfl
  | cons i is ih =>
      intro m
      rw [performAll, execAll, hstep]
      rcases i.exec calls m with _ | ⟨_ | _ | _, m'⟩
      · rfl
      · exact ih m'
      · rfl
      · rfl

/-! ## Words of the stack -/

namespace Bytes

variable {p p' : Bytes} {top a : BitVec 64} {n k : Nat}

/-- The address `x` is none of the `n` bytes below `top`. -/
def Outside (top : BitVec 64) (n : Nat) (x : BitVec 64) : Prop := (x - top).toNat + n < 2 ^ 64

/-- The memories differ in the `n` bytes below `top` only. -/
structure SameOutside (top : BitVec 64) (n : Nat) (p p' : Bytes) : Prop where
  base : p'.base = p.base
  symbols : p'.symbols = p.symbols
  byte : ∀ x, Outside top n x → p'.byte x = p.byte x

theorem SameOutside.refl (p : Bytes) : SameOutside top n p p := ⟨rfl, rfl, fun _ _ => rfl⟩

theorem SameOutside.mono (h : SameOutside top n p p') (hn : n ≤ k) : SameOutside top k p p' := by
  refine ⟨h.base, h.symbols, fun x hx => h.byte x ?_⟩
  unfold Outside at *
  omega

theorem word_congr (h : ∀ i < k, p'.byte (a + BitVec.ofNat 64 i) = p.byte (a + BitVec.ofNat 64 i)) :
    p'.word a k = p.word a k := by
  apply BitVec.eq_of_getLsbD_eq
  intro i hi
  rw [getLsbD_word, getLsbD_word, h (i / 8) (by omega)]

theorem SameOutside.word (h : SameOutside top n p p')
    (ha : ∀ i < k, Outside top n (a + BitVec.ofNat 64 i)) : p'.word a k = p.word a k :=
  word_congr fun i hi => h.byte _ (ha i hi)

/-- The low bytes of a word. -/
theorem setWidth_word (h : k ≤ n) : (p.word a n).setWidth (8 * k) = p.word a k := by
  apply BitVec.eq_of_getLsbD_eq
  intro i hi
  have hin : i < 8 * n := by omega
  rw [BitVec.getLsbD_setWidth, getLsbD_word, getLsbD_word]
  simp [hi, hin]

def Words (p : Bytes) (a : BitVec 64) (ws : List (BitVec 64)) : Prop :=
  ∀ (i : Nat) (w : BitVec 64), ws[i]? = some w → p.word (a + BitVec.ofNat 64 (8 * i)) 8 = w

theorem Words.congr {ws : List (BitVec 64)} (h : p.Words a ws) (hbyte : p'.byte = p.byte) :
    p'.Words a ws := by
  intro i w hi
  rw [← h i w hi]
  exact word_congr fun j _ => by rw [hbyte]

/-- Words stay when only bytes below them change. -/
theorem Words.mono {ws : List (BitVec 64)} (h : p.Words a ws) (hs : SameOutside a n p p')
    (hroom : 8 * ws.length + n ≤ 2 ^ 64) : p'.Words a ws := by
  intro i w hi
  have hlt : i < ws.length := (List.getElem?_eq_some_iff.1 hi).1
  rw [← h i w hi]
  refine hs.word fun j hj => ?_
  have hx : a + BitVec.ofNat 64 (8 * i) + BitVec.ofNat 64 j - a = BitVec.ofNat 64 (8 * i + j) := by
    rw [BitVec.ofNat_add]
    bv_omega
  rw [Outside, hx, BitVec.toNat_ofNat]
  omega

/-- A word that is stored below an address. -/
theorem sameOutside_setWord (p : Bytes) (top : BitVec 64) (v : BitVec 64) :
    SameOutside top 8 p (p.setWord (top - 8#64) v) := by
  refine ⟨rfl, rfl, fun x hx => byte_setWord _ _ _ _ ?_⟩
  unfold Outside at hx
  bv_omega

/-- Pushing a word leaves those above it alone, as long as the stack does not go round the address
space. -/
theorem Words.cons {ws : List (BitVec 64)} (h : p.Words a ws) (w : BitVec 64)
    (hroom : 8 * (ws.length + 1) ≤ 2 ^ 64) :
    (p.setWord (a - 8#64) w).Words (a - 8#64) (w :: ws) := by
  have hws := h.mono (p.sameOutside_setWord a w) (by omega)
  intro i w' hi
  cases i with
  | zero =>
      cases hi
      rw [Nat.mul_zero, BitVec.add_zero]
      exact word_setWord (k := 8) p (a - 8#64) (by decide) w
  | succ i =>
      have haddress : a - 8#64 + BitVec.ofNat 64 (8 * (i + 1)) = a + BitVec.ofNat 64 (8 * i) := by
        rw [Nat.mul_add, BitVec.ofNat_add]
        bv_omega
      rw [haddress]
      exact hws i w' hi

/-- Changes below an address, and then below the lower end of these. -/
theorem SameOutside.trans (h : SameOutside top n p p') {p'' : Bytes}
    (h' : SameOutside (top - BitVec.ofNat 64 n) k p' p'') : SameOutside top (n + k) p p'' := by
  refine ⟨h'.base.trans h.base, h'.symbols.trans h.symbols, fun x hx => ?_⟩
  unfold Outside at hx
  have hlower : (x - (top - BitVec.ofNat 64 n)).toNat = (x - top).toNat + n := by
    have hx' : x - (top - BitVec.ofNat 64 n) = x - top + BitVec.ofNat 64 n := by bv_omega
    rw [hx', BitVec.toNat_add, BitVec.toNat_ofNat]
    omega
  rw [h'.byte x (by unfold Outside; omega), h.byte x (by unfold Outside; omega)]

end Bytes

/-! ## Pushing -/

namespace State

variable (m : State Bytes) (v : BitVec 64)

theorem moveStack_sp (n : Int) : (m.moveStack n).regs .sp = m.regs .sp + BitVec.ofInt 64 n :=
  BitVec.setWidth_eq _

theorem moveStack_neg_eight : (m.moveStack (-8)).regs .sp = m.regs .sp - 8#64 := by
  have hneg : BitVec.ofInt 64 (-8) = -8#64 := by decide
  rw [moveStack_sp, hneg, BitVec.sub_eq_add_neg]

theorem push_sp : (m.push v).regs .sp = m.regs .sp - 8#64 := m.moveStack_neg_eight

theorem push_regs {r : Reg} (h : r ≠ .sp) : (m.push v).regs r = m.regs r := if_neg h

theorem push_memory : (m.push v).memory = m.memory.setWord (m.regs .sp - 8#64) v :=
  congrArg (fun a => m.memory.setWord a v) m.moveStack_neg_eight

end State

/-- The words `ws` were pushed between two states, the last one of the list first. Registers other
than `ax` and the rest of the memory are the same. -/
structure Pushed (m m' : State M) (ws : List (BitVec 64)) : Prop where
  memory : m'.memory = setBytes m.memory (bytes m'.memory)
  same : (bytes m.memory).SameOutside (m.regs .sp) (8 * ws.length) (bytes m'.memory)
  sp : m'.regs .sp = m.regs .sp - BitVec.ofNat 64 (8 * ws.length)
  regs : ∀ r, r ≠ .ax → r ≠ .sp → m'.regs r = m.regs r
  words : (bytes m'.memory).Words (m'.regs .sp) ws

namespace Pushed

variable {m m' : State M} {ws : List (BitVec 64)}

theorem refl (m : State M) : Pushed m m [] where
  memory := (StackMemory.setBytes_bytes m.memory).symm
  same := .refl _
  sp := (BitVec.sub_zero _).symm
  regs _ _ _ := rfl
  words _ _ h := by cases h

/-- The register `ax` does not count. -/
theorem setReg (h : Pushed m m' ws) {k : Nat} (v : BitVec k) : Pushed m (m'.setReg .ax v) ws where
  memory := h.memory
  same := h.same
  sp := h.sp
  regs r hax hsp := (if_neg hax).trans (h.regs r hax hsp)
  words := h.words

/-- Pushes follow each other as long as there is room. -/
theorem push (h : Pushed m m' ws) (w : BitVec 64) (hroom : 8 * (ws.length + 1) ≤ 2 ^ 64) :
    Pushed m (.ofStack m'.memory (m'.stack.push w)) (w :: ws) := by
  have hbytes : bytes (State.ofStack m'.memory (m'.stack.push w)).memory =
      (bytes m'.memory).setWord (m'.regs .sp - 8#64) w :=
    (StackMemory.bytes_setBytes ..).trans (m'.stack.push_memory w)
  have hsp : (State.ofStack m'.memory (m'.stack.push w)).regs .sp = m'.regs .sp - 8#64 :=
    m'.stack.push_sp w
  refine ⟨?_, ?_, ?_, fun r hax hr => ?_, ?_⟩
  · rw [hbytes]
    show setBytes m'.memory _ = _
    rw [h.memory, StackMemory.setBytes_setBytes, StackMemory.bytes_setBytes, m'.stack.push_memory]
    rfl
  · rw [hbytes]
    refine h.same.trans ?_
    rw [← h.sp]
    exact Bytes.sameOutside_setWord ..
  · rw [hsp, h.sp, List.length_cons, Nat.mul_add, BitVec.ofNat_add]
    bv_omega
  · exact (m'.stack.push_regs w hr).trans (h.regs r hax hr)
  · rw [hbytes, hsp]
    exact h.words.cons w hroom

end Pushed

end IntegerC.Machine
