import IntegerC.Machine

set_option autoImplicit false

/-! # Operands that the hardware accepts

Not every combination of operands can be encoded: an instruction has at most one operand in memory,
and an immediate fills at most 32 bits, except in a move of a quadword into a register. Each `Rule`
mends one such defect with the help of the registers `r10` and `r11`, which nothing else uses.
`mend` applies the first rule that fits, and again to what comes out of it, until none fits;
`Rule.weight_lt` says why that ends.
-/

namespace IntegerC.Machine

/-! ## Immediates -/

/-- An immediate that does not fit into 32 bits with sign. -/
def Operand.isLarge : Operand → Bool
  | .imm n => !decide (IntType.int.Holds n)
  | _ => false

/-- The operand that an instruction on longwords reads: of an immediate its low 32 bits, as a number
with sign. -/
def Operand.asLongword : Operand → Operand
  | .imm n => .imm (IntType.int.wrap n)
  | a => a

@[simp] theorem Operand.isLarge_reg (r : Reg) : (Operand.reg r).isLarge = false := rfl

@[simp] theorem Operand.isMemory_reg (r : Reg) : (Operand.reg r).isMemory = false := rfl

@[simp] theorem Operand.isImm_reg (r : Reg) : (Operand.reg r).isImm = false := rfl

@[simp] theorem Operand.isLarge_asLongword (a : Operand) : a.asLongword.isLarge = false := by
  cases a with
  | imm n => simp [Operand.asLongword, Operand.isLarge, IntType.holds_wrap]
  | _ => rfl

@[simp] theorem Operand.isMemory_asLongword (a : Operand) :
    a.asLongword.isMemory = a.isMemory := by cases a <;> rfl

@[simp] theorem Operand.isImm_asLongword (a : Operand) : a.asLongword.isImm = a.isImm := by
  cases a <;> rfl

/-- A small immediate stands for itself. -/
theorem Operand.asLongword_of_isLarge_eq_false {a : Operand} (h : a.isLarge = false) :
    a.asLongword = a := by
  cases a with
  | imm n =>
      have h' : IntType.int.Holds n := by simpa [Operand.isLarge] using h
      simp [Operand.asLongword, IntType.wrap_of_holds h']
  | _ => rfl

theorem Operand.isMemory_of_isLarge {a : Operand} (h : a.isLarge = true) :
    a.isMemory = false := by
  cases a <;> first | rfl | simp [Operand.isLarge] at h

/-! ## Rules -/

/-- The defects of an instruction that can be mended. -/
inductive Rule where
  | longwordImmediate
  | movMemoryToMemory
  | movLargeImmediateToMemory
  | movsxImmediateSource
  | movsxMemoryDestination
  | zeroExtendToRegister
  | zeroExtendToMemory
  | divideByImmediate
  | binaryLargeImmediate
  | binaryMemoryToMemory
  | multiplyIntoMemory
  | cmpLargeImmediate
  | cmpMemoryToMemory
  | cmpImmediateDestination
  | pushLargeImmediate
deriving Repr, DecidableEq

namespace Rule

def all : List Rule :=
  [longwordImmediate, movMemoryToMemory, movLargeImmediateToMemory, movsxImmediateSource,
   movsxMemoryDestination, zeroExtendToRegister, zeroExtendToMemory, divideByImmediate,
   binaryLargeImmediate, binaryMemoryToMemory, multiplyIntoMemory, cmpLargeImmediate,
   cmpMemoryToMemory, cmpImmediateDestination, pushLargeImmediate]

def name : Rule → String
  | longwordImmediate => "longword-immediate"
  | movMemoryToMemory => "mov-memory-to-memory"
  | movLargeImmediateToMemory => "mov-large-immediate-to-memory"
  | movsxImmediateSource => "movsx-immediate-source"
  | movsxMemoryDestination => "movsx-memory-destination"
  | zeroExtendToRegister => "zero-extend-to-register"
  | zeroExtendToMemory => "zero-extend-to-memory"
  | divideByImmediate => "divide-by-immediate"
  | binaryLargeImmediate => "binary-large-immediate"
  | binaryMemoryToMemory => "binary-memory-to-memory"
  | multiplyIntoMemory => "multiply-into-memory"
  | cmpLargeImmediate => "cmp-large-immediate"
  | cmpMemoryToMemory => "cmp-memory-to-memory"
  | cmpImmediateDestination => "cmp-immediate-destination"
  | pushLargeImmediate => "push-large-immediate"

def ofName? (s : String) : Option Rule := all.find? (fun r => r.name = s)

theorem mem_all (r : Rule) : r ∈ all := by cases r <;> decide

theorem ofName?_name (r : Rule) : ofName? r.name = some r := by cases r <;> decide

end Rule

def srcScratch : Operand := .reg .r10

def dstScratch : Operand := .reg .r11

/-- What a rule makes of an instruction; nothing if the instruction lacks the defect. -/
def Rule.mend? (r : Rule) (i : Instr) : Option (List Instr) :=
  match r, i with
  | longwordImmediate, .mov .longword src dst =>
      if src.isLarge || dst.isLarge then some [.mov .longword src.asLongword dst.asLongword]
      else none
  | longwordImmediate, .binary op .longword src dst =>
      if src.isLarge || dst.isLarge then some [.binary op .longword src.asLongword dst.asLongword]
      else none
  | longwordImmediate, .cmp .longword src dst =>
      if src.isLarge || dst.isLarge then some [.cmp .longword src.asLongword dst.asLongword]
      else none
  | movMemoryToMemory, .mov w src dst =>
      if src.isMemory && dst.isMemory then some [.mov w src srcScratch, .mov w srcScratch dst]
      else none
  -- longwords have been mended by then, so the immediate is that of a quadword
  | movLargeImmediateToMemory, .mov _ src dst =>
      if src.isLarge && dst.isMemory then
        some [.mov .quadword src srcScratch, .mov .quadword srcScratch dst]
      else none
  | movsxImmediateSource, .movsx src dst =>
      if src.isImm then some [.mov .longword src srcScratch, .movsx srcScratch dst] else none
  | movsxMemoryDestination, .movsx src dst =>
      if dst.isMemory then some [.movsx src dstScratch, .mov .quadword dstScratch dst] else none
  -- a longword that is moved into a register clears its upper half
  | zeroExtendToRegister, .movZeroExtend src (.reg r) => some [.mov .longword src (.reg r)]
  | zeroExtendToMemory, .movZeroExtend src dst =>
      some [.mov .longword src dstScratch, .mov .quadword dstScratch dst]
  | divideByImmediate, .idiv w a =>
      if a.isImm then some [.mov w a srcScratch, .idiv w srcScratch] else none
  | divideByImmediate, .div w a =>
      if a.isImm then some [.mov w a srcScratch, .div w srcScratch] else none
  | binaryLargeImmediate, .binary op w src dst =>
      if src.isLarge then some [.mov .quadword src srcScratch, .binary op w srcScratch dst]
      else none
  | binaryMemoryToMemory, .binary op w src dst =>
      if src.isMemory && dst.isMemory then
        some [.mov w src srcScratch, .binary op w srcScratch dst]
      else none
  | multiplyIntoMemory, .binary .mult w src dst =>
      if dst.isMemory then
        some [.mov w dst dstScratch, .binary .mult w src dstScratch, .mov w dstScratch dst]
      else none
  | cmpLargeImmediate, .cmp w src dst =>
      if src.isLarge then some [.mov .quadword src srcScratch, .cmp w srcScratch dst] else none
  | cmpMemoryToMemory, .cmp w src dst =>
      if src.isMemory && dst.isMemory then some [.mov w src srcScratch, .cmp w srcScratch dst]
      else none
  | cmpImmediateDestination, .cmp w src dst =>
      if dst.isImm then some [.mov w dst dstScratch, .cmp w src dstScratch] else none
  | pushLargeImmediate, .push a =>
      if a.isLarge then some [.mov .quadword a srcScratch, .push srcScratch] else none
  | _, _ => none

/-! ## Repeated application -/

def oneIf (b : Bool) : Nat := if b then 1 else 0

/-- Whether an instruction of width `w` has an immediate that is too large for longwords. -/
def overlong (w : Width) (src dst : Operand) : Bool :=
  w = .longword && (src.isLarge || dst.isLarge)

/-- How much there is to mend at an instruction. -/
def Instr.weight : Instr → Nat
  -- moves weigh little, since what mends the others leaves moves behind
  | .mov w src dst =>
      oneIf (overlong w src dst) + 2 * oneIf (src.isMemory && dst.isMemory) +
        2 * oneIf (src.isLarge && dst.isMemory)
  | .movsx src dst => 10 * oneIf src.isImm + 5 * oneIf dst.isMemory
  | .movZeroExtend _ _ => 10
  | .idiv _ a | .div _ a => 10 * oneIf a.isImm
  | .binary op w src dst =>
      oneIf (overlong w src dst) + 10 * oneIf src.isLarge +
        10 * oneIf (src.isMemory && dst.isMemory) + 10 * oneIf (op = .mult && dst.isMemory)
  | .cmp w src dst =>
      oneIf (overlong w src dst) + 10 * oneIf src.isLarge +
        10 * oneIf (src.isMemory && dst.isMemory) + 10 * oneIf dst.isImm
  | .push a => 10 * oneIf a.isLarge
  | _ => 0

/-- There is less to mend at what a rule puts in place of an instruction. -/
theorem Rule.weight_lt {r : Rule} {i j : Instr} {out : List Instr} (h : r.mend? i = some out)
    (hj : j ∈ out) : j.weight < i.weight := by
  unfold Rule.mend? at h
  split at h
  all_goals try split at h
  all_goals try contradiction
  all_goals
    obtain rfl := Option.some.inj h
    simp only [List.mem_cons, List.not_mem_nil, or_false] at hj
    rcases hj with rfl | rfl | rfl <;>
    grind [Instr.weight, overlong, oneIf, srcScratch, dstScratch, Operand.isLarge_reg,
      Operand.isMemory_reg, Operand.isImm_reg, Operand.isLarge_asLongword,
      Operand.isMemory_asLongword, Operand.isImm_asLongword, Operand.isMemory_of_isLarge]

/-- The instruction with every defect mended that one of the rules mends. Earlier rules come first. -/
def mend (rules : List Rule) (i : Instr) : List Instr :=
  match _h : rules.findSome? (·.mend? i) with
  | none => [i]
  | some out => out.attach.flatMap fun j => mend rules j.1
termination_by i.weight
decreasing_by
  obtain ⟨r, _, hr⟩ := List.exists_of_findSome?_eq_some _h
  exact Rule.weight_lt hr j.2

/-- Either no rule fits, or the output of the first one that fits is mended further. -/
theorem mend_eq (rules : List Rule) (i : Instr) :
    mend rules i =
      match rules.findSome? (·.mend? i) with
      | none => [i]
      | some out => out.flatMap (mend rules) := by
  rw [mend]
  split <;> rename_i h <;> simp [h]

/-- What holds of an instruction that no rule fits, and of what a rule makes of an instruction once it
holds of each part, holds of every mended instruction. -/
theorem mend_induction {rules : List Rule} {motive : Instr → List Instr → Prop}
    (fits : ∀ i, (∀ r ∈ rules, r.mend? i = none) → motive i [i])
    (mends : ∀ i, ∀ r ∈ rules, ∀ out, r.mend? i = some out →
      (∀ j ∈ out, motive j (mend rules j)) → motive i (out.flatMap (mend rules))) (i : Instr) :
    motive i (mend rules i) := by
  induction hn : i.weight using Nat.strongRecOn generalizing i with
  | ind n ih =>
      rw [mend_eq]
      split
      · rename_i h
        exact fits i (List.findSome?_eq_none_iff.1 h)
      · rename_i out h
        obtain ⟨r, hr, hout⟩ := List.exists_of_findSome?_eq_some h
        exact mends i r hr out hout fun j hj => ih _ (hn ▸ Rule.weight_lt hout hj) j rfl

/-- What every rule keeps holds of each instruction that comes out, and no rule fits that one. -/
theorem forall_mem_mend {rules : List Rule} {p : Instr → Prop}
    (keeps : ∀ r ∈ rules, ∀ i out, r.mend? i = some out → p i → ∀ j ∈ out, p j) {i : Instr}
    (hi : p i) : ∀ j ∈ mend rules i, p j ∧ ∀ r ∈ rules, r.mend? j = none := by
  refine mend_induction
    (motive := fun i out => p i → ∀ j ∈ out, p j ∧ ∀ r ∈ rules, r.mend? j = none) ?_ ?_ i hi
  · intro i h hi j hj
    obtain rfl := List.mem_singleton.1 hj
    exact ⟨hi, h⟩
  · intro i r hr out hout ih hi j hj
    obtain ⟨k, hk, hj⟩ := List.mem_flatMap.1 hj
    exact ih k hk (keeps r hr i out hout hi k hk) j hj

/-- The program with every defect of its instructions mended. -/
def Program.encodable (p : Program) : Program where
  topLevels := p.topLevels.map fun
    | .function f => .function { f with instrs := f.instrs.flatMap (mend Rule.all) }
    | .static v => .static v

end IntegerC.Machine
