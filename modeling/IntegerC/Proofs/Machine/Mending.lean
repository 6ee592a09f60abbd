import IntegerC.Machine.Encodable
import IntegerC.Proofs.Machine.Bytes
import IntegerC.Proofs.Machine.Writing
import Mathlib.Data.Option.Basic

set_option autoImplicit false

/-! # What mending puts in place of an instruction

A source that an instruction cannot take is moved into `r10` first, and a destination that it cannot
take is moved into `r11` first or out of it behind the instruction. Only a few rules bear on each
kind of instruction; what is left over by them is mended by itself, so that the code for an
instruction is the code for these moves and for the instruction on registers.
-/

namespace IntegerC.Machine

/-! ## Repeated application -/

theorem mend_of_none {i : Instr} (h : Rule.all.findSome? (·.mend? i) = none) :
    mend Rule.all i = [i] := by
  rw [mend_eq, h]

theorem mend_of_some (out : List Instr) {i : Instr}
    (h : Rule.all.findSome? (·.mend? i) = some out) :
    mend Rule.all i = out.flatMap (mend Rule.all) := by
  rw [mend_eq, h]

/-! ## Operands as a width reads them -/

/-- An operand as a width reads it: longwords take the low 32 bits of an immediate. -/
def Operand.clip (a : Operand) : Width → Operand
  | .longword => a.asLongword
  | .quadword => a

theorem Operand.clip_of_isImm {a : Operand} (h : a.isImm = false) (w : Width) : a.clip w = a := by
  cases w <;> cases a <;> first | rfl | cases h

theorem Operand.isLarge_of_isImm {a : Operand} (h : a.isImm = false) : a.isLarge = false := by
  cases a <;> first | rfl | cases h

/-! ## Rules for each kind of instruction -/

section

variable (op : BinaryOp) (w : Width) (src dst : Operand)

theorem rules_mov : Rule.all.findSome? (·.mend? (.mov w src dst)) =
    [Rule.longwordImmediate, .movMemoryToMemory, .movLargeImmediateToMemory].findSome?
      (·.mend? (.mov w src dst)) := by
  cases w <;> rfl

theorem rules_binary : Rule.all.findSome? (·.mend? (.binary op w src dst)) =
    [Rule.longwordImmediate, .binaryLargeImmediate, .binaryMemoryToMemory,
      .multiplyIntoMemory].findSome? (·.mend? (.binary op w src dst)) := by
  cases w <;> cases op <;> rfl

theorem rules_cmp : Rule.all.findSome? (·.mend? (.cmp w src dst)) =
    [Rule.longwordImmediate, .cmpLargeImmediate, .cmpMemoryToMemory,
      .cmpImmediateDestination].findSome? (·.mend? (.cmp w src dst)) := by
  cases w <;> rfl

end

/-! ## Instructions with two operands of one width -/

/-- The instructions with two operands of one width. -/
inductive Shape where
  | mov
  | binary (op : BinaryOp)
  | cmp
deriving DecidableEq

namespace Shape

def instr (s : Shape) (w : Width) (src dst : Operand) : Instr :=
  match s with
  | mov => .mov w src dst
  | binary op => .binary op w src dst
  | cmp => .cmp w src dst

/-- Whether the source has to be in a register. Only a move takes a large immediate. -/
def stagesSrc (s : Shape) (src dst : Operand) : Bool :=
  (src.isMemory && dst.isMemory) || (src.isLarge && (s != mov || dst.isMemory))

/-- Whether the destination has to be in a register. -/
def stagesDst (s : Shape) (dst : Operand) : Bool :=
  (s = binary .mult && dst.isMemory) || (s = cmp && dst.isImm)

def Clipped (w : Width) (src dst : Operand) : Prop :=
  w = .longword → src.isLarge = false ∧ dst.isLarge = false

variable {s : Shape} {w : Width} {src dst : Operand}

theorem clipped_clip : Clipped w (src.clip w) (dst.clip w) := by
  rintro rfl
  exact ⟨src.isLarge_asLongword, dst.isLarge_asLongword⟩

/-- Of an immediate of a longword only the low 32 bits count. -/
theorem mend_clip (s : Shape) (w : Width) (src dst : Operand) :
    mend Rule.all (s.instr w src dst) =
      mend Rule.all (s.instr w (src.clip w) (dst.clip w)) := by
  cases w with
  | quadword => rfl
  | longword =>
      -- the first rule of all cuts both operands, if it bears on them
      by_cases h : (src.isLarge || dst.isLarge) = true
      · rw [mend_of_some [s.instr .longword src.asLongword dst.asLongword]]
        · exact List.flatMap_singleton ..
        · cases s <;> simp only [instr, Rule.all, List.findSome?_cons, Rule.mend?, h, if_true]
      · rw [Bool.not_eq_true, Bool.or_eq_false_iff] at h
        rw [Operand.clip, Operand.clip, Operand.asLongword_of_isLarge_eq_false h.1,
          Operand.asLongword_of_isLarge_eq_false h.2]

/-- An instruction without a defect is left alone. -/
theorem mend_of_fits (hc : Clipped w src dst) (hs : s.stagesSrc src dst = false)
    (hd : s.stagesDst dst = false) : mend Rule.all (s.instr w src dst) = [s.instr w src dst] := by
  apply mend_of_none
  cases s with
  | mov =>
      rw [instr, rules_mov]
      cases w <;> simp_all [stagesSrc, Rule.mend?, Clipped]
  | cmp =>
      rw [instr, rules_cmp]
      cases w <;> simp_all [stagesSrc, stagesDst, Rule.mend?, Clipped]
  | binary op =>
      rw [instr, rules_binary]
      -- only a product asks for a register as its destination
      by_cases hop : op = .mult
      · subst hop
        cases w <;> simp_all [stagesSrc, stagesDst, Rule.mend?, Clipped]
      · cases w <;> simp_all [stagesSrc, Rule.mend?, Clipped]

/-- A source that has to be in a register is moved there, and what is left is mended in turn. -/
theorem mend_of_stagesSrc (hc : Clipped w src dst) (hs : s.stagesSrc src dst = true) :
    mend Rule.all (s.instr w src dst) =
      mend Rule.all (.mov w src srcScratch) ++ mend Rule.all (s.instr w srcScratch dst) := by
  -- a large immediate is one of a quadword, and is not in memory
  have hquad : src.isLarge = true → w = .quadword ∧ src.isMemory = false := by
    intro hl
    refine ⟨?_, Operand.isMemory_of_isLarge hl⟩
    cases w with
    | longword => simp [Clipped, hl] at hc
    | quadword => rfl
  rw [mend_of_some [.mov w src srcScratch, s.instr w srcScratch dst]]
  · simp
  · cases s with
    | mov =>
        rw [instr, rules_mov]
        cases w <;> cases hl : src.isLarge <;> simp_all [stagesSrc, instr, Rule.mend?, Clipped]
    | binary op =>
        rw [instr, rules_binary]
        cases w <;> cases hl : src.isLarge <;> simp_all [stagesSrc, instr, Rule.mend?, Clipped]
    | cmp =>
        rw [instr, rules_cmp]
        cases w <;> cases hl : src.isLarge <;> simp_all [stagesSrc, instr, Rule.mend?, Clipped]

/-- A product with a memory destination is formed in the scratch register and stored back, once its
source needs no staging. -/
theorem mend_mult (hc : Clipped w src dst) (hs : (binary .mult).stagesSrc src dst = false)
    (hd : dst.isMemory = true) :
    mend Rule.all (.binary .mult w src dst) =
      mend Rule.all (.mov w dst dstScratch) ++ (mend Rule.all (.binary .mult w src dstScratch) ++
        mend Rule.all (.mov w dstScratch dst)) := by
  rw [mend_of_some [.mov w dst dstScratch, .binary .mult w src dstScratch, .mov w dstScratch dst]]
  · simp
  · rw [rules_binary]
    cases w <;> simp_all [stagesSrc, Rule.mend?, Clipped]

/-- A comparison whose second operand is an immediate takes a copy of it in the scratch register. -/
theorem mend_cmp (hc : Clipped w src dst) (hs : cmp.stagesSrc src dst = false)
    (hd : dst.isImm = true) :
    mend Rule.all (.cmp w src dst) =
      mend Rule.all (.mov w dst dstScratch) ++ mend Rule.all (.cmp w src dstScratch) := by
  rw [mend_of_some [.mov w dst dstScratch, .cmp w src dstScratch]]
  · simp
  · rw [rules_cmp]
    cases w <;> simp_all [stagesSrc, Rule.mend?, Clipped]

end Shape

/-! ## Moves through the registers -/

theorem mend_load (w : Width) (a : Operand) (r : Reg) :
    mend Rule.all (.mov w a (.reg r)) = [.mov w (a.clip w) (.reg r)] := by
  have hreg : (Operand.reg r).clip w = .reg r := Operand.clip_of_isImm rfl w
  have hclip := Shape.mend_clip .mov w a (.reg r)
  have hclipped : Shape.Clipped w (a.clip w) ((Operand.reg r).clip w) := Shape.clipped_clip
  rw [hreg] at hclip hclipped
  exact hclip.trans (Shape.mend_of_fits hclipped (by simp [Shape.stagesSrc]) rfl)

theorem mend_store (w : Width) (r : Reg) {dst : Operand} (h : dst.isImm = false) :
    mend Rule.all (.mov w (.reg r) dst) = [.mov w (.reg r) dst] :=
  Shape.mend_of_fits (s := .mov) (fun _ => ⟨rfl, Operand.isLarge_of_isImm h⟩) rfl rfl

/-! ## Extensions, divisions and the stack -/

theorem mend_movsx_imm {src : Operand} (h : src.isImm = true) (dst : Operand) :
    mend Rule.all (.movsx src dst) =
      mend Rule.all (.mov .longword src srcScratch) ++ mend Rule.all (.movsx srcScratch dst) := by
  rw [mend_of_some [.mov .longword src srcScratch, .movsx srcScratch dst]]
  · simp
  · simp [Rule.all, Rule.mend?, h]

theorem mend_movsx_memory {src dst : Operand} (hs : src.isImm = false) (hd : dst.isMemory = true) :
    mend Rule.all (.movsx src dst) =
      mend Rule.all (.movsx src dstScratch) ++ mend Rule.all (.mov .quadword dstScratch dst) := by
  rw [mend_of_some [.movsx src dstScratch, .mov .quadword dstScratch dst]]
  · simp
  · simp [Rule.all, Rule.mend?, hs, hd]

theorem mend_movsx {src dst : Operand} (hs : src.isImm = false) (hd : dst.isMemory = false) :
    mend Rule.all (.movsx src dst) = [.movsx src dst] :=
  mend_of_none (by simp [Rule.all, Rule.mend?, hs, hd])

theorem mend_movZeroExtend_reg (src : Operand) (r : Reg) :
    mend Rule.all (.movZeroExtend src (.reg r)) = mend Rule.all (.mov .longword src (.reg r)) := by
  rw [mend_of_some [.mov .longword src (.reg r)]]
  · simp
  · simp [Rule.all, Rule.mend?]

/-- A zero extension to memory moves the low half into the scratch register, which clears the rest,
and stores all of it. -/
theorem mend_movZeroExtend_memory (src : Operand) {dst : Operand} (h : dst.isMemory = true) :
    mend Rule.all (.movZeroExtend src dst) =
      mend Rule.all (.mov .longword src dstScratch) ++
        mend Rule.all (.mov .quadword dstScratch dst) := by
  rw [mend_of_some [.mov .longword src dstScratch, .mov .quadword dstScratch dst]]
  · simp
  · cases dst with
    | stack offset | data x => simp [Rule.all, Rule.mend?]
    | _ => cases h

def Instr.division (signed : Bool) (w : Width) (a : Operand) : Instr :=
  if signed then .idiv w a else .div w a

/-- Only a division by an immediate is mended. -/
theorem mend_division (signed : Bool) (w : Width) (a : Operand) :
    mend Rule.all (.division signed w a) =
      if a.isImm then
        mend Rule.all (.mov w a srcScratch) ++ mend Rule.all (.division signed w srcScratch)
      else [.division signed w a] := by
  split
  · rename_i h
    rw [mend_of_some [.mov w a srcScratch, .division signed w srcScratch]]
    · simp
    · cases signed <;> simp [Instr.division, Rule.all, Rule.mend?, h]
  · rename_i h
    apply mend_of_none
    cases signed <;> simp [Instr.division, Rule.all, Rule.mend?, h]

/-- Only the push of a large immediate is mended. -/
theorem mend_push (a : Operand) :
    mend Rule.all (.push a) =
      if a.isLarge then
        mend Rule.all (.mov .quadword a srcScratch) ++ mend Rule.all (.push srcScratch)
      else [.push a] := by
  split
  · rename_i h
    rw [mend_of_some [.mov .quadword a srcScratch, .push srcScratch]]
    · simp
    · simp [Rule.all, Rule.mend?, h]
  · rename_i h
    apply mend_of_none
    simp [Rule.all, Rule.mend?, h]

end IntegerC.Machine
