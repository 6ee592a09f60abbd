import IntegerC.CType
import IntegerC.SymbolTable

set_option autoImplicit false

/-! # Machine code

The part of the x86-64 instruction set that programs are compiled to, before it is written as text.
An operand is an immediate, a register, a place in the frame, a place in the data section, or a
variable that has no place yet. In an instruction with two operands the second one is the
destination.
-/

namespace IntegerC.Machine

/-! ## Operands -/

inductive Width where
  | longword | quadword
deriving Repr, DecidableEq

def Width.size : Width → Nat
  | .longword => 4
  | .quadword => 8

def Width.ofType (t : IntType) : Width := if t.size = 4 then .longword else .quadword

@[simp] theorem Width.size_ofType (t : IntType) : (Width.ofType t).size = t.size := by
  cases t <;> rfl

inductive Reg where
  | ax | cx | dx | di | si | r8 | r9 | r10 | r11 | sp
deriving Repr, DecidableEq

/-- The registers of the first six arguments of a call, in their order. -/
def argumentRegs : List Reg := [.di, .si, .dx, .cx, .r8, .r9]

inductive Operand where
  | imm (value : Int)
  | reg (r : Reg)
  /-- a variable without a place -/
  | pseudo (name : String)
  /-- the place at `offset` from the base of the frame -/
  | stack (offset : Int)
  /-- the place of a static variable -/
  | data (name : String)
deriving Repr, DecidableEq

namespace Operand

def isMemory : Operand → Bool
  | stack _ | data _ => true
  | _ => false

def isImm : Operand → Bool
  | imm _ => true
  | _ => false

end Operand

/-! ## Instructions -/

/-- Conditions on the flags: `g`, `ge`, `l`, `le` compare as signed numbers, `a`, `ae`, `b`, `be` as
unsigned ones. -/
inductive Cond where
  | e | ne | g | ge | l | le | a | ae | b | be
deriving Repr, DecidableEq

inductive UnaryOp where
  | neg | not
deriving Repr, DecidableEq

/-- Operations on two operands, the second of which receives the result. -/
inductive BinaryOp where
  | add | sub | mult | and | or | xor | sal | sar | shr
deriving Repr, DecidableEq

/-- Whether an operation is a shift, whose count is a byte. -/
def BinaryOp.isShift : BinaryOp → Bool
  | .sal | .sar | .shr => true
  | _ => false

inductive Instr where
  | mov (w : Width) (src dst : Operand)
  /-- fills a quadword from a longword by its sign -/
  | movsx (src dst : Operand)
  /-- fills a quadword from a longword by zeros -/
  | movZeroExtend (src dst : Operand)
  | unary (op : UnaryOp) (w : Width) (operand : Operand)
  | binary (op : BinaryOp) (w : Width) (src dst : Operand)
  /-- sets the flags as `dst - src` does -/
  | cmp (w : Width) (src dst : Operand)
  | idiv (w : Width) (operand : Operand)
  | div (w : Width) (operand : Operand)
  /-- fills `dx` with the sign of `ax` -/
  | cdq (w : Width)
  | jmp (target : String)
  | jmpCC (c : Cond) (target : String)
  | setCC (c : Cond) (operand : Operand)
  | label (name : String)
  | allocateStack (bytes : Nat)
  | deallocateStack (bytes : Nat)
  | push (operand : Operand)
  | call (name : String)
  | ret
deriving Repr, DecidableEq

def Instr.mapOperands (f : Operand → Operand) : Instr → Instr
  | .mov w src dst => .mov w (f src) (f dst)
  | .movsx src dst => .movsx (f src) (f dst)
  | .movZeroExtend src dst => .movZeroExtend (f src) (f dst)
  | .unary op w a => .unary op w (f a)
  | .binary op w src dst => .binary op w (f src) (f dst)
  | .cmp w src dst => .cmp w (f src) (f dst)
  | .idiv w a => .idiv w (f a)
  | .div w a => .div w (f a)
  | .setCC c a => .setCC c (f a)
  | .push a => .push (f a)
  | i => i

/-- The operands of an instruction, the source before the destination. -/
def Instr.operands : Instr → List Operand
  | .mov _ src dst | .movsx src dst | .movZeroExtend src dst | .binary _ _ src dst
  | .cmp _ src dst => [src, dst]
  | .unary _ _ a | .idiv _ a | .div _ a | .setCC _ a | .push a => [a]
  | _ => []

/-! ## Programs -/

structure Function where
  name : String
  global : Bool
  instrs : List Instr
deriving Repr, DecidableEq

structure StaticVar where
  name : String
  global : Bool
  alignment : Nat
  init : Int
  width : Width
deriving Repr, DecidableEq

inductive TopLevel where
  | function (f : Function)
  | static (v : StaticVar)
deriving Repr, DecidableEq

structure Program where
  topLevels : List TopLevel
deriving Repr, DecidableEq

/-- The program with the instructions of each function replaced by what `f` makes of them. -/
def Program.mapFunctions {ε : Type} (p : Program) (f : List Instr → Except ε (List Instr)) :
    Except ε Program := do
  let topLevels ← p.topLevels.mapM fun
    | .function g => do return .function { g with instrs := ← f g.instrs }
    | .static v => return .static v
  return ⟨topLevels⟩

/-! ## Symbols -/

/-- What machine code has to know about a name: the width of an object and whether it has static
storage, or whether a function is defined in the program. -/
inductive Symbol where
  | object (w : Width) (isStatic : Bool)
  | function (defined : Bool)
deriving Repr, DecidableEq

abbrev Symbols := Table Symbol

def Symbol.ofSymbol? : IntegerC.Symbol → Option Symbol
  | ⟨_, .function defined _⟩ => some (.function defined)
  | ⟨.integer t, .static _ _⟩ => some (.object (.ofType t) true)
  | ⟨.integer t, .automatic⟩ => some (.object (.ofType t) false)
  | ⟨.function _ _, _⟩ => none

/-- What machine code has to know about the names of a program, in the order of its table. -/
def Symbols.ofTable (t : SymbolTable) : Symbols :=
  t.filterMap (fun e => (Symbol.ofSymbol? e.2).map (fun s => (e.1, s)))

end IntegerC.Machine
