import IntegerC.Fault
import IntegerC.Machine
import IntegerC.ThreeAddress

set_option autoImplicit false

/-! # Choosing instructions

Each instruction of three-address code becomes a few machine instructions, whose operands are
immediates, registers and variables without a place. Which ones depends on the types of the values:
on their widths, and on whether the left operand has a sign.
-/

namespace IntegerC.Machine

open ThreeAddress (Value)

/-! ## Values -/

def valueType (t : SymbolTable) : Value → Except Fault IntType
  | .constant c => .ok c.type
  | .var name =>
      match t.find? name with
      | some ⟨.integer i, _⟩ => .ok i
      | _ => .error (Cause.unknownObject name).nowhere

def valueWidth (t : SymbolTable) (v : Value) : Except Fault Width := (valueType t v).map .ofType

def Operand.ofValue : Value → Operand
  | .constant c => .imm c.value
  | .var name => .pseudo name

/-! ## Operators -/

/-- The condition under which a comparison holds, of signed or of unsigned values. -/
def Cond.ofCompare (op : CompareOp) (signed : Bool) : Cond :=
  match op with
  | .equal => .e
  | .notEqual => .ne
  | .lessThan => if signed then .l else .b
  | .lessOrEqual => if signed then .le else .be
  | .greaterThan => if signed then .g else .a
  | .greaterOrEqual => if signed then .ge else .ae

def BinaryOp.ofShift (op : ShiftOp) (signed : Bool) : BinaryOp :=
  match op with
  | .left => .sal
  | .right => if signed then .sar else .shr

/-- A quotient or a remainder, which the division leaves in register `result`. -/
def divisionCode (w : Width) (signed : Bool) (result : Reg) (left right dst : Operand) :
    List Instr :=
  [.mov w left (.reg .ax)] ++
    (if signed then [.cdq w, .idiv w right] else [.mov w (.imm 0) (.reg .dx), .div w right]) ++
    [.mov w (.reg result) dst]

/-- An operation that leaves its result in place of its left operand. -/
def plainCode (op : BinaryOp) (w : Width) (left right dst : Operand) : List Instr :=
  [.mov w left dst, .binary op w right dst]

def arithCode (op : ArithOp) (w : Width) (signed : Bool) (left right dst : Operand) : List Instr :=
  match op with
  | .add => plainCode .add w left right dst
  | .subtract => plainCode .sub w left right dst
  | .multiply => plainCode .mult w left right dst
  | .bitAnd => plainCode .and w left right dst
  | .bitOr => plainCode .or w left right dst
  | .bitXor => plainCode .xor w left right dst
  | .divide => divisionCode w signed .ax left right dst
  | .remainder => divisionCode w signed .dx left right dst

/-- A shift of an operand of width `w`. A count that is no immediate goes through `cx`. -/
def shiftCode (t : SymbolTable) (op : BinaryOp) (w : Width) (left right dst : Value) :
    Except Fault (List Instr) :=
  match right with
  | .constant c =>
      -- an immediate count has one byte
      .ok (plainCode op w (.ofValue left) (.imm (c.value % 256)) (.ofValue dst))
  | .var name => do
      let count ← valueWidth t right
      return [.mov w (.ofValue left) (.ofValue dst), .mov count (.pseudo name) (.reg .cx),
        .binary op w (.reg .cx) (.ofValue dst)]

/-! ## Calls -/

/-- Moves arguments into the registers that are left. -/
def registerArguments (t : SymbolTable) : List Value → List Reg → Except Fault (List Instr)
  | v :: vs, r :: rs => do
      let w ← valueWidth t v
      let rest ← registerArguments t vs rs
      return .mov w (.ofValue v) (.reg r) :: rest
  | _, _ => .ok []

/-- Pushes an argument. A push reads a quadword, so a longword in memory goes through `ax`. -/
def pushArgument (t : SymbolTable) (v : Value) : Except Fault (List Instr) :=
  match v with
  | .constant c => .ok [.push (.imm c.value)]
  | .var name => do
      match ← valueWidth t v with
      | .quadword => return [.push (.pseudo name)]
      | .longword => return [.mov .longword (.pseudo name) (.reg .ax), .push (.reg .ax)]

/-- Pushes arguments, the first one of the list first. -/
def pushArguments (t : SymbolTable) : List Value → Except Fault (List Instr)
  | [] => .ok []
  | v :: vs => do
      let i ← pushArgument t v
      return i ++ (← pushArguments t vs)

/-- Moves the stack down by `bytes`, if at all. -/
def allocate (bytes : Nat) : List Instr := if bytes = 0 then [] else [.allocateStack bytes]

def deallocate (bytes : Nat) : List Instr := if bytes = 0 then [] else [.deallocateStack bytes]

/-- The bytes that keep the stack aligned to 16 bytes when `n` arguments of 8 bytes are pushed. -/
def paddingFor (n : Nat) : Nat := if n % 2 = 1 then 8 else 0

/-- A call. The first six arguments go into registers, the others are pushed from last to first. -/
def callCode (t : SymbolTable) (name : String) (args : List Value) (dst : Value) :
    Except Fault (List Instr) := do
  let stackArgs := args.drop argumentRegs.length
  let padding := paddingFor stackArgs.length
  let moves ← registerArguments t args argumentRegs
  let pushes ← pushArguments t stackArgs.reverse
  let w ← valueWidth t dst
  return allocate padding ++ moves ++ pushes ++ [.call name] ++
    deallocate (8 * stackArgs.length + padding) ++ [.mov w (.reg .ax) (.ofValue dst)]

/-! ## Instructions -/

/-- The operation of an operator with one operand that keeps the type of the operand. -/
def unaryCode (op : UnaryOp) (w : Width) (src dst : Operand) : List Instr :=
  [.mov w src dst, .unary op w dst]

def instrCode (t : SymbolTable) : ThreeAddress.Instr → Except Fault (List Instr)
  | .ret v => do return [.mov (← valueWidth t v) (.ofValue v) (.reg .ax), .ret]
  | .copy src dst => do return [.mov (← valueWidth t src) (.ofValue src) (.ofValue dst)]
  | .signExtend src dst => .ok [.movsx (.ofValue src) (.ofValue dst)]
  | .zeroExtend src dst => .ok [.movZeroExtend (.ofValue src) (.ofValue dst)]
  | .truncate src dst => .ok [.mov .longword (.ofValue src) (.ofValue dst)]
  | .unary .not src dst => do
      let w ← valueWidth t src
      let w' ← valueWidth t dst
      -- the answer fills one byte only, and a move clears the rest without touching the flags
      return [.cmp w (.imm 0) (.ofValue src), .mov w' (.imm 0) (.ofValue dst),
        .setCC .e (.ofValue dst)]
  | .unary .negate src dst => do
      return unaryCode .neg (← valueWidth t src) (.ofValue src) (.ofValue dst)
  | .unary .complement src dst => do
      return unaryCode .not (← valueWidth t src) (.ofValue src) (.ofValue dst)
  | .binary op left right dst => do
      let i ← valueType t left
      let w := Width.ofType i
      match op with
      | .compare op =>
          let w' ← valueWidth t dst
          -- a comparison takes its first operand from its second
          return [.cmp w (.ofValue right) (.ofValue left), .mov w' (.imm 0) (.ofValue dst),
            .setCC (.ofCompare op i.signed) (.ofValue dst)]
      | .arith op =>
          return arithCode op w i.signed (.ofValue left) (.ofValue right) (.ofValue dst)
      | .shift op => shiftCode t (.ofShift op i.signed) w left right dst
      | .other name => throw (Cause.unknownOperator name).nowhere
  | .jump target => .ok [.jmp target]
  | .jumpIfZero c target => do
      return [.cmp (← valueWidth t c) (.imm 0) (.ofValue c), .jmpCC .e target]
  | .jumpIfNotZero c target => do
      return [.cmp (← valueWidth t c) (.imm 0) (.ofValue c), .jmpCC .ne target]
  | .label name => .ok [.label name]
  | .call name args dst => callCode t name args dst

def instrsCode (t : SymbolTable) : List ThreeAddress.Instr → Except Fault (List Instr)
  | [] => .ok []
  | i :: is => do
      let code ← instrCode t i
      return code ++ (← instrsCode t is)

/-! ## Programs -/

/-- Where a function finds its parameter number `i`. Those that are not in registers stand above the
saved base of the frame and the return address. -/
def parameterPlace (i : Nat) : Operand :=
  match argumentRegs[i]? with
  | some r => .reg r
  | none => .stack (16 + 8 * ((i : Int) - argumentRegs.length))

/-- Moves the parameters from number `i` on to their variables. -/
def parameterMoves (t : SymbolTable) (i : Nat) : List String → Except Fault (List Instr)
  | [] => .ok []
  | name :: names => do
      let w ← valueWidth t (.var name)
      let rest ← parameterMoves t (i + 1) names
      return .mov w (parameterPlace i) (.pseudo name) :: rest

def Function.ofCode (t : SymbolTable) (f : ThreeAddress.Function) : Except Fault Function := do
  let moves ← parameterMoves t 0 f.params
  let body ← instrsCode t f.body
  return ⟨f.name, f.global, moves ++ body⟩

def StaticVar.ofCode (v : ThreeAddress.StaticVar) : StaticVar :=
  ⟨v.name, v.global, v.type.size, v.init.value, .ofType v.type⟩

def topLevelsCode (t : SymbolTable) : List ThreeAddress.TopLevel → Except Fault (List TopLevel)
  | [] => .ok []
  | .function f :: rest => do
      let g ← Function.ofCode t f
      return .function g :: (← topLevelsCode t rest)
  | .static v :: rest => do return .static (.ofCode v) :: (← topLevelsCode t rest)

def Program.ofCode (t : SymbolTable) (p : ThreeAddress.Program) : Except Fault Program := do
  return ⟨← topLevelsCode t p.topLevels⟩

end IntegerC.Machine
