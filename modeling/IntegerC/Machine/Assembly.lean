import IntegerC.Fault
import IntegerC.Machine
import IntegerC.Text.Lines

set_option autoImplicit false

/-! # Assembly text

Machine code in the syntax of AT&T. The static variables come first, in `.bss` when they begin as
zero and in `.data` otherwise, then the functions, with a blank line between any two blocks. The
platforms differ in the spelling of symbols and labels; on Linux, calls of functions from elsewhere
go through the linkage table, and a note at the end asks for a stack that is not executable.
-/

namespace IntegerC.Machine

/-! ## Spellings -/

inductive Platform where
  | linux | macos
deriving Repr, DecidableEq

/-- How many bytes of an operand an instruction touches. -/
inductive Access where
  | byte | longword | quadword
deriving Repr, DecidableEq

/-- An instruction of width `w` touches that many bytes. -/
def Width.access : Width → Access
  | .longword => .longword
  | .quadword => .quadword

def Reg.text : Reg → Access → String
  | .ax, .byte => "%al"
  | .ax, .longword => "%eax"
  | .ax, .quadword => "%rax"
  | .cx, .byte => "%cl"
  | .cx, .longword => "%ecx"
  | .cx, .quadword => "%rcx"
  | .dx, .byte => "%dl"
  | .dx, .longword => "%edx"
  | .dx, .quadword => "%rdx"
  | .di, .byte => "%dil"
  | .di, .longword => "%edi"
  | .di, .quadword => "%rdi"
  | .si, .byte => "%sil"
  | .si, .longword => "%esi"
  | .si, .quadword => "%rsi"
  | .r8, .byte => "%r8b"
  | .r8, .longword => "%r8d"
  | .r8, .quadword => "%r8"
  | .r9, .byte => "%r9b"
  | .r9, .longword => "%r9d"
  | .r9, .quadword => "%r9"
  | .r10, .byte => "%r10b"
  | .r10, .longword => "%r10d"
  | .r10, .quadword => "%r10"
  | .r11, .byte => "%r11b"
  | .r11, .longword => "%r11d"
  | .r11, .quadword => "%r11"
  | .sp, .byte => "%spl"
  | .sp, .longword => "%esp"
  | .sp, .quadword => "%rsp"

def Width.letter : Width → String
  | .longword => "l"
  | .quadword => "q"

def UnaryOp.mnemonic : UnaryOp → String
  | .neg => "neg"
  | .not => "not"

def BinaryOp.mnemonic : BinaryOp → String
  | .add => "add"
  | .sub => "sub"
  | .mult => "imul"
  | .and => "and"
  | .or => "or"
  | .xor => "xor"
  | .sal => "sal"
  | .sar => "sar"
  | .shr => "shr"

def Cond.letters : Cond → String
  | .e => "e"
  | .ne => "ne"
  | .g => "g"
  | .ge => "ge"
  | .l => "l"
  | .le => "le"
  | .a => "a"
  | .ae => "ae"
  | .b => "b"
  | .be => "be"

namespace Platform

/-- The symbol of a function or a static variable. -/
def symbol (p : Platform) (name : String) : String :=
  match p with
  | linux => name
  | macos => "_" ++ name

def label (p : Platform) (name : String) : String :=
  match p with
  | linux => ".L" ++ name
  | macos => "L" ++ name

def isDefined (s : Symbols) (name : String) : Bool :=
  match s.find? name with
  | some (.function defined) => defined
  | _ => false

/-- What a call of the function `name` names. -/
def callee (p : Platform) (s : Symbols) (name : String) : String :=
  match p with
  | linux => if isDefined s name then name else name ++ "@PLT"
  | macos => p.symbol name

def operand (p : Platform) (a : Access) : Operand → Except Fault String
  | .imm n => .ok s!"${n}"
  | .reg r => .ok (r.text a)
  | .stack offset => .ok s!"{offset}(%rbp)"
  | .data name => .ok s!"{p.symbol name}(%rip)"
  | .pseudo name => .error (Cause.unplacedName name).nowhere

end Platform

/-! ## Lines -/

def codeLine (mnemonic : String) (operands : List String) : String :=
  match operands with
  | [] => "\t" ++ mnemonic
  | _ => "\t" ++ mnemonic ++ "\t" ++ ", ".intercalate operands

namespace Platform

def unaryLine (p : Platform) (mnemonic : String) (a : Access) (x : Operand) :
    Except Fault (List String) := do
  return [codeLine mnemonic [← p.operand a x]]

def binaryLine (p : Platform) (mnemonic : String) (a b : Access) (src dst : Operand) :
    Except Fault (List String) := do
  let s ← p.operand a src
  let d ← p.operand b dst
  return [codeLine mnemonic [s, d]]

/-- The lines of an instruction. A return takes down the frame first. -/
def instrLines (p : Platform) (s : Symbols) : Instr → Except Fault (List String)
  | .mov w src dst => p.binaryLine ("mov" ++ w.letter) w.access w.access src dst
  | .movsx src dst => p.binaryLine "movslq" .longword .quadword src dst
  | .movZeroExtend _ _ => .error Cause.bareZeroExtension.nowhere
  | .unary op w a => p.unaryLine (op.mnemonic ++ w.letter) w.access a
  | .binary op w src dst =>
      p.binaryLine (op.mnemonic ++ w.letter) (if op.isShift then .byte else w.access) w.access
        src dst
  | .cmp w src dst => p.binaryLine ("cmp" ++ w.letter) w.access w.access src dst
  | .idiv w a => p.unaryLine ("idiv" ++ w.letter) w.access a
  | .div w a => p.unaryLine ("div" ++ w.letter) w.access a
  | .cdq .longword => .ok [codeLine "cdq" []]
  | .cdq .quadword => .ok [codeLine "cqo" []]
  | .jmp target => .ok [codeLine "jmp" [p.label target]]
  | .jmpCC c target => .ok [codeLine ("j" ++ c.letters) [p.label target]]
  | .setCC c a => p.unaryLine ("set" ++ c.letters) .byte a
  | .label name => .ok [p.label name ++ ":"]
  | .allocateStack bytes => .ok [codeLine "subq" [s!"${bytes}", "%rsp"]]
  | .deallocateStack bytes => .ok [codeLine "addq" [s!"${bytes}", "%rsp"]]
  | .push a => p.unaryLine "pushq" .quadword a
  | .call name => .ok [codeLine "call" [p.callee s name]]
  | .ret => .ok [codeLine "movq" ["%rbp", "%rsp"], codeLine "popq" ["%rbp"], codeLine "ret" []]

def instrsLines (p : Platform) (s : Symbols) : List Instr → Except Fault (List String)
  | [] => .ok []
  | i :: is => do
      let lines ← p.instrLines s i
      return lines ++ (← p.instrsLines s is)

/-- The line that shows a symbol to other units, if it is global. -/
def globalLine (p : Platform) (global : Bool) (name : String) : List String :=
  if global then [codeLine ".globl" [p.symbol name]] else []

def staticLines (p : Platform) (v : StaticVar) : List String :=
  let head (part : String) : List String :=
    p.globalLine v.global v.name ++
      [codeLine part [], codeLine ".balign" [toString v.alignment], p.symbol v.name ++ ":"]
  if v.init = 0 then head ".bss" ++ [codeLine ".zero" [toString v.width.size]]
  else
    match v.width with
    | .longword => head ".data" ++ [codeLine ".long" [toString v.init]]
    | .quadword => head ".data" ++ [codeLine ".quad" [toString v.init]]

/-- The lines of a function, which sets up its frame first. -/
def functionLines (p : Platform) (s : Symbols) (f : Function) : Except Fault (List String) := do
  let body ← p.instrsLines s f.instrs
  return p.globalLine f.global f.name ++
    [codeLine ".text" [], p.symbol f.name ++ ":", codeLine "pushq" ["%rbp"],
     codeLine "movq" ["%rsp", "%rbp"]] ++ body

def note : Platform → List (List String)
  | linux => [[codeLine ".section" [".note.GNU-stack,\"\",@progbits"]]]
  | macos => []

end Platform

/-! ## Programs -/

def Program.statics (p : Program) : List StaticVar :=
  p.topLevels.filterMap fun
    | .static v => some v
    | .function _ => none

def Program.functions (p : Program) : List Function :=
  p.topLevels.filterMap fun
    | .function f => some f
    | .static _ => none

/-- The lines of blocks, with a blank line between any two. -/
def blockLines : List (List String) → List String
  | [] => []
  | [b] => b
  | b :: bs => b ++ "" :: blockLines bs

def Program.blocks (prog : Program) (p : Platform) (s : Symbols) :
    Except Fault (List (List String)) := do
  let functions ← prog.functions.mapM (p.functionLines s)
  return prog.statics.map p.staticLines ++ functions ++ p.note

def Program.assembly (prog : Program) (p : Platform) (s : Symbols) (e : Text.LineEnding) :
    Except Fault String := do
  return e.unlines (blockLines (← prog.blocks p s))

end IntegerC.Machine
