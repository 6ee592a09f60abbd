import IntegerC.Text.Lines
import IntegerC.ThreeAddress

set_option autoImplicit false

/-! # Listings of three-address code

A listing has one line for each instruction. Labels are indented by two spaces and other
instructions by four. A blank line stands between two functions and between a function and a static
variable; static variables in a row stand together.
-/

namespace IntegerC

/-! ## Spellings -/

def UnaryOp.text : UnaryOp → String
  | .negate => "-"
  | .complement => "~"
  | .not => "!"

def ArithOp.text : ArithOp → String
  | .add => "+"
  | .subtract => "-"
  | .multiply => "*"
  | .divide => "/"
  | .remainder => "%"
  | .bitAnd => "&"
  | .bitOr => "|"
  | .bitXor => "^"

def ShiftOp.text : ShiftOp → String
  | .left => "<<"
  | .right => ">>"

def CompareOp.text : CompareOp → String
  | .equal => "=="
  | .notEqual => "!="
  | .lessThan => "<"
  | .lessOrEqual => "<="
  | .greaterThan => ">"
  | .greaterOrEqual => ">="

/-- The letters behind a constant of a type. -/
def IntType.letters : IntType → String
  | .int => ""
  | .unsignedInt => "U"
  | .long => "L"
  | .unsignedLong => "UL"

def Constant.text (c : Constant) : String := toString c.value ++ c.type.letters

namespace ThreeAddress

/-- The spelling of an operator; there is none for an operator that is not known. -/
def Operator.text : Operator → String
  | .arith op => op.text
  | .shift op => op.text
  | .compare op => op.text
  | .other _ => "undefined"

def Value.text : Value → String
  | .constant c => c.text
  | .var name => name

/-! ## Lines -/

def Instr.line : Instr → String
  | .ret v => s!"    return {v.text}"
  | .signExtend src dst => s!"    {dst.text} = sign_extend {src.text}"
  | .zeroExtend src dst => s!"    {dst.text} = zero_extend {src.text}"
  | .truncate src dst => s!"    {dst.text} = truncate {src.text}"
  | .copy src dst => s!"    {dst.text} = {src.text}"
  | .unary op src dst => s!"    {dst.text} = {op.text}{src.text}"
  | .binary op left right dst => s!"    {dst.text} = {left.text} {op.text} {right.text}"
  | .jump target => s!"    jump {target}"
  | .jumpIfZero c target => s!"    jump_if_zero {c.text}, {target}"
  | .jumpIfNotZero c target => s!"    jump_if_not_zero {c.text}, {target}"
  | .label name => s!"  {name}:"
  | .call name args dst =>
      let list := ", ".intercalate (args.map Value.text)
      s!"    {dst.text} = {name}({list})"

/-- The word in front of what other units can see. -/
def globalWord (global : Bool) : String := if global then "global " else ""

def Function.lines (f : Function) : List String :=
  let list := ", ".intercalate f.params
  s!"{globalWord f.global}function {f.name}({list}):" :: f.body.map Instr.line

def StaticVar.line (v : StaticVar) : String :=
  s!"{globalWord v.global}static {v.type.text} {v.name} = {v.init.text}"

namespace TopLevel

def lines : TopLevel → List String
  | function f => f.lines
  | static v => [v.line]

/-- Whether `next` stands directly below `previous`. -/
def joins (previous next : TopLevel) : Bool :=
  match previous, next with
  | static _, static _ => true
  | _, _ => false

end TopLevel

/-- The lines of what follows `previous`. -/
def linesBelow (previous : TopLevel) : List TopLevel → List String
  | [] => []
  | t :: ts => (if previous.joins t then t.lines else "" :: t.lines) ++ linesBelow t ts

namespace Program

def lines (p : Program) : List String :=
  match p.topLevels with
  | [] => []
  | t :: ts => t.lines ++ linesBelow t ts

def listing (p : Program) (e : Text.LineEnding) : String := e.unlines p.lines

end Program

end ThreeAddress

end IntegerC
