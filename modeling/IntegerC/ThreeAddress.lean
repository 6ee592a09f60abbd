import IntegerC.CType
import IntegerC.Operator

set_option autoImplicit false

/-! # Three-address code

Programs as flat lists of instructions. An instruction names its operands and its result; a value
is a constant or a variable, which may be one of the program or a temporary. Jumps go to labels of
the same function.
-/

namespace IntegerC.ThreeAddress

inductive Value where
  | constant (c : Constant)
  | var (name : String)
deriving Repr, DecidableEq

/-- Operators with two operands. The connectives have become jumps, and no instruction is known for
the operators named by `other`. -/
inductive Operator where
  | arith (op : ArithOp)
  | shift (op : ShiftOp)
  | compare (op : CompareOp)
  | other (name : String)
deriving Repr, DecidableEq

inductive Instr where
  | ret (value : Value)
  | signExtend (src dst : Value)
  | zeroExtend (src dst : Value)
  | truncate (src dst : Value)
  | copy (src dst : Value)
  | unary (op : UnaryOp) (src dst : Value)
  | binary (op : Operator) (left right dst : Value)
  | jump (target : String)
  | jumpIfZero (condition : Value) (target : String)
  | jumpIfNotZero (condition : Value) (target : String)
  | label (name : String)
  | call (name : String) (args : List Value) (dst : Value)
deriving Repr, DecidableEq

structure Function where
  name : String
  global : Bool
  params : List String
  body : List Instr
deriving Repr, DecidableEq

structure StaticVar where
  name : String
  global : Bool
  type : IntType
  init : Constant
deriving Repr, DecidableEq

inductive TopLevel where
  | function (f : Function)
  | static (v : StaticVar)
deriving Repr, DecidableEq

structure Program where
  topLevels : List TopLevel
deriving Repr, DecidableEq

end IntegerC.ThreeAddress
