import IntegerC.Token

set_option autoImplicit false

/-! # Operators

The operators of expressions, grouped by how their operands meet: arithmetic brings both operands
to their common type, a shift keeps the type of its left operand, a comparison answers an `int`,
and a connective evaluates its right operand only when the left one leaves the answer open. The
table of binding strengths at the end drives the reading of expressions.
-/

namespace IntegerC

inductive UnaryOp where
  | negate | complement | not
deriving Repr, DecidableEq

/-- Operators on two values of one type that answer a value of that type. -/
inductive ArithOp where
  | add | subtract | multiply | divide | remainder | bitAnd | bitOr | bitXor
deriving Repr, DecidableEq

inductive ShiftOp where
  | left | right
deriving Repr, DecidableEq

inductive CompareOp where
  | equal | notEqual | lessThan | lessOrEqual | greaterThan | greaterOrEqual
deriving Repr, DecidableEq

inductive LogicOp where
  | and | or
deriving Repr, DecidableEq

inductive BinaryOp where
  | arith (op : ArithOp)
  | shift (op : ShiftOp)
  | compare (op : CompareOp)
  | logic (op : LogicOp)
deriving Repr, DecidableEq

/-! ## Operators of the grammar -/

def Punct.unaryOp? : Punct → Option UnaryOp
  | .minus => some .negate
  | .tilde => some .complement
  | .bang => some .not
  | _ => none

/-- What may follow an operand: an operator with two operands, the question mark of a conditional,
or an assignment. -/
inductive Joint where
  | binary (op : BinaryOp)
  | conditional
  | assignment
deriving Repr, DecidableEq

namespace Joint

/-- How tightly a joint binds; the conditional and the assignment bind to the right. -/
def strength : Joint → Nat
  | binary (.arith .multiply) | binary (.arith .divide) | binary (.arith .remainder) => 50
  | binary (.arith .add) | binary (.arith .subtract) => 45
  | binary (.shift _) => 40
  | binary (.compare .lessThan) | binary (.compare .lessOrEqual)
  | binary (.compare .greaterThan) | binary (.compare .greaterOrEqual) => 35
  | binary (.compare .equal) | binary (.compare .notEqual) => 30
  | binary (.arith .bitAnd) => 25
  | binary (.arith .bitXor) => 20
  | binary (.arith .bitOr) => 15
  | binary (.logic .and) => 10
  | binary (.logic .or) => 5
  | conditional => 3
  | assignment => 1

/-- The joint that a punctuator behind an operand stands for. -/
def ofPunct? : Punct → Option Joint
  | .star => some (binary (.arith .multiply))
  | .slash => some (binary (.arith .divide))
  | .percent => some (binary (.arith .remainder))
  | .plus => some (binary (.arith .add))
  | .minus => some (binary (.arith .subtract))
  | .shiftLeft => some (binary (.shift .left))
  | .shiftRight => some (binary (.shift .right))
  | .less => some (binary (.compare .lessThan))
  | .lessOrEqual => some (binary (.compare .lessOrEqual))
  | .greater => some (binary (.compare .greaterThan))
  | .greaterOrEqual => some (binary (.compare .greaterOrEqual))
  | .equal => some (binary (.compare .equal))
  | .notEqual => some (binary (.compare .notEqual))
  | .ampersand => some (binary (.arith .bitAnd))
  | .caret => some (binary (.arith .bitXor))
  | .bar => some (binary (.arith .bitOr))
  | .andAnd => some (binary (.logic .and))
  | .orOr => some (binary (.logic .or))
  | .question => some conditional
  | .assign => some assignment
  | _ => none

def ofToken? (t : Token) : Option Joint :=
  match t.kind with
  | .punct p => ofPunct? p
  | _ => none

end Joint

end IntegerC
