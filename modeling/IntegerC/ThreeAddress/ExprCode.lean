import IntegerC.ThreeAddress
import IntegerC.Typing

set_option autoImplicit false

/-! # Code for expressions

The code of a checked expression computes its value and says where the value is: in a constant, in
a variable, or in a temporary. Temporaries are called `tmp.<n>`, where no name of the symbol table
is taken, and are recorded there. The connectives and the conditional become jumps.
-/

namespace IntegerC.ThreeAddress

/-! ## Fresh names -/

/-- What is known while code is made: the symbols, with the temporaries made so far, and how many
numbers have been used up for temporaries and for labels. -/
structure Supply where
  symbols : SymbolTable
  temporaries : Nat
  labels : Nat
deriving Repr, DecidableEq

abbrev Coder (α : Type) := StateT Supply (Except Fault) α

def temporaryName (n : Nat) : String := s!"tmp.{n}"

/-- The first number from `n` on whose temporary is not in the table. Among `tries + 1` numbers there
is one, if `tries` is the size of the table. -/
def freeNumber (t : SymbolTable) : Nat → Nat → Nat
  | 0, n => n
  | tries + 1, n =>
      if (t.find? (temporaryName n)).isSome then freeNumber t tries (n + 1) else n

namespace Coder

def temporary (t : IntType) : Coder Value := do
  let s ← get
  let n := freeNumber s.symbols s.symbols.length s.temporaries
  set { s with symbols := s.symbols.put (temporaryName n) (.automatic t), temporaries := n + 1 }
  return .var (temporaryName n)

def label (word : String) : Coder String := do
  let s ← get
  set { s with labels := s.labels + 1 }
  return s!"{word}.{s.labels}"

end Coder

/-! ## Pieces of code -/

/-- The code of an expression: where its value is, its type, and the instructions that compute it. -/
structure ExprCode where
  value : Value
  type : IntType
  code : List Instr
deriving Repr, DecidableEq

def intValue (n : Int) : Value := .constant ⟨.int, n⟩

/-- The instruction that converts a value from type `source` to type `target`. -/
def conversion (source target : IntType) (src dst : Value) : Instr :=
  if target.size = source.size then .copy src dst
  else if target.size < source.size then .truncate src dst
  else if source.signed then .signExtend src dst
  else .zeroExtend src dst

/-- A connective, whose right operand is skipped by a jump to the label `short` when the left one
decides the answer. -/
def connectiveCode (op : LogicOp) (left right : ExprCode) (dst : Value) (short finish : String) :
    List Instr :=
  let test (v : Value) : Instr :=
    match op with
    | .and => .jumpIfZero v short
    | .or => .jumpIfNotZero v short
  let decided : Int := match op with
    | .and => 0
    | .or => 1
  left.code ++ [test left.value] ++ right.code ++ [test right.value] ++
    [.copy (intValue (1 - decided)) dst, .jump finish, .label short,
     .copy (intValue decided) dst, .label finish]

/-- A conditional, whose arms both leave their value in `dst`. -/
def conditionalCode (condition yes no : ExprCode) (dst : Value) (other finish : String) :
    List Instr :=
  condition.code ++ [.jumpIfZero condition.value other] ++
    yes.code ++ [.copy yes.value dst, .jump finish, .label other] ++
    no.code ++ [.copy no.value dst, .label finish]

/-- The words that the labels of a connective begin with. -/
def connectiveWords : LogicOp → String × String
  | .and => ("and_false", "and_end")
  | .or => ("or_true", "or_end")

namespace Coder

/-- An operator with two operands of known code, whose result has type `t`. -/
def binary (op : BinaryOp) (t : IntType) (left right : ExprCode) : Coder ExprCode :=
  let plain (op : Operator) : Coder ExprCode := do
    let dst ← temporary t
    return ⟨dst, t, left.code ++ right.code ++ [.binary op left.value right.value dst]⟩
  match op with
  | .arith op => plain (.arith op)
  | .shift op => plain (.shift op)
  | .compare op => plain (.compare op)
  | .logic op => do
      let dst ← temporary .int
      let short ← label (connectiveWords op).1
      let finish ← label (connectiveWords op).2
      return ⟨dst, .int, connectiveCode op left right dst short finish⟩

mutual
/-- The code of an expression. The parts of a node are treated before the node itself. -/
def expr : Expr → Coder ExprCode
  | e@(.constant _ c) => do return ⟨.constant c, ← e.typeOf, []⟩
  | e@(.var _ name) => do return ⟨.var name, ← e.typeOf, []⟩
  | e@(.cast _ _ a) => do
      let inner ← expr a
      let t ← e.typeOf
      if inner.type = t then return inner
      else
        let dst ← temporary t
        return ⟨dst, t, inner.code ++ [conversion inner.type t inner.value dst]⟩
  | e@(.unary _ op a) => do
      let inner ← expr a
      let t ← e.typeOf
      let dst ← temporary t
      return ⟨dst, t, inner.code ++ [.unary op inner.value dst]⟩
  | e@(.binary _ op a b) => do
      let left ← expr a
      let right ← expr b
      let t ← e.typeOf
      binary op t left right
  | e@(.assignment _ a b) => do
      let target ← expr a
      let value ← expr b
      let t ← e.typeOf
      -- the target is a variable, so its value is the place that is written
      return ⟨target.value, t, target.code ++ value.code ++ [.copy value.value target.value]⟩
  | e@(.conditional _ a b c) => do
      let condition ← expr a
      let yes ← expr b
      let no ← expr c
      let t ← e.typeOf
      let dst ← temporary t
      let other ← label "cond_else"
      let finish ← label "cond_end"
      return ⟨dst, t, conditionalCode condition yes no dst other finish⟩
  | e@(.call _ callee args) => do
      let args' ← exprs args
      let t ← e.typeOf
      let dst ← temporary t
      return ⟨dst, t,
        args'.flatMap ExprCode.code ++ [.call callee (args'.map ExprCode.value) dst]⟩

def exprs : List Expr → Coder (List ExprCode)
  | [] => return []
  | e :: es => do
      let e' ← expr e
      return e' :: (← exprs es)
end

end Coder

end IntegerC.ThreeAddress
