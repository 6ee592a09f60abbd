import IntegerC.Fault
import IntegerC.Syntax

set_option autoImplicit false

/-! # Constant expressions

An expression is constant if no name, call or assignment stands anywhere in it. Its type is then
known, and its value too unless a division by zero has to be carried out. Operands that are never
evaluated, which are the right operand of a decided connective and the arm of a conditional that is
not taken, cannot fail.
-/

namespace IntegerC

/-! ## Operators on values -/

/-- The value of type `t` whose bits combine those of `a` and `b`. -/
def IntType.bitwise (t : IntType) (f : ∀ w, BitVec w → BitVec w → BitVec w) (a b : Int) : Int :=
  t.wrap (f t.bits (BitVec.ofInt t.bits a) (BitVec.ofInt t.bits b)).toInt

/-- The value of an arithmetic operator on two values of type `t`, or the operator that would have
to divide by zero. Division truncates toward zero, and the remainder has the sign of the
dividend. -/
def ArithOp.eval (t : IntType) (op : ArithOp) (a b : Int) : Except Division Int :=
  match op with
  | .add => .ok (t.wrap (a + b))
  | .subtract => .ok (t.wrap (a - b))
  | .multiply => .ok (t.wrap (a * b))
  | .divide => if b = 0 then .error .quotient else .ok (t.wrap (a.tdiv b))
  | .remainder => if b = 0 then .error .remainder else .ok (t.wrap (a.tmod b))
  | .bitAnd => .ok (t.bitwise (fun _ => BitVec.and) a b)
  | .bitOr => .ok (t.bitwise (fun _ => BitVec.or) a b)
  | .bitXor => .ok (t.bitwise (fun _ => BitVec.xor) a b)

/-- The value of a shift of a value of type `t`. The count is taken modulo the width of the type, and
a shift to the right rounds down. -/
def ShiftOp.eval (t : IntType) (op : ShiftOp) (a count : Int) : Int :=
  let n := (count % t.bits).toNat
  match op with
  | .left => t.wrap (a <<< n)
  | .right => t.wrap (a >>> n)

def CompareOp.holds (op : CompareOp) (a b : Int) : Bool :=
  match op with
  | .equal => a = b
  | .notEqual => a ≠ b
  | .lessThan => a < b
  | .lessOrEqual => a ≤ b
  | .greaterThan => a > b
  | .greaterOrEqual => a ≥ b

def UnaryOp.eval (t : IntType) (op : UnaryOp) (a : Int) : Int :=
  match op with
  | .negate => t.wrap (-a)
  | .complement => t.wrap (-a - 1)
  | .not => if a = 0 then 1 else 0

/-- The number that stands for a truth value. -/
def truth (b : Bool) : Int := if b then 1 else 0

/-! ## Evaluation -/

/-- The type of a constant expression, and its value unless its evaluation fails. -/
structure Folded where
  type : IntType
  value : Except Fault Int
deriving Repr

namespace Folded

def convert (f : Folded) (t : IntType) : Except Fault Int := f.value.map t.wrap

def unary (op : UnaryOp) (f : Folded) : Folded :=
  ⟨if op = .not then .int else f.type, f.value.map (op.eval f.type)⟩

/-- An operator with two operands, written at `span`. A shift evaluates its count first. -/
def binary (span : Span) (op : BinaryOp) (f g : Folded) : Folded :=
  match op with
  | .logic .and =>
      ⟨.int, do
        let a ← f.value
        if a = 0 then return 0 else return truth ((← g.value) ≠ 0)⟩
  | .logic .or =>
      ⟨.int, do
        let a ← f.value
        if a ≠ 0 then return 1 else return truth ((← g.value) ≠ 0)⟩
  | .shift op =>
      ⟨f.type, do
        let count ← g.value
        return op.eval f.type (← f.value) count⟩
  | .compare op =>
      ⟨.int, do
        let a ← f.convert (f.type.common g.type)
        let b ← g.convert (f.type.common g.type)
        return truth (op.holds a b)⟩
  | .arith op =>
      let t := f.type.common g.type
      ⟨t, do
        let a ← f.convert t
        let b ← g.convert t
        match op.eval t a b with
        | .ok n => return n
        | .error division => throw ((Cause.divisionByZero division).at span)⟩

/-- A conditional, of which only one arm is evaluated. -/
def conditional (f g h : Folded) : Folded :=
  let t := g.type.common h.type
  ⟨t, do
    let a ← f.value
    if a ≠ 0 then g.convert t else h.convert t⟩

end Folded

namespace Expr

/-- The type and the value of a constant expression; nothing if the expression is not constant. -/
def fold : Expr → Option Folded
  | constant _ c => some ⟨c.type, .ok c.value⟩
  | var _ _ | call _ _ _ | assignment _ _ _ => none
  | cast _ target a => do
      let f ← a.fold
      return ⟨target, f.convert target⟩
  | unary _ op a => do
      let f ← a.fold
      return .unary op f
  | binary n op a b => do
      let f ← a.fold
      let g ← b.fold
      return .binary n.span op f g
  | conditional _ a b c => do
      let f ← a.fold
      let g ← b.fold
      let h ← c.fold
      return .conditional f g h

section

variable {n : Note} {a b c : Expr} {f : Folded}

theorem fold_cast_eq_some {t : IntType} : (cast n t a).fold = some f ↔
    ∃ g, a.fold = some g ∧ f = ⟨t, g.convert t⟩ := by
  simp [fold, Option.bind_eq_some_iff, @eq_comm _ f]

theorem fold_unary_eq_some {op : UnaryOp} : (unary n op a).fold = some f ↔
    ∃ g, a.fold = some g ∧ f = .unary op g := by
  simp [fold, Option.bind_eq_some_iff, @eq_comm _ f]

theorem fold_binary_eq_some {op : BinaryOp} : (binary n op a b).fold = some f ↔
    ∃ g h, a.fold = some g ∧ b.fold = some h ∧ f = .binary n.span op g h := by
  simp [fold, Option.bind_eq_some_iff, @eq_comm _ f]

theorem fold_conditional_eq_some : (conditional n a b c).fold = some f ↔
    ∃ g h i, a.fold = some g ∧ b.fold = some h ∧ c.fold = some i ∧ f = .conditional g h i := by
  simp [fold, Option.bind_eq_some_iff, @eq_comm _ f]

end

/-- The value of a constant expression; nothing if the expression is not constant. -/
def constant? (e : Expr) : Except Fault (Option Constant) :=
  match e.fold with
  | none => .ok none
  | some f => f.value.map (fun n => some ⟨f.type, n⟩)

end Expr

end IntegerC
