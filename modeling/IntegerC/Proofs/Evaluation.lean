import IntegerC.Proofs.Sequencing
import IntegerC.Proofs.Store

set_option autoImplicit false

/-! # Evaluation of expressions

The value of an expression and the store it leaves, for evaluation from left to right. Every node
computes in the type that it carries. The connectives and the conditional evaluate only the operands
that C evaluates, and an assignment stores its value converted to the type of the variable.
-/

namespace IntegerC

variable {types : VarTypes}

/-- The type that a note carries. Those of checked expressions carry one. -/
def Note.intType (n : Note) : IntType := n.type.getD .int

namespace Expr

mutual
/-- The value of an expression, and the store that its evaluation leaves. -/
def eval (w : World) : Expr → Store types → Int × Store types
  | constant _ c, s => (c.number, s)
  | var _ x, s => (s.get x, s)
  | cast _ target a, s =>
      let (v, s₁) := a.eval w s
      (target.wrap v, s₁)
  | unary n op a, s =>
      let (v, s₁) := a.eval w s
      (op.eval n.intType v, s₁)
  | binary _ (.logic .and) a b, s =>
      let (v, s₁) := a.eval w s
      if v = 0 then (0, s₁)
      else
        let (v', s₂) := b.eval w s₁
        (truth (v' ≠ 0), s₂)
  | binary _ (.logic .or) a b, s =>
      let (v, s₁) := a.eval w s
      if v ≠ 0 then (1, s₁)
      else
        let (v', s₂) := b.eval w s₁
        (truth (v' ≠ 0), s₂)
  | binary n (.arith op) a b, s =>
      let (v, s₁) := a.eval w s
      let (v', s₂) := b.eval w s₁
      (op.value w n.intType v v', s₂)
  | binary n (.shift op) a b, s =>
      let (v, s₁) := a.eval w s
      let (v', s₂) := b.eval w s₁
      (op.eval n.intType v v', s₂)
  | binary _ (.compare op) a b, s =>
      let (v, s₁) := a.eval w s
      let (v', s₂) := b.eval w s₁
      (truth (op.holds v v'), s₂)
  | assignment _ a b, s =>
      let (v, s₁) := b.eval w s
      match a.target? with
      | some x => ((types x).wrap v, s₁.set x v)
      | none => (v, s₁)
  | conditional _ a b c, s =>
      let (v, s₁) := a.eval w s
      if v ≠ 0 then b.eval w s₁ else c.eval w s₁
  | call n f es, s =>
      let (vs, s₁) := evalAll w es s
      (n.intType.wrap (w.call f vs), s₁)

def evalAll (w : World) : List Expr → Store types → List Int × Store types
  | [], s => ([], s)
  | e :: es, s =>
      let (v, s₁) := e.eval w s
      let (vs, s₂) := evalAll w es s₁
      (v :: vs, s₂)
end

end Expr

/-! ## Connectives -/

namespace LogicOp

/-- Whether the value of an operand decides the connective. -/
def Decides (op : LogicOp) (v : Int) : Prop :=
  match op with
  | .and => v = 0
  | .or => v ≠ 0

instance (op : LogicOp) (v : Int) : Decidable (op.Decides v) :=
  match op with
  | .and => inferInstanceAs (Decidable (v = 0))
  | .or => inferInstanceAs (Decidable (v ≠ 0))

/-- The answer of a connective that an operand decides. -/
def decided : LogicOp → Int
  | .and => 0
  | .or => 1

end LogicOp

/-- Both connectives evaluate their right operand only if the left one does not decide them. -/
theorem Expr.eval_logic (w : World) (n : Note) (op : LogicOp) (a b : Expr) (s : Store types) :
    (binary n (.logic op) a b).eval w s =
      if op.Decides (a.eval w s).1 then (op.decided, (a.eval w s).2)
      else (if op.Decides (b.eval w (a.eval w s).2).1 then op.decided else 1 - op.decided,
        (b.eval w (a.eval w s).2).2) := by
  by_cases ha : (a.eval w s).1 = 0
  · cases op <;> simp [eval, LogicOp.Decides, LogicOp.decided, truth, ha]
  · by_cases hb : (b.eval w (a.eval w s).2).1 = 0 <;>
      cases op <;> simp [eval, LogicOp.Decides, LogicOp.decided, truth, ha, hb]

end IntegerC
