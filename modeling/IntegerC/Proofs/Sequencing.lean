import IntegerC.Syntax

set_option autoImplicit false

/-! # Variables that an expression reads and assigns

C leaves the order of some operands open: of those of the operators with two operands other than the
connectives, and of the arguments of a call. An expression is `Sequenced` if no such operand assigns
a variable that another one reads or assigns.
-/

namespace IntegerC.Expr

/-- The variable that an expression is the name of. -/
def target? : Expr → Option String
  | var _ x => some x
  | _ => none

theorem exists_of_isVar {e : Expr} (h : e.isVar = true) : ∃ n x, e = var n x := by
  cases e with
  | var n x => exact ⟨n, x, rfl⟩
  | _ => cases h

mutual
/-- The variables that an expression may read. The target of an assignment is not read. -/
def reads : Expr → List String
  | constant _ _ => []
  | var _ x => [x]
  | cast _ _ a | unary _ _ a => a.reads
  | binary _ _ a b => a.reads ++ b.reads
  | assignment _ _ b => b.reads
  | conditional _ a b c => a.reads ++ b.reads ++ c.reads
  | call _ _ es => readsAll es

def readsAll : List Expr → List String
  | [] => []
  | e :: es => e.reads ++ readsAll es
end

mutual
/-- The variables that an expression may assign. -/
def assigned : Expr → List String
  | constant _ _ | var _ _ => []
  | cast _ _ a | unary _ _ a => a.assigned
  | binary _ _ a b => a.assigned ++ b.assigned
  | assignment _ a b => a.target?.toList ++ b.assigned
  | conditional _ a b c => a.assigned ++ b.assigned ++ c.assigned
  | call _ _ es => assignedAll es

def assignedAll : List Expr → List String
  | [] => []
  | e :: es => e.assigned ++ assignedAll es
end

/-- Neither of two expressions assigns a variable that the other one reads or assigns. -/
def Apart (a b : Expr) : Prop :=
  (∀ x ∈ a.assigned, x ∉ b.reads ∧ x ∉ b.assigned) ∧
    ∀ x ∈ b.assigned, x ∉ a.reads ∧ x ∉ a.assigned

instance (a b : Expr) : Decidable (a.Apart b) := inferInstanceAs (Decidable (_ ∧ _))

/-- Whether C evaluates the left operand of an operator before the right one. -/
def ordersOperands : BinaryOp → Bool
  | .logic _ => true
  | _ => false

mutual
/-- No variable assigned in one operand is read or assigned in another one whose order C leaves
open. -/
def Sequenced : Expr → Prop
  | constant _ _ | var _ _ => True
  | cast _ _ a | unary _ _ a => a.Sequenced
  | binary _ op a b => a.Sequenced ∧ b.Sequenced ∧ (ordersOperands op = false → a.Apart b)
  | assignment _ _ b => b.Sequenced
  | conditional _ a b c => a.Sequenced ∧ b.Sequenced ∧ c.Sequenced
  | call _ _ es => AllSequenced es ∧ es.Pairwise Apart

def AllSequenced : List Expr → Prop
  | [] => True
  | e :: es => e.Sequenced ∧ AllSequenced es
end

mutual
def decideSequenced : (e : Expr) → Decidable e.Sequenced
  | constant _ _ | var _ _ => inferInstanceAs (Decidable True)
  | cast _ _ a | unary _ _ a => decideSequenced a
  | binary _ _ a b =>
      let _ := decideSequenced a
      let _ := decideSequenced b
      inferInstanceAs (Decidable (_ ∧ _ ∧ _))
  | assignment _ _ b => decideSequenced b
  | conditional _ a b c =>
      let _ := decideSequenced a
      let _ := decideSequenced b
      let _ := decideSequenced c
      inferInstanceAs (Decidable (_ ∧ _ ∧ _))
  | call _ _ es =>
      let _ := decideAllSequenced es
      inferInstanceAs (Decidable (_ ∧ _))

def decideAllSequenced : (es : List Expr) → Decidable (AllSequenced es)
  | [] => inferInstanceAs (Decidable True)
  | e :: es =>
      let _ := decideSequenced e
      let _ := decideAllSequenced es
      inferInstanceAs (Decidable (_ ∧ _))
end

instance (e : Expr) : Decidable e.Sequenced := decideSequenced e

theorem mem_assignedAll {es : List Expr} {x : String} :
    x ∈ assignedAll es ↔ ∃ e ∈ es, x ∈ e.assigned := by
  induction es with
  | nil => simp [assignedAll]
  | cons e es ih => simp [assignedAll, ih]

end IntegerC.Expr
