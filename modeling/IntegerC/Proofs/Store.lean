import IntegerC.ConstantExpr
import IntegerC.Proofs.Typed

set_option autoImplicit false

/-! # Stores and the world around a program

A `Store` holds for every variable a value in the range of its type. What a program leaves to others
is in a `World`: the answers of calls, which leave variables alone, and the results of divisions by
zero. Expressions and three-address code compute with the same operators on values.
-/

namespace IntegerC

/-! ## Stores -/

abbrev VarTypes := String → IntType

/-- The types that a table gives to variables. A name that is no variable in the table counts as one
of type `int`; no code reads or assigns it. -/
def SymbolTable.varTypes (t : SymbolTable) : VarTypes := fun x =>
  match t.typeOf? x with
  | some (.integer τ) => τ
  | _ => .int

theorem SymbolTable.varTypes_eq {t : SymbolTable} {x : String} {τ : IntType}
    (h : t.typeOf? x = some (.integer τ)) : t.varTypes x = τ := by
  rw [varTypes, h]

/-- A value for every variable, in the range of its type. -/
@[ext]
structure Store (types : VarTypes) where
  get : String → Int
  holds : ∀ x, (types x).Holds (get x)

namespace Store

variable {types : VarTypes}

/-- The store in which `x` has the value `n`, converted to the type of `x`. -/
def set (s : Store types) (x : String) (n : Int) : Store types where
  get y := if y = x then (types x).wrap n else s.get y
  holds y := by
    split
    · rename_i h
      rw [h]
      exact IntType.holds_wrap _ _
    · exact s.holds y

@[simp] theorem get_set_self (s : Store types) (x : String) (n : Int) :
    (s.set x n).get x = (types x).wrap n := if_pos rfl

theorem get_set_of_ne {x y : String} (h : y ≠ x) (s : Store types) (n : Int) :
    (s.set x n).get y = s.get y := if_neg h

/-- A value is converted when it is stored. -/
theorem set_wrap (s : Store types) (x : String) (n : Int) :
    s.set x ((types x).wrap n) = s.set x n := by
  ext y
  by_cases h : y = x
  · rw [h, get_set_self, get_set_self, IntType.wrap_wrap]
  · rw [get_set_of_ne h, get_set_of_ne h]

@[simp] theorem set_set (s : Store types) (x : String) (m n : Int) :
    (s.set x m).set x n = s.set x n := by
  ext y
  by_cases h : y = x
  · rw [h, get_set_self, get_set_self]
  · rw [get_set_of_ne h, get_set_of_ne h, get_set_of_ne h]

def zero (types : VarTypes) : Store types where
  get _ := 0
  holds x := by cases types x <;> decide

/-- The stores hold the same in the variables with `names`. -/
def Agree (names : String → Prop) (s s' : Store types) : Prop := ∀ x, names x → s.get x = s'.get x

namespace Agree

variable {names : String → Prop} {s s' s'' : Store types}

theorem refl (s : Store types) : s.Agree names s := fun _ _ => rfl

theorem symm (h : s.Agree names s') : s'.Agree names s := fun x hx => (h x hx).symm

theorem trans (h : s.Agree names s') (h' : s'.Agree names s'') : s.Agree names s'' :=
  fun x hx => (h x hx).trans (h' x hx)

theorem set (h : s.Agree names s') (x : String) (n : Int) :
    (s.set x n).Agree names (s'.set x n) := by
  intro y hy
  by_cases e : y = x
  · rw [e, get_set_self, get_set_self]
  · rw [get_set_of_ne e, get_set_of_ne e]
    exact h y hy

/-- A variable that does not count may be set. -/
theorem set_right (h : s.Agree names s') {x : String} (hx : ¬ names x) (n : Int) :
    s.Agree names (s'.set x n) := by
  intro y hy
  have e : y ≠ x := by
    rintro rfl
    exact hx hy
  rw [get_set_of_ne e]
  exact h y hy

end Agree

end Store

/-! ## The world -/

/-- What a program cannot compute itself: the answers of calls, and the results of divisions of a
number by zero. -/
structure World where
  call : String → List Int → Int
  division : Division → Int → Int

def ArithOp.value (w : World) (t : IntType) (op : ArithOp) (a b : Int) : Int :=
  match op.eval t a b with
  | .ok n => n
  | .error division => t.wrap (w.division division a)

/-- The number that a constant stands for. -/
def Constant.number (c : Constant) : Int := c.type.wrap c.value

theorem Constant.number_of_inRange {c : Constant} (h : c.InRange) : c.number = c.value :=
  IntType.wrap_of_holds h

/-! ## Ranges -/

namespace IntType

variable {t : IntType}

theorem holds_int_truth (b : Bool) : int.Holds (truth b) := by
  cases b <;> decide

end IntType

/-- The value of an operator is in range of its type, also where the world decides an undefined
one. -/
theorem ArithOp.holds_value (w : World) (t : IntType) (op : ArithOp) (a b : Int) :
    t.Holds (op.value w t a b) := by
  unfold value
  split
  · rename_i n h
    unfold eval at h
    split at h <;> try split at h
    all_goals cases h
    all_goals exact t.holds_wrap _
  · exact t.holds_wrap _

theorem ShiftOp.holds_eval (t : IntType) (op : ShiftOp) (a count : Int) :
    t.Holds (op.eval t a count) := by
  cases op <;> exact t.holds_wrap _

theorem UnaryOp.holds_eval (t : IntType) (op : UnaryOp) (a : Int) :
    (op.resultType t).Holds (op.eval t a) := by
  cases op with
  | negate | complement => exact t.holds_wrap _
  | not =>
      show IntType.int.Holds (if a = 0 then 1 else 0)
      split <;> decide

/-- An operator with one operand computes the same in the type of its operand and of its result. -/
theorem UnaryOp.eval_resultType (t : IntType) (op : UnaryOp) (a : Int) :
    op.eval (op.resultType t) a = op.eval t a := by
  cases op <;> rfl

end IntegerC
