import IntegerC.Proofs.Ensures
import IntegerC.Proofs.Evaluation

set_option autoImplicit false

/-! # When constant expressions have a value

What evaluating a constant expression means, said apart from the function that does it: the type
and the value of an expression as relations, and the parts of it that are evaluated at all. All
operands are, except the right operand of a connective that its left operand decides and the arm of
a conditional that is not taken. Folding an expression follows these relations. It gives nothing as
soon as a variable, a call or an assignment stands anywhere in the expression, it fails exactly if
one of the evaluated parts divides by zero, and it blames such a part.
-/

namespace IntegerC

/-! ## Types, values and evaluated parts -/

/-- Whether the root of an expression is something that only a running program has a value for. -/
def Expr.isRuntime : Expr → Bool
  | .var _ _ | .call _ _ _ | .assignment _ _ _ => true
  | _ => false

def ArithOp.division? : ArithOp → Option Division
  | .divide => some .quotient
  | .remainder => some .remainder
  | _ => none

namespace Expr

/-- The type of an expression in which nothing needs a running program. -/
inductive TypedAs : Expr → IntType → Prop where
  | constant {n : Note} {c : Constant} : TypedAs (.constant n c) c.type
  | cast {n : Note} {t s : IntType} {a : Expr} : TypedAs a s → TypedAs (.cast n t a) t
  | not {n : Note} {a : Expr} {s : IntType} : TypedAs a s → TypedAs (.unary n .not a) .int
  | unary {n : Note} {op : UnaryOp} {a : Expr} {s : IntType} :
      op ≠ .not → TypedAs a s → TypedAs (.unary n op a) s
  | logic {n : Note} {op : LogicOp} {a b : Expr} {s t : IntType} :
      TypedAs a s → TypedAs b t → TypedAs (.binary n (.logic op) a b) .int
  | compare {n : Note} {op : CompareOp} {a b : Expr} {s t : IntType} :
      TypedAs a s → TypedAs b t → TypedAs (.binary n (.compare op) a b) .int
  | shift {n : Note} {op : ShiftOp} {a b : Expr} {s t : IntType} :
      TypedAs a s → TypedAs b t → TypedAs (.binary n (.shift op) a b) s
  | arith {n : Note} {op : ArithOp} {a b : Expr} {s t : IntType} :
      TypedAs a s → TypedAs b t → TypedAs (.binary n (.arith op) a b) (s.common t)
  | conditional {n : Note} {a b c : Expr} {r s t : IntType} :
      TypedAs a r → TypedAs b s → TypedAs c t → TypedAs (.conditional n a b c) (s.common t)

/-- The value of an expression. Operands that are not evaluated need not have one. -/
inductive HasValue : Expr → Int → Prop where
  | constant {n : Note} {c : Constant} : HasValue (.constant n c) c.value
  | cast {n : Note} {t : IntType} {a : Expr} {k : Int} :
      HasValue a k → HasValue (.cast n t a) (t.wrap k)
  | unary {n : Note} {op : UnaryOp} {a : Expr} {t : IntType} {k : Int} :
      TypedAs a t → HasValue a k → HasValue (.unary n op a) (op.eval t k)
  | decided {n : Note} {op : LogicOp} {a b : Expr} {k : Int} :
      HasValue a k → op.Decides k → HasValue (.binary n (.logic op) a b) op.decided
  | undecided {n : Note} {op : LogicOp} {a b : Expr} {k m : Int} :
      HasValue a k → ¬ op.Decides k → HasValue b m →
      HasValue (.binary n (.logic op) a b) (truth (m ≠ 0))
  | compare {n : Note} {op : CompareOp} {a b : Expr} {s t : IntType} {k m : Int} :
      TypedAs a s → TypedAs b t → HasValue a k → HasValue b m →
      HasValue (.binary n (.compare op) a b)
        (truth (op.holds ((s.common t).wrap k) ((s.common t).wrap m)))
  | shift {n : Note} {op : ShiftOp} {a b : Expr} {s : IntType} {k m : Int} :
      TypedAs a s → HasValue a k → HasValue b m →
      HasValue (.binary n (.shift op) a b) (op.eval s k m)
  | arith {n : Note} {op : ArithOp} {a b : Expr} {s t : IntType} {k m r : Int} :
      TypedAs a s → TypedAs b t → HasValue a k → HasValue b m →
      op.eval (s.common t) ((s.common t).wrap k) ((s.common t).wrap m) = .ok r →
      HasValue (.binary n (.arith op) a b) r
  | taken {n : Note} {a b c : Expr} {s t : IntType} {k m : Int} :
      TypedAs b s → TypedAs c t → HasValue a k → HasValue (if k ≠ 0 then b else c) m →
      HasValue (.conditional n a b c) ((s.common t).wrap m)

/-- The second expression is evaluated in the course of evaluating the first. -/
inductive Performs : Expr → Expr → Prop where
  | root {e : Expr} : Performs e e
  | cast {n : Note} {t : IntType} {a d : Expr} : Performs a d → Performs (.cast n t a) d
  | unary {n : Note} {op : UnaryOp} {a d : Expr} : Performs a d → Performs (.unary n op a) d
  | left {n : Note} {op : BinaryOp} {a b d : Expr} : Performs a d → Performs (.binary n op a b) d
  | right {n : Note} {op : BinaryOp} {a b d : Expr} :
      (∀ o, op ≠ .logic o) → Performs b d → Performs (.binary n op a b) d
  | undecided {n : Note} {op : LogicOp} {a b d : Expr} {k : Int} :
      HasValue a k → ¬ op.Decides k → Performs b d → Performs (.binary n (.logic op) a b) d
  | condition {n : Note} {a b c d : Expr} : Performs a d → Performs (.conditional n a b c) d
  | taken {n : Note} {a b c d : Expr} {k : Int} :
      HasValue a k → Performs (if k ≠ 0 then b else c) d → Performs (.conditional n a b c) d

/-- A quotient or remainder whose divisor is zero in the type in which the operands meet. -/
inductive DividesByZero : Expr → Division → Prop where
  | intro {n : Note} {op : ArithOp} {a b : Expr} {s t : IntType} {k : Int} {division : Division} :
      op.division? = some division → TypedAs a s → TypedAs b t → HasValue b k →
      (s.common t).wrap k = 0 → DividesByZero (.binary n (.arith op) a b) division

end Expr

/-! ## Folding follows the relations -/

theorem ArithOp.eval_eq_error {t : IntType} {op : ArithOp} {a b : Int} {division : Division} :
    op.eval t a b = .error division ↔ op.division? = some division ∧ b = 0 := by
  cases op <;> simp only [ArithOp.eval, ArithOp.division?, reduceCtorEq, false_and]
  all_goals
    by_cases hb : b = 0
    · simp [hb]
    · simp [hb]

/-- What was folded has the type and the value of the expression, is spared every division by zero
if it has a value, and blames an evaluated one if it has none. -/
structure Folded.Computes (f : Folded) (e : Expr) : Prop where
  typed (t : IntType) : e.TypedAs t ↔ t = f.type
  value (k : Int) : e.HasValue k ↔ f.value = .ok k
  spares {k : Int} {d : Expr} {division : Division} : f.value = .ok k → e.Performs d →
    ¬ d.DividesByZero division
  blames {fault : Fault} : f.value = .error fault → ∃ d division, e.Performs d ∧
    d.DividesByZero division ∧ fault = (Cause.divisionByZero division).at d.span

namespace Folded

variable {n : Note} {a b c : Expr} {f g h : Folded} {op : LogicOp} {s : Span} {k : Int}

/-- A left operand that decides a logical operator gives its value, whatever the right one is: it
may even divide by zero. -/
theorem logic_of_decides (hf : f.value = .ok k) (hk : op.Decides k) :
    (binary s (.logic op) f g).value = .ok op.decided := by
  cases op with
  | and =>
      have hzero : k = 0 := hk
      simp only [binary, hf, LogicOp.decided]
      exact if_pos hzero
  | or =>
      have hne : k ≠ 0 := hk
      simp only [binary, hf, LogicOp.decided]
      exact if_pos hne

/-- A connective that its left operand does not decide has the truth value of the right one. -/
theorem logic_of_not_decides (hf : f.value = .ok k) (hk : ¬ op.Decides k) :
    (binary s (.logic op) f g).value = g.value.map fun m => truth (m ≠ 0) := by
  have hbind : (g.value >>= fun m => pure (truth (m ≠ 0))) =
      g.value.map fun m => truth (m ≠ 0) := by
    cases g.value <;> rfl
  cases op with
  | and =>
      have hne : ¬ k = 0 := hk
      simp only [binary, hf]
      exact (if_neg hne).trans hbind
  | or =>
      have hzero : ¬ k ≠ 0 := hk
      simp only [binary, hf]
      exact (if_neg hzero).trans hbind

theorem logic_of_error {fault : Fault} (hf : f.value = .error fault) :
    (binary s (.logic op) f g).value = .error fault := by
  cases op <;> simp only [binary, hf] <;> rfl

namespace Computes

/-- A constant has its own type and value, and nothing is evaluated in it. -/
theorem constant (n : Note) (c : Constant) :
    Folded.Computes ⟨c.type, .ok c.value⟩ (.constant n c) where
  typed t := by
    constructor
    · rintro ⟨⟩
      rfl
    · rintro rfl
      exact .constant
  value m := by
    constructor
    · rintro ⟨⟩
      rfl
    · rintro ⟨⟩
      exact .constant
  spares _ hd hz := by
    cases hd
    cases hz
  blames hfault := by cases hfault

/-- A cast fails where its operand does, and otherwise converts the value. -/
theorem cast (hf : f.Computes a) (t : IntType) :
    Folded.Computes ⟨t, f.convert t⟩ (.cast n t a) where
  typed s := by
    constructor
    · rintro ⟨⟩
      rfl
    · rintro rfl
      exact .cast ((hf.typed _).2 rfl)
  value k := by
    rw [Folded.convert, map_eq_ok]
    constructor
    · intro hv
      cases hv with
      | cast hm => exact ⟨_, (hf.value _).1 hm, rfl⟩
    · rintro ⟨m, hm, rfl⟩
      exact .cast ((hf.value m).2 hm)
  spares hv hd hz := by
    obtain ⟨m, hm, -⟩ := map_eq_ok.1 hv
    cases hd with
    | root => cases hz
    | cast hd => exact hf.spares hm hd hz
  blames hfault := by
    obtain ⟨d, division, hd, hz⟩ := hf.blames (map_eq_error.1 hfault)
    exact ⟨d, division, .cast hd, hz⟩

/-- An operator with one operand fails where the operand does. -/
theorem unary (hf : f.Computes a) (op : UnaryOp) :
    (Folded.unary op f).Computes (.unary n op a) where
  typed t := by
    constructor
    · intro ht
      cases ht with
      | not ha => rfl
      | unary hop ha => exact ((hf.typed t).1 ha).trans (if_neg hop).symm
    · rintro rfl
      by_cases hop : op = .not
      · subst hop
        exact .not ((hf.typed _).2 rfl)
      · rw [Folded.unary, if_neg hop]
        exact .unary hop ((hf.typed _).2 rfl)
  value k := by
    rw [Folded.unary, map_eq_ok]
    constructor
    · intro hv
      cases hv with
      | unary ha hm =>
        obtain rfl := (hf.typed _).1 ha
        exact ⟨_, (hf.value _).1 hm, rfl⟩
    · rintro ⟨m, hm, rfl⟩
      exact .unary ((hf.typed _).2 rfl) ((hf.value m).2 hm)
  spares hv hd hz := by
    obtain ⟨m, hm, -⟩ := map_eq_ok.1 hv
    cases hd with
    | root => cases hz
    | unary hd => exact hf.spares hm hd hz
  blames hfault := by
    obtain ⟨d, division, hd, hz⟩ := hf.blames (map_eq_error.1 hfault)
    exact ⟨d, division, .unary hd, hz⟩

/-- A connective evaluates its right operand only if the left one does not decide it, so a division
by zero there is spared otherwise. -/
theorem logic (hf : f.Computes a) (hg : g.Computes b) (op : LogicOp) (s : Span) :
    (Folded.binary s (.logic op) f g).Computes (.binary n (.logic op) a b) where
  typed t := by
    have htype : (Folded.binary s (.logic op) f g).type = .int := by cases op <;> rfl
    rw [htype]
    constructor
    · rintro ⟨⟩
      rfl
    · rintro rfl
      exact .logic ((hf.typed _).2 rfl) ((hg.typed _).2 rfl)
  value k := by
    constructor
    · intro hv
      cases hv with
      | decided hm hdec => exact logic_of_decides ((hf.value _).1 hm) hdec
      | undecided hm hdec hr =>
        rw [logic_of_not_decides ((hf.value _).1 hm) hdec, map_eq_ok]
        exact ⟨_, (hg.value _).1 hr, rfl⟩
    · intro hv
      cases hm : f.value with
      | error fault => rw [logic_of_error hm] at hv; cases hv
      | ok m =>
        -- the right operand is looked at only where the left one does not decide
        by_cases hdec : op.Decides m
        · rw [logic_of_decides hm hdec] at hv
          cases hv
          exact .decided ((hf.value m).2 hm) hdec
        · rw [logic_of_not_decides hm hdec, map_eq_ok] at hv
          obtain ⟨r, hr, rfl⟩ := hv
          exact .undecided ((hf.value m).2 hm) hdec ((hg.value r).2 hr)
  spares hv hd hz := by
    cases hm : f.value with
    | error fault => rw [logic_of_error hm] at hv; cases hv
    | ok m =>
      cases hd with
      | root => cases hz
      | left hd => exact hf.spares hm hd hz
      | right hop => exact hop op rfl
      | undecided hk hdec hd =>
        have hkm := (hf.value _).1 hk
        rw [hm] at hkm
        cases hkm
        rw [logic_of_not_decides hm hdec, map_eq_ok] at hv
        obtain ⟨r, hr, -⟩ := hv
        exact hg.spares hr hd hz
  blames hfault := by
    cases hm : f.value with
    | error fault =>
      rw [logic_of_error hm] at hfault
      cases hfault
      obtain ⟨d, division, hd, hz⟩ := hf.blames hm
      exact ⟨d, division, .left hd, hz⟩
    | ok m =>
      by_cases hdec : op.Decides m
      · rw [logic_of_decides hm hdec] at hfault
        cases hfault
      · rw [logic_of_not_decides hm hdec, map_eq_error] at hfault
        obtain ⟨d, division, hd, hz⟩ := hg.blames hfault
        exact ⟨d, division, .undecided ((hf.value m).2 hm) hdec hd, hz⟩

/-- The count is evaluated first, so it takes the blame if both operands fail. -/
theorem shift (hf : f.Computes a) (hg : g.Computes b) (op : ShiftOp) (s : Span) :
    (Folded.binary s (.shift op) f g).Computes (.binary n (.shift op) a b) where
  typed t := by
    constructor
    · intro ht
      cases ht with
      | shift ha _ => exact (hf.typed _).1 ha
    · rintro rfl
      exact .shift ((hf.typed _).2 rfl) ((hg.typed _).2 rfl)
  value k := by
    constructor
    · intro hv
      cases hv with
      | shift ha hm hr =>
        obtain rfl := (hf.typed _).1 ha
        exact bind_eq_ok.2 ⟨_, (hg.value _).1 hr, bind_eq_ok.2 ⟨_, (hf.value _).1 hm, rfl⟩⟩
    · intro hv
      obtain ⟨r, hr, hv⟩ := bind_eq_ok.1 hv
      obtain ⟨m, hm, hv⟩ := bind_eq_ok.1 hv
      cases hv
      exact .shift ((hf.typed _).2 rfl) ((hf.value m).2 hm) ((hg.value r).2 hr)
  spares hv hd hz := by
    obtain ⟨r, hr, hv⟩ := bind_eq_ok.1 hv
    obtain ⟨m, hm, -⟩ := bind_eq_ok.1 hv
    cases hd with
    | root => cases hz
    | left hd => exact hf.spares hm hd hz
    | right _ hd => exact hg.spares hr hd hz
  blames hfault := by
    -- the count is folded first, so its fault comes before one of the other operand
    rcases bind_eq_error_iff.1 hfault with hr | ⟨r, hr, hfault⟩
    · obtain ⟨d, division, hd, hz⟩ := hg.blames hr
      exact ⟨d, division, .right (fun _ h => by cases h) hd, hz⟩
    · rcases bind_eq_error_iff.1 hfault with hm | ⟨m, _, hfault⟩
      · obtain ⟨d, division, hd, hz⟩ := hf.blames hm
        exact ⟨d, division, .left hd, hz⟩
      · cases hfault

/-- The faults of two operands that are evaluated from left to right. -/
theorem blames_operands {op : BinaryOp} {t : IntType} {fault : Fault} (hf : f.Computes a)
    (hg : g.Computes b) (hop : ∀ o, op ≠ .logic o)
    (hfault : f.convert t = .error fault ∨ g.convert t = .error fault) :
    ∃ d division, (Expr.binary n op a b).Performs d ∧ d.DividesByZero division ∧
      fault = (Cause.divisionByZero division).at d.span := by
  rcases hfault with hm | hr
  · obtain ⟨d, division, hd, hz⟩ := hf.blames (map_eq_error.1 hm)
    exact ⟨d, division, .left hd, hz⟩
  · obtain ⟨d, division, hd, hz⟩ := hg.blames (map_eq_error.1 hr)
    exact ⟨d, division, .right hop hd, hz⟩

/-- A comparison evaluates both operands in the type in which they meet. -/
theorem compare (hf : f.Computes a) (hg : g.Computes b) (op : CompareOp) (s : Span) :
    (Folded.binary s (.compare op) f g).Computes (.binary n (.compare op) a b) where
  typed t := by
    constructor
    · rintro ⟨⟩
      rfl
    · rintro rfl
      exact .compare ((hf.typed _).2 rfl) ((hg.typed _).2 rfl)
  value k := by
    constructor
    · intro hv
      cases hv with
      | compare ha hb hm hr =>
        obtain rfl := (hf.typed _).1 ha
        obtain rfl := (hg.typed _).1 hb
        exact bind_eq_ok.2 ⟨_, map_eq_ok.2 ⟨_, (hf.value _).1 hm, rfl⟩,
          bind_eq_ok.2 ⟨_, map_eq_ok.2 ⟨_, (hg.value _).1 hr, rfl⟩, rfl⟩⟩
    · intro hv
      obtain ⟨_, hm', hv⟩ := bind_eq_ok.1 hv
      obtain ⟨_, hr', hv⟩ := bind_eq_ok.1 hv
      obtain ⟨m, hm, rfl⟩ := map_eq_ok.1 hm'
      obtain ⟨r, hr, rfl⟩ := map_eq_ok.1 hr'
      cases hv
      exact .compare ((hf.typed _).2 rfl) ((hg.typed _).2 rfl) ((hf.value m).2 hm)
        ((hg.value r).2 hr)
  spares hv hd hz := by
    obtain ⟨_, hm, hv⟩ := bind_eq_ok.1 hv
    obtain ⟨_, hr, -⟩ := bind_eq_ok.1 hv
    obtain ⟨m, hm, -⟩ := map_eq_ok.1 hm
    obtain ⟨r, hr, -⟩ := map_eq_ok.1 hr
    cases hd with
    | root => cases hz
    | left hd => exact hf.spares hm hd hz
    | right _ hd => exact hg.spares hr hd hz
  blames hfault := by
    refine blames_operands (t := f.type.common g.type) hf hg (fun _ h => by cases h) ?_
    rcases bind_eq_error_iff.1 hfault with hm | ⟨_, _, hfault⟩
    · exact .inl hm
    · rcases bind_eq_error_iff.1 hfault with hr | ⟨_, _, hfault⟩
      · exact .inr hr
      · cases hfault

/-- The value of an arithmetic operator with both operands at hand. -/
theorem arith_eq_ok {op : ArithOp} {r : Int} :
    (Folded.binary s (.arith op) f g).value = .ok r ↔ ∃ k m, f.value = .ok k ∧ g.value = .ok m ∧
      op.eval (f.type.common g.type) ((f.type.common g.type).wrap k)
        ((f.type.common g.type).wrap m) = .ok r := by
  constructor
  · intro hv
    obtain ⟨_, hk', hv⟩ := bind_eq_ok.1 hv
    obtain ⟨_, hm', hv⟩ := bind_eq_ok.1 hv
    obtain ⟨k, hk, rfl⟩ := map_eq_ok.1 hk'
    obtain ⟨m, hm, rfl⟩ := map_eq_ok.1 hm'
    refine ⟨k, m, hk, hm, ?_⟩
    cases hop : op.eval (f.type.common g.type) ((f.type.common g.type).wrap k)
        ((f.type.common g.type).wrap m) with
    | ok r' =>
      rw [hop] at hv
      cases hv
      rfl
    | error division =>
      rw [hop] at hv
      cases hv
  · rintro ⟨k, m, hk, hm, hop⟩
    refine bind_eq_ok.2
      ⟨_, map_eq_ok.2 ⟨k, hk, rfl⟩, bind_eq_ok.2 ⟨_, map_eq_ok.2 ⟨m, hm, rfl⟩, ?_⟩⟩
    rw [hop]
    rfl

/-- An arithmetic operator fails in three ways: in either operand, or because the right one is zero
in the type in which the operands meet. -/
theorem arith (hf : f.Computes a) (hg : g.Computes b) (op : ArithOp) :
    (Folded.binary n.span (.arith op) f g).Computes (.binary n (.arith op) a b) where
  typed t := by
    constructor
    · intro ht
      cases ht with
      | arith ha hb =>
        obtain rfl := (hf.typed _).1 ha
        obtain rfl := (hg.typed _).1 hb
        rfl
    · rintro rfl
      exact .arith ((hf.typed _).2 rfl) ((hg.typed _).2 rfl)
  value r := by
    rw [arith_eq_ok]
    constructor
    · intro hv
      cases hv with
      | arith ha hb hk hm hop =>
        obtain rfl := (hf.typed _).1 ha
        obtain rfl := (hg.typed _).1 hb
        exact ⟨_, _, (hf.value _).1 hk, (hg.value _).1 hm, hop⟩
    · rintro ⟨k, m, hk, hm, hop⟩
      exact .arith ((hf.typed _).2 rfl) ((hg.typed _).2 rfl) ((hf.value k).2 hk)
        ((hg.value m).2 hm) hop
  spares hv hd hz := by
    obtain ⟨k, m, hk, hm, hop⟩ := arith_eq_ok.1 hv
    cases hd with
    | root =>
      cases hz with
      -- a division that is performed has a divisor that folds to zero, and then the operator fails
      | intro hdivision ha hb hm' hzero =>
        obtain rfl := (hf.typed _).1 ha
        obtain rfl := (hg.typed _).1 hb
        have hmm := (hg.value _).1 hm'
        rw [hm] at hmm
        cases hmm
        rw [ArithOp.eval_eq_error.2 ⟨hdivision, hzero⟩] at hop
        cases hop
    | left hd => exact hf.spares hk hd hz
    | right _ hd => exact hg.spares hm hd hz
  blames hfault := by
    have hop : ∀ o, BinaryOp.arith op ≠ .logic o := fun _ h => by cases h
    rcases bind_eq_error_iff.1 hfault with hk | ⟨_, hk', hfault⟩
    · exact blames_operands hf hg hop (.inl hk)
    rcases bind_eq_error_iff.1 hfault with hm | ⟨_, hm', hfault⟩
    · exact blames_operands hf hg hop (.inr hm)
    obtain ⟨k, -, rfl⟩ := map_eq_ok.1 hk'
    obtain ⟨m, hm, rfl⟩ := map_eq_ok.1 hm'
    cases hdivision : op.eval (f.type.common g.type) ((f.type.common g.type).wrap k)
        ((f.type.common g.type).wrap m) with
    | ok r =>
      rw [hdivision] at hfault
      cases hfault
    | error division =>
      rw [hdivision] at hfault
      cases hfault
      obtain ⟨hdiv, hzero⟩ := ArithOp.eval_eq_error.1 hdivision
      exact ⟨_, division, .root, .intro hdiv ((hf.typed _).2 rfl) ((hg.typed _).2 rfl)
        ((hg.value m).2 hm) hzero, rfl⟩

theorem binary (hf : f.Computes a) (hg : g.Computes b) (op : BinaryOp) :
    (Folded.binary n.span op f g).Computes (.binary n op a b) := by
  cases op with
  | arith op => exact hf.arith hg op
  | shift op => exact hf.shift hg op n.span
  | compare op => exact hf.compare hg op n.span
  | logic op => exact hf.logic hg op n.span

/-- A conditional evaluates one arm only, but its type is that in which both arms meet. -/
theorem conditional (hf : f.Computes a) (hg : g.Computes b) (hh : h.Computes c) :
    (Folded.conditional f g h).Computes (.conditional n a b c) := by
  -- the arm that is chosen, before it is converted to the common type of both
  have arm (k : Int) : (if k ≠ 0 then g else h).Computes (if k ≠ 0 then b else c) := by
    split
    · exact hg
    · exact hh
  have hvalue : (Folded.conditional f g h).value = f.value >>= fun k =>
      (if k ≠ 0 then g else h).convert (g.type.common h.type) := by
    simp only [Folded.conditional]
    refine congrArg (f.value >>= ·) (funext fun k => ?_)
    split <;> rfl
  exact {
    typed := fun t => by
      constructor
      · intro ht
        cases ht with
        | conditional _ hb hc =>
          obtain rfl := (hg.typed _).1 hb
          obtain rfl := (hh.typed _).1 hc
          rfl
      · rintro rfl
        exact .conditional ((hf.typed _).2 rfl) ((hg.typed _).2 rfl) ((hh.typed _).2 rfl)
    value := fun r => by
      rw [hvalue, bind_eq_ok]
      constructor
      · intro hv
        cases hv with
        | taken hb hc hk hm =>
          obtain rfl := (hg.typed _).1 hb
          obtain rfl := (hh.typed _).1 hc
          exact ⟨_, (hf.value _).1 hk, map_eq_ok.2 ⟨_, ((arm _).value _).1 hm, rfl⟩⟩
      · rintro ⟨k, hk, hv⟩
        obtain ⟨m, hm, rfl⟩ := map_eq_ok.1 hv
        exact .taken ((hg.typed _).2 rfl) ((hh.typed _).2 rfl) ((hf.value k).2 hk)
          (((arm k).value m).2 hm)
    spares := fun hv hd hz => by
      rw [hvalue] at hv
      obtain ⟨k, hk, hv⟩ := bind_eq_ok.1 hv
      obtain ⟨m, hm, -⟩ := map_eq_ok.1 hv
      cases hd with
      | root => cases hz
      | condition hd => exact hf.spares hk hd hz
      | taken hk' hd =>
        have hkk := (hf.value _).1 hk'
        rw [hk] at hkk
        cases hkk
        exact (arm k).spares hm hd hz
    blames := fun hfault => by
      rw [hvalue] at hfault
      rcases bind_eq_error_iff.1 hfault with hk | ⟨k, hk, hfault⟩
      · obtain ⟨d, division, hd, hz⟩ := hf.blames hk
        exact ⟨d, division, .condition hd, hz⟩
      · obtain ⟨d, division, hd, hz⟩ := (arm k).blames (map_eq_error.1 hfault)
        exact ⟨d, division, .taken ((hf.value k).2 hk) hd, hz⟩ }

end Computes

end Folded

namespace Expr

/-- An expression that folds is computed by what it folds to. -/
theorem computes_of_fold_eq {e : Expr} : ∀ f, e.fold = some f → f.Computes e := by
  induction e using Expr.fold.induct with
  | case1 n c =>
      intro f hf
      rw [fold] at hf
      cases hf
      exact .constant n c
  | case2 | case3 | case4 =>
      intro f hf
      rw [fold] at hf
      cases hf
  | case5 n target a ih =>
      intro f hf
      obtain ⟨g, hg, rfl⟩ := fold_cast_eq_some.1 hf
      exact (ih g hg).cast target
  | case6 n op a ih =>
      intro f hf
      obtain ⟨g, hg, rfl⟩ := fold_unary_eq_some.1 hf
      exact (ih g hg).unary op
  | case7 n op a b iha ihb =>
      intro f hf
      obtain ⟨g, h, hg, hh, rfl⟩ := fold_binary_eq_some.1 hf
      exact (iha g hg).binary (ihb h hh) op
  | case8 n a b c iha ihb ihc =>
      intro f hf
      obtain ⟨g, h, i, hg, hh, hi, rfl⟩ := fold_conditional_eq_some.1 hf
      exact (iha g hg).conditional (ihb h hh) (ihc i hi)

/-- Something in an expression needs a running program if something in its operands or the root
does. -/
theorem exists_isRuntime_node {e : Expr} {l : List Expr} (h : e.postorder = l ++ [e]) :
    (∃ d ∈ e.postorder, d.isRuntime) ↔ (∃ d ∈ l, d.isRuntime) ∨ e.isRuntime := by
  rw [h]
  simp only [List.mem_append, List.mem_singleton, or_and_right, exists_or, exists_eq_left]

/-- Folding gives nothing exactly if something in the expression needs a running program, evaluated
or not. -/
theorem fold_eq_none {e : Expr} : e.fold = none ↔ ∃ d ∈ e.postorder, d.isRuntime := by
  induction e using Expr.fold.induct with
  | case1 n c => simp [fold, postorder, isRuntime]
  | case2 n x => simp [fold, postorder, isRuntime]
  | case3 n x as =>
      rw [exists_isRuntime_node rfl]
      exact iff_of_true (by rw [fold]) (.inr rfl)
  | case4 n a b =>
      rw [exists_isRuntime_node rfl]
      exact iff_of_true (by rw [fold]) (.inr rfl)
  | case5 n target a ih =>
      rw [exists_isRuntime_node rfl, ← ih]
      cases ha : a.fold <;> simp [fold, ha, isRuntime]
  | case6 n op a ih =>
      rw [exists_isRuntime_node rfl, ← ih]
      cases ha : a.fold <;> simp [fold, ha, isRuntime]
  | case7 n op a b iha ihb =>
      rw [exists_isRuntime_node rfl]
      simp only [List.mem_append, or_and_right, exists_or, ← iha, ← ihb]
      cases ha : a.fold <;> cases hb : b.fold <;> simp [fold, ha, hb, isRuntime]
  | case8 n a b c iha ihb ihc =>
      rw [exists_isRuntime_node rfl]
      simp only [List.mem_append, or_and_right, exists_or, ← iha, ← ihb, ← ihc]
      cases ha : a.fold <;> cases hb : b.fold <;> cases hc : c.fold <;>
        simp [fold, ha, hb, hc, isRuntime]

/-- Whatever needs no running program to have a type is folded. -/
theorem TypedAs.exists_fold {e : Expr} {t : IntType} (h : e.TypedAs t) : ∃ f, e.fold = some f := by
  induction h with
  | constant => exact ⟨_, by rw [fold]⟩
  | cast _ ih =>
      obtain ⟨f, hf⟩ := ih
      exact ⟨_, fold_cast_eq_some.2 ⟨f, hf, rfl⟩⟩
  | not _ ih | unary _ _ ih =>
      obtain ⟨f, hf⟩ := ih
      exact ⟨_, fold_unary_eq_some.2 ⟨f, hf, rfl⟩⟩
  | logic _ _ iha ihb | compare _ _ iha ihb | shift _ _ iha ihb | arith _ _ iha ihb =>
      obtain ⟨f, hf⟩ := iha
      obtain ⟨g, hg⟩ := ihb
      exact ⟨_, fold_binary_eq_some.2 ⟨f, g, hf, hg, rfl⟩⟩
  | conditional _ _ _ iha ihb ihc =>
      obtain ⟨f, hf⟩ := iha
      obtain ⟨g, hg⟩ := ihb
      obtain ⟨h, hh⟩ := ihc
      exact ⟨_, fold_conditional_eq_some.2 ⟨f, g, h, hf, hg, hh, rfl⟩⟩

/-! ## Constant evaluation -/

/-- Something in the expression needs a running program, evaluated or not. -/
def NeedsRuntime (e : Expr) : Prop := ∃ d ∈ e.postorder, d.isRuntime

def Traps (e : Expr) : Prop := ∃ d division, e.Performs d ∧ d.DividesByZero division

theorem constant?_of_fold_eq {e : Expr} {f : Folded} (h : e.fold = some f) :
    e.constant? = f.value.map fun k => some ⟨f.type, k⟩ := by
  rw [constant?, h]

/-- Evaluation finds no constant exactly where something needs a running program, otherwise fails
exactly if a part that is evaluated divides by zero, and blames such a part; the constant that it
answers in the remaining cases has the type and the value of the expression. -/
theorem constant?_prescribed (e : Expr) :
    (e.constant? = .ok none ↔ e.NeedsRuntime) ∧
      ((∃ f, e.constant? = .error f) ↔ ¬ e.NeedsRuntime ∧ e.Traps) ∧
      ((∃ c, e.constant? = .ok (some c)) ↔ ¬ e.NeedsRuntime ∧ ¬ e.Traps) ∧
      (∀ f, e.constant? = .error f → ∃ d division, e.Performs d ∧ d.DividesByZero division ∧
        f = (Cause.divisionByZero division).at d.span) ∧
      ∀ c, e.constant? = .ok (some c) ↔ e.TypedAs c.type ∧ e.HasValue c.value := by
  -- not folded, folded to a value, or folded to a fault: each excludes the other two
  cases hfold : e.fold with
  | none =>
      have hneeds : e.NeedsRuntime := fold_eq_none.1 hfold
      have htyped (t : IntType) : ¬ e.TypedAs t := fun ht => by
        obtain ⟨f, hf⟩ := ht.exists_fold
        rw [hfold] at hf
        cases hf
      have hnone : e.constant? = .ok none := by rw [constant?, hfold]
      simp [hnone, hneeds, htyped]
  | some f =>
      have hneeds : ¬ e.NeedsRuntime := fun h => by
        rw [fold_eq_none.2 h] at hfold
        cases hfold
      have hf := computes_of_fold_eq f hfold
      cases hv : f.value with
      | ok k =>
        have hok : e.constant? = .ok (some ⟨f.type, k⟩) := by
          rw [constant?_of_fold_eq hfold, hv]
          rfl
        have htraps : ¬ e.Traps := fun ⟨d, _, hd, hz⟩ => hf.spares hv hd hz
        refine ⟨by simp [hok, hneeds], by simp [hok, htraps], by simp [hok, hneeds, htraps],
          by simp [hok], fun c => ?_⟩
        rw [hok, hf.typed, hf.value, hv]
        obtain ⟨t, m⟩ := c
        simp [eq_comm]
      | error fault =>
        have herror : e.constant? = .error fault := by
          rw [constant?_of_fold_eq hfold, hv]
          rfl
        obtain ⟨d, division, hd, hz, hfault⟩ := hf.blames hv
        have htraps : e.Traps := ⟨d, division, hd, hz⟩
        refine ⟨by simp [herror, hneeds], by simp [herror, hneeds, htraps],
          by simp [herror, htraps], fun f hf => ?_, fun c => ?_⟩
        · rw [herror] at hf
          cases hf
          exact ⟨d, division, hd, hz, hfault⟩
        · rw [herror, hf.value, hv]
          simp

end Expr

end IntegerC
