import IntegerC.Proofs.Ensures
import IntegerC.Proofs.Evaluation

set_option autoImplicit false

/-! # Folding and evaluation agree

A constant expression is evaluated on the tree as it was read, where a value is converted when an
operator asks for it. The checked tree has a cast in each of these places and a type at each node.
Both compute with the same operators, so a checked constant expression evaluates to the value that
was folded, in every store and without changing it.
-/

namespace IntegerC

/-! ## Constants in range -/

def Expr.InRange (e : Expr) : Prop :=
  ∀ a ∈ e.postorder, ∀ n c, a = .constant n c → c.InRange

namespace Expr.InRange

variable {n : Note} {a b c : Expr}

theorem constant {k : Constant} (h : (Expr.constant n k).InRange) : k.InRange :=
  h _ List.mem_cons_self n k rfl

theorem cast {t : IntType} (h : (Expr.cast n t a).InRange) : a.InRange :=
  fun x hx => h x (List.mem_append_left _ hx)

theorem unary {op : UnaryOp} (h : (Expr.unary n op a).InRange) : a.InRange :=
  fun x hx => h x (List.mem_append_left _ hx)

theorem binary {op : BinaryOp} (h : (Expr.binary n op a b).InRange) : a.InRange ∧ b.InRange :=
  ⟨fun x hx => h x (List.mem_append_left _ (List.mem_append_left _ hx)),
    fun x hx => h x (List.mem_append_left _ (List.mem_append_right _ hx))⟩

theorem conditional (h : (Expr.conditional n a b c).InRange) :
    a.InRange ∧ b.InRange ∧ c.InRange :=
  ⟨fun x hx => h x (List.mem_append_left _ (List.mem_append_left _ (List.mem_append_left _ hx))),
    fun x hx => h x (List.mem_append_left _ (List.mem_append_left _ (List.mem_append_right _ hx))),
    fun x hx => h x (List.mem_append_left _ (List.mem_append_right _ hx))⟩

end Expr.InRange

/-! ## Values that agree -/

/-- The expression evaluates to `n`, a value of type `t`, wherever it is evaluated. -/
def Expr.Always (e : Expr) (t : IntType) (n : Int) : Prop :=
  t.Holds n ∧ ∀ (types : VarTypes) (w : World) (s : Store types), e.eval w s = (n, s)

/-- A checked expression does what the folded one says: it has the type in every table, assigns
nothing, and evaluates to the value if there is one. -/
structure Folded.Agrees (f : Folded) (e : Expr) : Prop where
  hasType : ∀ t, e.HasType t f.type
  assigned : e.assigned = []
  sequenced : e.Sequenced
  value : ∀ n, f.value = .ok n → e.Always f.type n

namespace Folded.Agrees

variable {f g h : Folded} {a b c : Expr} {n : Note}

theorem apart (hf : f.Agrees a) (hg : g.Agrees b) : a.Apart b := by
  rw [Expr.Apart, hf.assigned, hg.assigned]
  simp

/-! ### Conversions -/

/-- A cast of agreeing operands agrees, as both convert the value in the same way. -/
theorem cast (hf : f.Agrees a) (target : IntType) :
    Folded.Agrees ⟨target, f.convert target⟩ (.cast (n.typed target) target a) where
  hasType t := ⟨rfl, rfl, f.type, hf.hasType t⟩
  assigned := hf.assigned
  sequenced := hf.sequenced
  value k hk := by
    obtain ⟨m, hm, rfl⟩ := map_eq_ok.1 hk
    refine ⟨target.holds_wrap m, fun types w s => ?_⟩
    rw [Expr.eval, (hf.value m hm).2]

/-- A conversion to the type that the expression has already changes nothing. -/
theorem convert (hf : f.Agrees a) (target : IntType) :
    Folded.Agrees ⟨target, f.convert target⟩ (a.convert target) := by
  unfold Expr.convert
  split
  · rename_i htype
    have e : f.type = target := Option.some.inj (((hf.hasType []).type_eq).symm.trans htype)
    subst e
    refine ⟨hf.hasType, hf.assigned, hf.sequenced, fun k hk => ?_⟩
    obtain ⟨m, hm, rfl⟩ := map_eq_ok.1 hk
    rw [IntType.wrap_of_holds (hf.value m hm).1]
    exact hf.value m hm
  · exact hf.cast (n := ⟨a.span, none⟩) target

/-! ### Operators -/

theorem constant {k : Constant} (hk : k.InRange) :
    Folded.Agrees ⟨k.type, .ok k.value⟩ (.constant (n.typed k.type) k) where
  hasType _ := ⟨rfl, rfl⟩
  assigned := rfl
  sequenced := trivial
  value m hm := by
    cases hm
    refine ⟨hk, fun types w s => ?_⟩
    rw [Expr.eval, Constant.number_of_inRange hk]

/-- Agreement passes a unary operator, whose result type is the operator's own. -/
theorem unary (hf : f.Agrees a) (op : UnaryOp) :
    (Folded.unary op f).Agrees (.unary (n.typed (op.resultType f.type)) op a) where
  hasType t := ⟨rfl, f.type, hf.hasType t, rfl⟩
  assigned := hf.assigned
  sequenced := hf.sequenced
  value k hk := by
    obtain ⟨m, hm, rfl⟩ := map_eq_ok.1 hk
    refine ⟨op.holds_eval f.type m, fun types w s => ?_⟩
    rw [Expr.eval, (hf.value m hm).2]
    exact congrArg (·, s) (op.eval_resultType f.type m)

/-- An operator whose operands are both evaluated, after conversions that have been made. -/
theorem operands {op : BinaryOp} {t : IntType} {value : Except Fault Int}
    (hf : f.Agrees a) (hg : g.Agrees b) (hmeets : op.Meets f.type g.type t)
    (hvalue : ∀ k, value = .ok k →
      (Expr.binary (n.typed t) op a b).Always t k) :
    Folded.Agrees ⟨t, value⟩ (.binary (n.typed t) op a b) where
  hasType t' := ⟨rfl, f.type, g.type, hf.hasType t', hg.hasType t', hmeets⟩
  assigned := by rw [Expr.assigned, hf.assigned, hg.assigned, List.append_nil]
  sequenced := ⟨hf.sequenced, hg.sequenced, fun _ => hf.apart hg⟩
  value := hvalue

/-- A connective that is folded evaluates as its code would: its right operand counts only if the
left one leaves it open. -/
theorem logic (hf : f.Agrees a) (hg : g.Agrees b) (op : LogicOp) (s : Span) :
    (Folded.binary s (.logic op) f g).Agrees (.binary (n.typed .int) (.logic op) a b) := by
  cases op with
  | and =>
      refine operands hf hg rfl fun k hk => ?_
      obtain ⟨m, hm, hk⟩ := bind_eq_ok.1 hk
      have ha := (hf.value m hm).2
      by_cases hzero : m = 0
      · -- the left operand decides, whatever the right one is
        rw [if_pos hzero] at hk
        cases hk
        refine ⟨by decide, fun types w s => ?_⟩
        simp [Expr.eval, ha, hzero]
      · rw [if_neg hzero] at hk
        obtain ⟨m', hm', hk⟩ := bind_eq_ok.1 hk
        cases hk
        have hb := (hg.value m' hm').2
        refine ⟨IntType.holds_int_truth _, fun types w s => ?_⟩
        simp [Expr.eval, ha, hb, hzero]
  | or =>
      refine operands hf hg rfl fun k hk => ?_
      obtain ⟨m, hm, hk⟩ := bind_eq_ok.1 hk
      have ha := (hf.value m hm).2
      by_cases hzero : m = 0
      · rw [if_neg (Decidable.not_not.2 hzero)] at hk
        obtain ⟨m', hm', hk⟩ := bind_eq_ok.1 hk
        cases hk
        have hb := (hg.value m' hm').2
        refine ⟨IntType.holds_int_truth _, fun types w s => ?_⟩
        simp [Expr.eval, ha, hb, hzero]
      · rw [if_pos hzero] at hk
        cases hk
        refine ⟨by decide, fun types w s => ?_⟩
        simp [Expr.eval, ha, hzero]

/-- A shift has the type of its left operand alone; the count keeps its own. -/
theorem shift (hf : f.Agrees a) (hg : g.Agrees b) (op : ShiftOp) (s : Span) :
    (Folded.binary s (.shift op) f g).Agrees (.binary (n.typed f.type) (.shift op) a b) := by
  refine operands hf hg rfl fun k hk => ?_
  obtain ⟨count, hcount, hk⟩ := bind_eq_ok.1 hk
  obtain ⟨m, hm, hk⟩ := bind_eq_ok.1 hk
  cases hk
  refine ⟨op.holds_eval f.type m count, fun types w s => ?_⟩
  simp only [Expr.eval, (hf.value m hm).2, (hg.value count hcount).2]
  rfl

/-- Both operands are converted to the type in which they meet before they are compared. -/
theorem compare (hf : f.Agrees a) (hg : g.Agrees b) (op : CompareOp) (s : Span) :
    (Folded.binary s (.compare op) f g).Agrees
      (.binary (n.typed .int) (.compare op) (a.convert (f.type.common g.type))
        (b.convert (f.type.common g.type))) := by
  have hf' := hf.convert (f.type.common g.type)
  have hg' := hg.convert (f.type.common g.type)
  refine operands hf' hg' ⟨rfl, rfl⟩ fun k hk => ?_
  obtain ⟨m, hm, hk⟩ := bind_eq_ok.1 hk
  obtain ⟨m', hm', hk⟩ := bind_eq_ok.1 hk
  cases hk
  refine ⟨IntType.holds_int_truth _, fun types w s => ?_⟩
  simp only [Expr.eval, (hf'.value m hm).2, (hg'.value m' hm').2]

/-- A division that can be carried out has the same value in every world. -/
theorem arith (hf : f.Agrees a) (hg : g.Agrees b) (op : ArithOp) (s : Span) :
    (Folded.binary s (.arith op) f g).Agrees
      (.binary (n.typed (f.type.common g.type)) (.arith op) (a.convert (f.type.common g.type))
        (b.convert (f.type.common g.type))) := by
  have hf' := hf.convert (f.type.common g.type)
  have hg' := hg.convert (f.type.common g.type)
  refine operands hf' hg' ⟨rfl, rfl⟩ fun k hk => ?_
  obtain ⟨m, hm, hk⟩ := bind_eq_ok.1 hk
  obtain ⟨m', hm', hk⟩ := bind_eq_ok.1 hk
  have hvalue : ∀ w : World, op.value w (f.type.common g.type) m m' = k := by
    intro w
    cases hop : op.eval (f.type.common g.type) m m' with
    | ok value =>
      rw [hop] at hk
      cases hk
      rw [ArithOp.value, hop]
    | error division =>
      rw [hop] at hk
      cases hk
  refine ⟨?_, fun types w s => ?_⟩
  · rw [← hvalue ⟨fun _ _ => 0, fun _ _ => 0⟩]
    exact op.holds_value _ _ _ _
  · simp only [Expr.eval, (hf'.value m hm).2, (hg'.value m' hm').2]
    exact congrArg (·, s) (hvalue w)

theorem binary (hf : f.Agrees a) (hg : g.Agrees b) (op : BinaryOp) :
    (Folded.binary n.span op f g).Agrees (op.typed n a b f.type g.type) := by
  cases op with
  | logic op => exact hf.logic hg op n.span
  | shift op => exact hf.shift hg op n.span
  | compare op => exact hf.compare hg op n.span
  | arith op => exact hf.arith hg op n.span

/-- The arm that is not taken need not have a value. -/
theorem conditional (hf : f.Agrees a) (hg : g.Agrees b) (hh : h.Agrees c) :
    (Folded.conditional f g h).Agrees
      (.conditional (n.typed (g.type.common h.type)) a (b.convert (g.type.common h.type))
        (c.convert (g.type.common h.type))) := by
  have hg' := hg.convert (g.type.common h.type)
  have hh' := hh.convert (g.type.common h.type)
  refine ⟨fun t => ⟨rfl, ⟨f.type, hf.hasType t⟩, hg'.hasType t, hh'.hasType t⟩, ?_,
    ⟨hf.sequenced, hg'.sequenced, hh'.sequenced⟩, fun k hk => ?_⟩
  · rw [Expr.assigned, hf.assigned, hg'.assigned, hh'.assigned]
    rfl
  · obtain ⟨m, hm, hk⟩ := bind_eq_ok.1 hk
    have ha := (hf.value m hm).2
    by_cases hzero : m = 0
    · rw [if_neg (Decidable.not_not.2 hzero)] at hk
      refine ⟨(hh'.value k hk).1, fun types w s => ?_⟩
      simp [Expr.eval, ha, hzero, (hh'.value k hk).2]
    · rw [if_pos hzero] at hk
      refine ⟨(hg'.value k hk).1, fun types w s => ?_⟩
      simp [Expr.eval, ha, hzero, (hg'.value k hk).2]

end Folded.Agrees

/-! ## Constant expressions -/

/-- An expression that folds is checked against any table, and the checked expression agrees with
what was folded. -/
theorem Expr.check_of_fold_eq (symbols : SymbolTable) {e : Expr} :
    ∀ f, e.InRange → e.fold = some f → ∃ e', e.check symbols = .ok e' ∧ f.Agrees e' := by
  induction e using Expr.fold.induct with
  | case1 n c =>
      intro f hr hf
      rw [fold] at hf
      cases hf
      exact ⟨_, by rw [check], .constant hr.constant⟩
  | case2 | case3 | case4 =>
      intro f _ hf
      rw [fold] at hf
      cases hf
  | case5 n target a ih =>
      intro f hr hf
      obtain ⟨g, hg, rfl⟩ := fold_cast_eq_some.1 hf
      obtain ⟨a', ha, hagrees⟩ := ih g hr.cast hg
      refine ⟨_, ?_, hagrees.cast (n := n) target⟩
      -- the type that is looked up is that of the folded value
      rw [check, ha]
      show (a'.typeOf >>= fun _ => _) = _
      rw [(hagrees.hasType symbols).typeOf_eq]
      rfl
  | case6 n op a ih =>
      intro f hr hf
      obtain ⟨g, hg, rfl⟩ := fold_unary_eq_some.1 hf
      obtain ⟨a', ha, hagrees⟩ := ih g hr.unary hg
      refine ⟨_, ?_, hagrees.unary (n := n) op⟩
      rw [check, ha]
      show (a'.typeOf >>= fun _ => _) = _
      rw [(hagrees.hasType symbols).typeOf_eq]
      rfl
  | case7 n op a b iha ihb =>
      intro f hr hf
      obtain ⟨g, g', hg, hg', rfl⟩ := fold_binary_eq_some.1 hf
      obtain ⟨a', ha, hagrees⟩ := iha g hr.binary.1 hg
      obtain ⟨b', hb, hagrees'⟩ := ihb g' hr.binary.2 hg'
      refine ⟨_, ?_, hagrees.binary (n := n) hagrees' op⟩
      rw [check, ha, hb]
      show (a'.typeOf >>= fun _ => _) = _
      rw [(hagrees.hasType symbols).typeOf_eq]
      show (b'.typeOf >>= fun _ => _) = _
      rw [(hagrees'.hasType symbols).typeOf_eq]
      rfl
  | case8 n a b c iha ihb ihc =>
      intro f hr hf
      obtain ⟨g, g', g'', hg, hg', hg'', rfl⟩ := fold_conditional_eq_some.1 hf
      obtain ⟨hra, hrb, hrc⟩ := hr.conditional
      obtain ⟨a', ha, hagrees⟩ := iha g hra hg
      obtain ⟨b', hb, hagrees'⟩ := ihb g' hrb hg'
      obtain ⟨c', hc, hagrees''⟩ := ihc g'' hrc hg''
      refine ⟨_, ?_, hagrees.conditional (n := n) hagrees' hagrees''⟩
      rw [check, ha, hb, hc]
      show (a'.typeOf >>= fun _ => _) = _
      rw [(hagrees.hasType symbols).typeOf_eq]
      show (b'.typeOf >>= fun _ => _) = _
      rw [(hagrees'.hasType symbols).typeOf_eq]
      show (c'.typeOf >>= fun _ => _) = _
      rw [(hagrees''.hasType symbols).typeOf_eq]
      rfl

end IntegerC
