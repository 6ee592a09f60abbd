import IntegerC.Proofs.Tree
import IntegerC.Proofs.Lexing
import IntegerC.Proofs.Ensures
import IntegerC.Scope
import IntegerC.Syntax.Parser
import IntegerC.Typing

set_option autoImplicit false

/-! # Checking twice

A checked program is left alone when it is checked again: its types are found anew, each conversion
meets the cast that is there already, and the value of a static object is that of its initializer.
Since the declarations record the same entries in the same order, the table is the same as well.
-/

namespace IntegerC

/-! ## Expressions -/

namespace Expr

/-- An expression of type `τ` that checking leaves alone. -/
structure Settled (t : SymbolTable) (τ : IntType) (e : Expr) : Prop where
  check_eq : e.check t = .ok e
  type_eq : e.type = some τ

theorem convert_of_type {e : Expr} {τ : IntType} (h : e.type = some τ) : e.convert τ = e := if_pos h

@[simp] theorem convert_convert (e : Expr) (τ : IntType) :
    (e.convert τ).convert τ = e.convert τ :=
  convert_of_type (e.type_convert τ)

namespace Settled

variable {t : SymbolTable} {τ σ ρ : IntType} {a b c : Expr}

theorem typeOf_eq (h : a.Settled t τ) : a.typeOf = .ok τ := by
  rw [typeOf, h.type_eq]

theorem typeOf_ensures {bad : Fault → Prop} (h : a.Settled t τ) :
    Ensures a.typeOf bad (· = τ) := by
  rw [h.typeOf_eq]
  exact .pure rfl

theorem constant (n : Note) (c : Constant) : (constant (n.typed c.type) c).Settled t c.type where
  check_eq := rfl
  type_eq := rfl

theorem var (n : Note) {x : String} {s : Attributes} (hx : t.find? x = some ⟨.integer τ, s⟩) :
    (var (n.typed τ) x).Settled t τ where
  check_eq := by
    rw [check, hx]
    rfl
  type_eq := rfl

/-- A cast is settled over a settled operand, to any type. -/
theorem cast (n : Note) (ha : a.Settled t σ) (τ : IntType) :
    (cast (n.typed τ) τ a).Settled t τ where
  check_eq := by
    rw [check, ha.check_eq]
    show a.typeOf >>= _ = _
    rw [ha.typeOf_eq]
    rfl
  type_eq := rfl

theorem convert (ha : a.Settled t σ) (τ : IntType) : (a.convert τ).Settled t τ := by
  unfold Expr.convert
  split
  · rename_i hτ
    exact ⟨ha.check_eq, hτ⟩
  · exact cast ⟨a.span, some τ⟩ ha τ

/-- A unary operator is settled over a settled operand, with the type `int` for `!`. -/
theorem unary (n : Note) (op : UnaryOp) (ha : a.Settled t τ) :
    (unary (n.typed (if op = .not then .int else τ)) op a).Settled t
      (if op = .not then .int else τ) where
  check_eq := by
    rw [check, ha.check_eq]
    show a.typeOf >>= _ = _
    rw [ha.typeOf_eq]
    rfl
  type_eq := rfl

/-- The operands of an operator keep the types in which they met. -/
theorem binary (n : Note) (op : BinaryOp) (ha : a.Settled t σ) (hb : b.Settled t ρ) :
    ∃ τ, (op.typed n a b σ ρ).Settled t τ := by
  have hnode : ∀ {a b : Expr} {σ ρ τ : IntType} {n' : Note}, a.Settled t σ → b.Settled t ρ →
      op.typed n' a b σ ρ = .binary n' op a b → n'.type = some τ →
      (Expr.binary n' op a b).Settled t τ := by
    intro a b σ ρ τ n' ha hb htyped hτ
    refine ⟨?_, hτ⟩
    rw [check, ha.check_eq]
    show b.check t >>= _ = _
    rw [hb.check_eq]
    show (a.typeOf >>= fun σ => b.typeOf >>= fun ρ => Except.ok (op.typed n' a b σ ρ)) = _
    rw [ha.typeOf_eq, hb.typeOf_eq, ← htyped]
    rfl
  have ha' := ha.convert (σ.common ρ)
  have hb' := hb.convert (σ.common ρ)
  cases op with
  | arith op =>
      exact ⟨σ.common ρ, hnode ha' hb' (by simp [BinaryOp.typed, Note.typed]) rfl⟩
  | compare op => exact ⟨.int, hnode ha' hb' (by simp [BinaryOp.typed, Note.typed]) rfl⟩
  | shift op => exact ⟨σ, hnode ha hb rfl rfl⟩
  | logic op => exact ⟨.int, hnode ha hb rfl rfl⟩

/-- The target of an assignment has its type already, and the source was converted to it. -/
theorem assignment (n : Note) (ha : a.Settled t τ) (hb : b.Settled t σ) :
    (assignment (n.typed τ) a (b.convert τ)).Settled t τ where
  check_eq := by
    rw [check, ha.check_eq]
    show (b.convert τ).check t >>= _ = _
    rw [(hb.convert τ).check_eq]
    show a.typeOf >>= _ = _
    rw [ha.typeOf_eq]
    show Except.ok _ = _
    rw [Expr.convert_convert]
    rfl
  type_eq := rfl

/-- Both branches were converted to their common type, whose common type with itself it is again. -/
theorem conditional (n : Note) (ha : a.Settled t τ) (hb : b.Settled t σ) (hc : c.Settled t ρ) :
    (conditional (n.typed (σ.common ρ)) a (b.convert (σ.common ρ))
      (c.convert (σ.common ρ))).Settled t (σ.common ρ) where
  check_eq := by
    have hb' := hb.convert (σ.common ρ)
    have hc' := hc.convert (σ.common ρ)
    rw [check, ha.check_eq]
    show (b.convert _).check t >>= _ = _
    rw [hb'.check_eq]
    show (c.convert _).check t >>= _ = _
    rw [hc'.check_eq]
    show a.typeOf >>= _ = _
    rw [ha.typeOf_eq]
    show (b.convert _).typeOf >>= _ = _
    rw [hb'.typeOf_eq]
    show (c.convert _).typeOf >>= _ = _
    rw [hc'.typeOf_eq]
    show Except.ok _ = _
    rw [IntType.common_self, convert_convert, convert_convert]
    rfl
  type_eq := rfl

end Settled

def AllSettled (t : SymbolTable) (es : List Expr) : Prop := ∀ e ∈ es, ∃ τ, e.Settled t τ

namespace AllSettled

variable {t : SymbolTable} {es : List Expr} {params : List IntType}

/-- Checking settled operands gives them back. -/
theorem checkAll_eq (h : AllSettled t es) : checkAll t es = .ok es := by
  induction es with
  | nil => rfl
  | cons e es ih =>
      obtain ⟨⟨τ, he⟩, hes⟩ := List.forall_mem_cons.1 h
      rw [checkAll, he.check_eq]
      show checkAll t es >>= _ = _
      rw [ih hes]
      rfl

/-- Arguments stay settled when they are converted to the types of the parameters. -/
theorem zipWith_convert (h : AllSettled t es) :
    AllSettled t (List.zipWith Expr.convert es params) := by
  induction es generalizing params with
  | nil => exact nofun
  | cons e es ih =>
      obtain ⟨⟨σ, he⟩, hes⟩ := List.forall_mem_cons.1 h
      cases params with
      | nil => exact nofun
      | cons τ params => exact List.forall_mem_cons.2 ⟨⟨τ, he.convert τ⟩, ih hes⟩

end AllSettled

/-- A conversion to the parameter types is done once: the second finds the types equal. -/
theorem zipWith_convert_zipWith (es : List Expr) (params : List IntType) :
    List.zipWith convert (List.zipWith convert es params) params =
      List.zipWith convert es params := by
  induction es generalizing params with
  | nil => rfl
  | cons e es ih =>
      cases params with
      | nil => rfl
      | cons τ params =>
          rw [List.zipWith_cons_cons, List.zipWith_cons_cons, convert_convert, ih]

/-- The arguments of a call were converted to the types of the parameters, so no cast is added
again. -/
theorem Settled.call {t : SymbolTable} (n : Note) {f : String} {es : List Expr}
    {params : List IntType} {result : IntType} {s : Attributes}
    (hf : t.find? f = some ⟨.function params result, s⟩) (hes : AllSettled t es)
    (hlength : params.length = es.length) :
    (call (n.typed result) f (List.zipWith Expr.convert es params)).Settled t result where
  check_eq := by
    have hargs : params.length = (List.zipWith Expr.convert es params).length := by
      rw [List.length_zipWith, hlength, Nat.min_self]
    rw [check, hes.zipWith_convert.checkAll_eq]
    refine bind_eq_ok.2 ⟨_, rfl, ?_⟩
    simp only [hf]
    rw [if_neg (not_not_intro hargs), zipWith_convert_zipWith]
    rfl
  type_eq := rfl

mutual
/-- What checking an expression answers, it leaves alone. -/
theorem check_settles (t : SymbolTable) :
    (e : Expr) → Answers (e.check t) (fun e' => ∃ τ, e'.Settled t τ)
  | .constant n c => by
      rw [check]
      exact .pure ⟨c.type, .constant n c⟩
  | .var n x => by
      rw [check]
      split
      · exact .error trivial
      · exact .error trivial
      · rename_i τ s hx
        exact .pure ⟨τ, .var n hx⟩
  | .cast n target a => by
      rw [check]
      refine (check_settles t a).bind fun a' ⟨σ, ha⟩ => ?_
      exact ha.typeOf_ensures.bind fun _ _ => .pure ⟨target, .cast n ha target⟩
  | .unary n op a => by
      rw [check]
      refine (check_settles t a).bind fun a' ⟨τ, ha⟩ => ?_
      refine ha.typeOf_ensures.bind fun _ hτ => .pure ?_
      subst hτ
      exact ⟨_, .unary n op ha⟩
  | .binary n op a b => by
      rw [check]
      refine (check_settles t a).bind fun a' ⟨σ, ha⟩ => ?_
      refine (check_settles t b).bind fun b' ⟨ρ, hb⟩ => ?_
      refine ha.typeOf_ensures.bind fun _ hσ => ?_
      refine hb.typeOf_ensures.bind fun _ hρ => .pure ?_
      subst hσ hρ
      exact Settled.binary n op ha hb
  | .assignment n a b => by
      rw [check]
      refine (check_settles t a).bind fun a' ⟨τ, ha⟩ => ?_
      refine (check_settles t b).bind fun b' ⟨σ, hb⟩ => ?_
      refine ha.typeOf_ensures.bind fun _ hτ => .pure ?_
      subst hτ
      exact ⟨_, .assignment n ha hb⟩
  | .conditional n a b c => by
      rw [check]
      refine (check_settles t a).bind fun a' ⟨τ, ha⟩ => ?_
      refine (check_settles t b).bind fun b' ⟨σ, hb⟩ => ?_
      refine (check_settles t c).bind fun c' ⟨ρ, hc⟩ => ?_
      refine ha.typeOf_ensures.bind fun _ _ => ?_
      refine hb.typeOf_ensures.bind fun _ hσ => ?_
      refine hc.typeOf_ensures.bind fun _ hρ => .pure ?_
      subst hσ hρ
      exact ⟨_, .conditional n ha hb hc⟩
  | .call n f es => by
      rw [check]
      refine (checkAll_settles t es).bind fun es' hes => ?_
      split
      · exact .error trivial
      · exact .error trivial
      · rename_i params result s hf
        split
        · exact .error trivial
        · rename_i hlength
          exact .pure ⟨result, .call n hf hes (Decidable.not_not.1 hlength)⟩
termination_by structural e => e

/-- What checking gives for a list of operands is settled. -/
theorem checkAll_settles (t : SymbolTable) :
    (es : List Expr) → Answers (checkAll t es) (AllSettled t)
  | [] => by
      rw [checkAll]
      exact .pure nofun
  | e :: es => by
      rw [checkAll]
      refine (check_settles t e).bind fun e' he => ?_
      refine (checkAll_settles t es).bind fun es' hes => .pure ?_
      exact List.forall_mem_cons.2 ⟨he, hes⟩
termination_by structural es => es
end

end Expr

/-! ## Static objects -/

namespace VarDecl

variable {d : VarDecl} {value : Option Constant}

/-- The value that took the place of an initializer is its value. -/
theorem staticValue?_withValue (h : d.staticValue? = .ok value) :
    (d.withValue value).staticValue? = .ok value ∧
      (d.withValue value).withValue value = d.withValue value := by
  obtain ⟨s, x, τ, storage, init⟩ := d
  cases init with
  | none =>
      cases h
      exact ⟨rfl, rfl⟩
  | some e =>
      obtain ⟨c, hc, rfl⟩ := map_eq_ok.1 h
      obtain ⟨o, -, hc⟩ := bind_eq_ok.1 hc
      cases o with
      | none => cases hc
      | some c₀ =>
          cases hc
          refine ⟨?_, rfl⟩
          show Except.ok (some ((c₀.convert τ).convert τ)) = _
          rw [Constant.convert_convert]

end VarDecl

/-! ## Statements and declarations -/

namespace Checker

/-- Where `x` succeeds it answers something that it leaves alone when it starts from the same
table, and that it records the same entries for. -/
def Settles {α : Type} (x : α → Checker α) (a : α) : Prop :=
  ∀ t, Answers ((x a).run t) fun o => (x o.1).run t = .ok o

variable {α : Type}

/-- A step that answers what it is given answers it again. -/
theorem settles_of_same {x : α → Checker α} {a : α} (h : ∀ t, Answers ((x a).run t) (·.1 = a)) :
    Settles x a :=
  fun t => ((h t).and (.self _)).imp fun o ⟨ho, hrun⟩ => by rw [ho, hrun]

theorem expr_settles (e : Expr) : Settles expr e := by
  intro t
  refine .run_lift_last ((e.check_settles t).imp fun e' ⟨τ, he⟩ => ?_)
  show (liftM (e'.check t) : Checker Expr).run t = _
  rw [he.check_eq]
  rfl

/-- An initializer or a returned value is settled first and converted then, and a cast to the type
that an expression has is none. -/
theorem exprAs_settles (τ : IntType) (e : Expr) : Settles (exprAs τ) e := by
  intro t
  have hexpr : Answers ((expr e).run t) fun o => o.2 = t ∧ ∃ σ, o.1.Settled t σ :=
    .run_lift_last ((e.check_settles t).imp fun _ he => ⟨rfl, he⟩)
  refine .run_bind hexpr fun e' u ⟨hu, σ, he⟩ => .run_pure ?_
  subst hu
  refine run_bind_of_eq (a := e'.convert τ) (t := u) ?_ ?_
  · show (liftM ((e'.convert τ).check u) : Checker Expr).run u = _
    rw [(he.convert τ).check_eq]
    rfl
  · rw [Expr.convert_convert]
    rfl

theorem optionalExpr_settles (o : Option Expr) : Settles optionalExpr o := by
  intro t
  cases o with
  | none => exact .run_pure rfl
  | some e =>
      refine .run_map ((expr_settles e t).imp fun r hr => ?_)
      show (some <$> expr r.1).run t = _
      rw [StateT.run_map, hr]
      rfl

/-- The entry of a variable is not made from its initializer but from the value of that. -/
theorem fileVar_settles (d : VarDecl) : Settles fileVar d := by
  intro t
  refine .run_lift (.self _) fun value hvalue => .run_get ?_
  refine .run_lift (.self _) fun entry hentry => .run_modify (.run_pure ?_)
  obtain ⟨hvalue', hwith⟩ := VarDecl.staticValue?_withValue hvalue
  refine run_lift_of_eq hvalue' ?_
  refine run_bind_of_eq (a := t) (t := t) rfl (run_lift_of_eq (a := entry) hentry ?_)
  show Except.ok ((d.withValue value).withValue value, _) = _
  rw [hwith]
  rfl

/-- A static variable keeps the constant that stands for its initializer, and an automatic one an
initializer of its type. -/
theorem localVar_settles (d : VarDecl) : Settles localVar d := by
  intro t
  obtain ⟨s, x, τ, storage, init⟩ := d
  match storage, init with
  | some .external, some init => exact .run_throw trivial
  | some .external, none =>
      refine settles_of_same (fun t => ?_) t
      refine .run_get ?_
      cases t.find? x with
      | none => exact .run_modify (.run_pure rfl)
      | some old =>
          refine .run_ite (fun _ => .run_pure rfl) fun _ => .run_throw trivial
  | some .static, init =>
      refine .run_lift (.self _) fun value hvalue => .run_modify (.run_pure ?_)
      obtain ⟨hvalue', hwith⟩ := VarDecl.staticValue?_withValue hvalue
      refine run_lift_of_eq hvalue' ?_
      show Except.ok (VarDecl.withValue (VarDecl.withValue _ value) value, _) = _
      rw [hwith]
      rfl
  | none, none => exact .run_pure rfl
  | none, some init =>
      refine .run_modify (.run_bind (exprAs_settles τ init _) fun init' u hinit => .run_pure ?_)
      exact run_bind_of_eq rfl (run_bind_of_eq hinit rfl)

theorem forInit_settles (i : ForInit) : Settles forInit i := by
  intro t
  cases i with
  | nothing => exact .run_pure rfl
  | decl d =>
      refine .run_bind (localVar_settles d t) fun d' u hd => .run_pure ?_
      exact run_bind_of_eq hd rfl
  | expr e =>
      refine .run_bind (expr_settles e t) fun e' u he => .run_pure ?_
      exact run_bind_of_eq he rfl

mutual
/-- By induction on the statement: each part was checked from the table that the answered part is
checked from again. -/
theorem stmt_settles (result : IntType) : (s : Stmt) → Settles (stmt result) s
  | .ret s e => fun t => by
      refine .run_bind (exprAs_settles result e t) fun e' u he => .run_pure ?_
      exact run_bind_of_eq he rfl
  | .expr s e => fun t => by
      refine .run_bind (expr_settles e t) fun e' u he => .run_pure ?_
      exact run_bind_of_eq he rfl
  | .ifThen s c yes => fun t => by
      refine .run_bind (expr_settles c t) fun c' u hc => ?_
      refine .run_bind (stmt_settles result yes u) fun yes' v hyes => .run_pure ?_
      exact run_bind_of_eq hc (run_bind_of_eq hyes rfl)
  | .ifElse s c yes no => fun t => by
      refine .run_bind (expr_settles c t) fun c' u hc => ?_
      refine .run_bind (stmt_settles result yes u) fun yes' v hyes => ?_
      refine .run_bind (stmt_settles result no v) fun no' w hno => .run_pure ?_
      exact run_bind_of_eq hc (run_bind_of_eq hyes (run_bind_of_eq hno rfl))
  | .block s is => fun t => by
      refine .run_bind (items_settles result is t) fun is' u his => .run_pure ?_
      exact run_bind_of_eq his rfl
  | .whileLoop s label c body => fun t => by
      refine .run_bind (expr_settles c t) fun c' u hc => ?_
      refine .run_bind (stmt_settles result body u) fun body' v hbody => .run_pure ?_
      exact run_bind_of_eq hc (run_bind_of_eq hbody rfl)
  | .doLoop s label body c => fun t => by
      refine .run_bind (stmt_settles result body t) fun body' u hbody => ?_
      refine .run_bind (expr_settles c u) fun c' v hc => .run_pure ?_
      exact run_bind_of_eq hbody (run_bind_of_eq hc rfl)
  | .forLoop s label init c post body => fun t => by
      refine .run_bind (forInit_settles init t) fun init' u hinit => ?_
      refine .run_bind (optionalExpr_settles c u) fun c' v hc => ?_
      refine .run_bind (optionalExpr_settles post v) fun post' w hpost => ?_
      refine .run_bind (stmt_settles result body w) fun body' r hbody => .run_pure ?_
      exact run_bind_of_eq hinit (run_bind_of_eq hc (run_bind_of_eq hpost
        (run_bind_of_eq hbody rfl)))
  | .breakLoop s label => fun _ => .run_pure rfl
  | .continueLoop s label => fun _ => .run_pure rfl
  | .null s => fun _ => .run_pure rfl
termination_by structural s => s

theorem item_settles (result : IntType) : (i : Item) → Settles (item result) i
  | .stmt s => fun t => by
      refine .run_bind (stmt_settles result s t) fun s' u hs => .run_pure ?_
      exact run_bind_of_eq hs rfl
  | .decl (.var d) => fun t => by
      refine .run_bind (localVar_settles d t) fun d' u hd => .run_pure ?_
      exact run_bind_of_eq hd rfl
  | .decl (.prototype h) => fun t => by
      refine .run_bind (.self _) fun a u hh => .run_pure ?_
      exact run_bind_of_eq hh rfl
  | .decl (.function h s body) => fun t => by
      refine .run_bind (.self _) fun a u hh => ?_
      refine .run_bind (.self _) fun b v hps => ?_
      refine .run_bind (items_settles h.result body v) fun body' w hbody => .run_pure ?_
      exact run_bind_of_eq hh (run_bind_of_eq hps (run_bind_of_eq hbody rfl))
termination_by structural i => i

theorem items_settles (result : IntType) : (is : List Item) → Settles (items result) is
  | [] => fun _ => .run_pure rfl
  | i :: is => fun t => by
      refine .run_bind (item_settles result i t) fun i' u hi => ?_
      refine .run_bind (items_settles result is u) fun is' v his => .run_pure ?_
      exact run_bind_of_eq hi (run_bind_of_eq his rfl)
termination_by structural is => is
end

theorem decl_settles (d : Decl) : Settles decl d := by
  intro t
  cases d with
  | var d =>
      refine .run_bind (fileVar_settles d t) fun d' u hd => .run_pure ?_
      exact run_bind_of_eq hd rfl
  | prototype h =>
      refine .run_bind (.self _) fun a u hh => .run_pure ?_
      exact run_bind_of_eq hh rfl
  | function h s body =>
      refine .run_bind (.self _) fun a u hh => ?_
      refine .run_bind (.self _) fun b v hps => ?_
      refine .run_bind (items_settles h.result body v) fun body' w hbody => .run_pure ?_
      exact run_bind_of_eq hh (run_bind_of_eq hps (run_bind_of_eq hbody rfl))

/-- Checking a whole program gives declarations that checking leaves as they are. -/
theorem decls_settles (ds : List Decl) : Settles decls ds := by
  induction ds with
  | nil => exact fun _ => .run_pure rfl
  | cons d ds ih =>
      intro t
      refine .run_bind (decl_settles d t) fun d' u hd => ?_
      refine .run_bind (ih u) fun ds' v hds => .run_pure ?_
      exact run_bind_of_eq hd (run_bind_of_eq hds rfl)

end Checker

/-- A checked program is left alone when it is checked again against the names known before it, and
gives the same table. -/
theorem Program.check_of_checked {p q : Program} {t s : SymbolTable}
    (h : p.check t = .ok (q, s)) : q.check t = .ok (q, s) := by
  unfold Program.check at h
  obtain ⟨⟨ds, u⟩, hds, hq⟩ := bind_eq_ok.1 h
  cases hq
  have hsettled : (Checker.decls ds).run t = .ok (ds, s) :=
    (Checker.decls_settles p.decls t).ok_of_eq hds
  exact bind_eq_ok.2 ⟨(ds, s), hsettled, rfl⟩

/-- The text of a program in which checking computes the values of static objects and converts
operands, arguments, assigned values, branches and returned values. -/
def recheckedText : String :=
  "static long top = 1 << 3; int f(long a, unsigned b) \x7b static int s = 5000000000l; " ++
    "extern long top; int c = a; for (int i = 0; i < b; i = i + 1) c = f(c, i) + top; " ++
    "return c ? a : b; \x7d"

theorem Program.check_of_checked_recheckedText :
    ∃ ts tree r q s, tokens recheckedText = .ok ts ∧ Program.ofTokens ts = .ok tree ∧
      tree.resolve = .ok r ∧ r.check [] = .ok (q, s) ∧
      s.names = ["top", "f", "a.0", "b.1", "s.2", "c.3", "i.4"] ∧
      (r.exprs.length, q.exprs.length) = (25, 31) ∧ q.check [] = .ok (q, s) := by
  have hchars : recheckedText.toList = _ :=
    toList_append_eq (toList_append_eq String.toList_ofList String.toList_ofList)
      String.toList_ofList
  have h : ((tokens recheckedText).toOption.bind fun ts =>
      (Program.ofTokens ts).toOption.bind fun tree => tree.resolve.toOption.bind fun r =>
        (r.check []).toOption.bind fun o =>
          some (o.2.names, r.exprs.length, o.1.exprs.length)) =
      some (["top", "f", "a.0", "b.1", "s.2", "c.3", "i.4"], 25, 31) := by
    rw [tokens, hchars]
    decide +kernel
  obtain ⟨ts, hts, h⟩ := toOption_bind_eq_some.1 h
  obtain ⟨tree, htree, h⟩ := toOption_bind_eq_some.1 h
  obtain ⟨r, hr, h⟩ := toOption_bind_eq_some.1 h
  obtain ⟨⟨q, s⟩, hq, h⟩ := toOption_bind_eq_some.1 h
  obtain ⟨hnames, hlength⟩ := Prod.mk.inj (Option.some.inj h)
  exact ⟨ts, tree, r, q, s, hts, htree, hr, hq, hnames, hlength, check_of_checked hq⟩

end IntegerC
