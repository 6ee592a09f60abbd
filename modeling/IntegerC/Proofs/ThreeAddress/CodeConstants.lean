import IntegerC.Proofs.Constants
import IntegerC.Proofs.ThreeAddress.FunctionTypes

set_option autoImplicit false

/-! # The constants of code

A constant in the code of an expression is one of the expression, or the zero or one that a
connective leaves behind. The code of statements runs no initializer of a static object, so all
constants in three-address code are values of their types, and none is negative.
-/

namespace IntegerC.ThreeAddress

/-! ## Values -/

/-- A variable, or a constant as a literal makes it. -/
def Value.Natural : Value → Prop
  | .constant c => c.Natural
  | .var _ => True

@[simp] theorem natural_var {x : String} : (Value.var x).Natural := trivial

def Instr.values (i : Instr) : List Value := i.sources ++ i.destination?.toList

/-- No instruction has a constant that no literal makes. -/
def AllNatural (code : List Instr) : Prop := ∀ i ∈ code, ∀ v ∈ i.values, v.Natural

/-- The same for the code of an expression and the place of its value. -/
structure ExprCode.Natural (e : ExprCode) : Prop where
  value : e.value.Natural
  code : AllNatural e.code

section

variable {code code' : List Instr} {a b c : ExprCode} {dst : Value}

@[simp] theorem allNatural_nil : AllNatural [] := by simp [AllNatural]

@[simp] theorem allNatural_append :
    AllNatural (code ++ code') ↔ AllNatural code ∧ AllNatural code' :=
  List.forall_mem_append

@[simp] theorem allNatural_cons {i : Instr} :
    AllNatural (i :: code) ↔ (∀ v ∈ i.values, v.Natural) ∧ AllNatural code :=
  List.forall_mem_cons

theorem natural_intValue {n : Int} (h : n = 0 ∨ n = 1) : (intValue n).Natural := by
  have holds : IntType.int.Holds n ∧ 0 ≤ n := by rcases h with rfl | rfl <;> decide
  exact ⟨holds.1, holds.2⟩

theorem values_conversion (σ τ : IntType) (src dst : Value) :
    (conversion σ τ src dst).values = [src, dst] := by
  rw [Instr.values, Coder.sources_conversion, Coder.destination?_conversion]
  rfl

theorem allNatural_connective (op : LogicOp) (ha : a.Natural) (hb : b.Natural)
    (hdst : dst.Natural) (short finish : String) :
    AllNatural (connectiveCode op a b dst short finish) := by
  have hzero : (intValue 0).Natural := natural_intValue (.inl rfl)
  have hone : (intValue 1).Natural := natural_intValue (.inr rfl)
  cases op <;> simp [connectiveCode, Instr.values, Instr.sources, Instr.destination?, ha.value,
    ha.code, hb.value, hb.code, hdst, hzero, hone]

theorem allNatural_conditional (ha : a.Natural) (hb : b.Natural) (hc : c.Natural)
    (hdst : dst.Natural) (other finish : String) :
    AllNatural (conditionalCode a b c dst other finish) := by
  simp [conditionalCode, Instr.values, Instr.sources, Instr.destination?, ha.value, ha.code,
    hb.value, hb.code, hc.value, hc.code, hdst]

end

/-! ## Expressions -/

namespace Coder

variable {s : Supply}

theorem temporary_natural (τ : IntType) (s : Supply) :
    Answers ((temporary τ).run s) (fun o => o.1.Natural) :=
  .run_pure trivial

theorem binary_natural {op : BinaryOp} {τ : IntType} {a b : ExprCode} (ha : a.Natural)
    (hb : b.Natural) : Answers ((binary op τ a b).run s) (fun o => o.1.Natural) := by
  cases op with
  | arith op | shift op | compare op =>
      refine (temporary_natural _ _).run_bind fun dst s₁ hdst => .run_pure ⟨hdst, ?_⟩
      have hdst' : dst.Natural := hdst
      simp [Instr.values, Instr.sources, Instr.destination?, ha.value, ha.code, hb.value, hb.code,
        hdst']
  | logic op =>
      refine (temporary_natural _ _).run_bind fun dst s₁ hdst => ?_
      refine (Ensures.self _).run_bind fun short s₂ _ => ?_
      refine (Ensures.self _).run_bind fun finish s₃ _ => .run_pure ⟨hdst, ?_⟩
      exact allNatural_connective op ha hb hdst short finish

mutual
/-- Constants in code are those of the expression and the ones that connectives set, which are 0 and
1. -/
theorem expr_natural :
    (e : Expr) → e.EachConstant Constant.Natural → ∀ s : Supply,
      Answers ((expr e).run s) (fun o => o.1.Natural)
  | .constant _ c, h, s => by
      rw [expr]
      refine .run_lift (Ensures.self _) fun _ _ => .run_pure ⟨?_, allNatural_nil⟩
      exact Expr.eachConstant_constant.1 h
  | .var _ _, _, s => by
      rw [expr]
      exact .run_lift (Ensures.self _) fun _ _ => .run_pure ⟨trivial, allNatural_nil⟩
  | .cast _ _ a, h, s => by
      rw [expr]
      have ha := Expr.eachConstant_cast.1 h
      refine (expr_natural a ha s).run_bind fun inner s₁ hi => ?_
      refine .run_lift (Ensures.self _) fun τ _ => .run_ite (fun _ => .run_pure hi) fun _ => ?_
      refine (temporary_natural _ _).run_bind fun dst s₂ hdst => .run_pure ⟨hdst, ?_⟩
      simpa [values_conversion] using ⟨hi.code, hi.value, hdst⟩
  | .unary _ op a, h, s => by
      rw [expr]
      have ha := Expr.eachConstant_unary.1 h
      refine (expr_natural a ha s).run_bind fun inner s₁ hi => ?_
      refine .run_lift (Ensures.self _) fun τ _ => ?_
      refine (temporary_natural _ _).run_bind fun dst s₂ hdst => .run_pure ⟨hdst, ?_⟩
      simpa [Instr.values, Instr.sources, Instr.destination?] using ⟨hi.code, hi.value, hdst⟩
  | .binary _ op a b, h, s => by
      rw [expr]
      obtain ⟨ha, hb⟩ := Expr.eachConstant_binary.1 h
      refine (expr_natural a ha s).run_bind fun left s₁ hl => ?_
      refine (expr_natural b hb s₁).run_bind fun right s₂ hr => ?_
      exact .run_lift (Ensures.self _) fun τ _ => binary_natural hl hr
  | .assignment _ a b, h, s => by
      rw [expr]
      obtain ⟨ha, hb⟩ := Expr.eachConstant_assignment.1 h
      refine (expr_natural a ha s).run_bind fun target s₁ ht => ?_
      refine (expr_natural b hb s₁).run_bind fun value s₂ hv => ?_
      refine .run_lift (Ensures.self _) fun τ _ => .run_pure ⟨ht.value, ?_⟩
      simpa [Instr.values, Instr.sources, Instr.destination?] using
        ⟨ht.code, hv.code, hv.value, ht.value⟩
  | .conditional _ a b c, h, s => by
      rw [expr]
      obtain ⟨ha, hb, hc⟩ := Expr.eachConstant_conditional.1 h
      refine (expr_natural a ha s).run_bind fun condition s₁ h₁ => ?_
      refine (expr_natural b hb s₁).run_bind fun yes s₂ h₂ => ?_
      refine (expr_natural c hc s₂).run_bind fun no s₃ h₃ => ?_
      refine .run_lift (Ensures.self _) fun τ _ => ?_
      refine (temporary_natural _ _).run_bind fun dst s₄ hdst => ?_
      refine (Ensures.self _).run_bind fun other s₅ _ => ?_
      refine (Ensures.self _).run_bind fun finish s₆ _ => .run_pure ⟨hdst, ?_⟩
      exact allNatural_conditional h₁ h₂ h₃ hdst other finish
  | .call _ f es, h, s => by
      rw [expr]
      refine (exprs_natural es (Expr.eachConstant_call.1 h) s).run_bind fun outs s₁ ho => ?_
      refine .run_lift (Ensures.self _) fun τ _ => ?_
      refine (temporary_natural _ _).run_bind fun dst s₂ hdst => .run_pure ⟨hdst, ?_⟩
      have hcode : AllNatural (outs.flatMap ExprCode.code) := fun i hi => by
        obtain ⟨out, hout, hi⟩ := List.mem_flatMap.1 hi
        exact (ho out hout).code i hi
      have hvalues : ∀ v ∈ outs.map ExprCode.value, v.Natural :=
        List.forall_mem_map.2 fun out hout => (ho out hout).value
      refine allNatural_append.2 ⟨hcode, allNatural_cons.2 ⟨?_, allNatural_nil⟩⟩
      exact List.forall_mem_append.2 ⟨hvalues, List.forall_mem_singleton.2 hdst⟩
termination_by structural e => e

theorem exprs_natural :
    (es : List Expr) → (∀ e ∈ es, e.EachConstant Constant.Natural) → ∀ s : Supply,
      Answers ((exprs es).run s) (fun o => ∀ out ∈ o.1, out.Natural)
  | [], _, _ => .run_pure (by simp)
  | e :: es, h, s => by
      rw [exprs]
      obtain ⟨he, hes⟩ := List.forall_mem_cons.1 h
      refine (expr_natural e he s).run_bind fun out s₁ ho => ?_
      refine (exprs_natural es hes s₁).run_bind fun outs s₂ hos => .run_pure ?_
      exact List.forall_mem_cons.2 ⟨ho, hos⟩
termination_by structural es => es
end

/-! ## Statements -/

/-- Only the initializer of an automatic variable runs. -/
theorem localVar_natural {d : VarDecl} (h : (Part.var d).InRange) :
    Answers ((localVar d).run s) (fun o => AllNatural o.1) := by
  rw [localVar]
  split
  · rename_i e hs hd
    refine (expr_natural e ((Part.constants_var.1 h).2 hs e hd) s).run_bind fun out s₁ ho =>
      .run_pure ?_
    simpa [Instr.values, Instr.sources, Instr.destination?] using ⟨ho.code, ho.value⟩
  · exact .run_pure allNatural_nil

theorem expr_allNatural {e : Expr} (h : (Part.expr e).InRange) (s : Supply) :
    Answers ((expr e).run s) (fun o => o.1.Natural) :=
  expr_natural e (Part.constants_expr.1 h).2 s

theorem forInit_natural {i : ForInit} (h : Part.AllInRange i.parts) :
    Answers ((forInit i).run s) (fun o => AllNatural o.1) := by
  cases i with
  | nothing => exact .run_pure allNatural_nil
  | decl d => exact localVar_natural (Part.allConstants_cons.1 h).1
  | expr e =>
      exact (expr_allNatural (Part.allConstants_cons.1 h).1 s).run_bind fun _ _ ho =>
        .run_pure ho.code

theorem exitTest_natural {target : String} {o : Option Expr}
    (h : Part.AllInRange (Part.optional o)) :
    Answers ((exitTest target o).run s) (fun u => AllNatural u.1) := by
  cases o with
  | none => exact .run_pure allNatural_nil
  | some e =>
      refine (expr_allNatural (Part.allConstants_cons.1 h).1 s).run_bind fun out s₁ ho =>
        .run_pure ?_
      simpa [Instr.values, Instr.sources, Instr.destination?] using ⟨ho.code, ho.value⟩

theorem step_natural {o : Option Expr} (h : Part.AllInRange (Part.optional o)) :
    Answers ((step o).run s) (fun u => AllNatural u.1) := by
  cases o with
  | none => exact .run_pure allNatural_nil
  | some e =>
      exact (expr_allNatural (Part.allConstants_cons.1 h).1 s).run_bind fun _ _ ho =>
        .run_pure ho.code

mutual
/-- The constants in the code of a statement come from its expressions. -/
theorem stmt_natural :
    (c : Stmt) → Part.AllInRange c.parts → ∀ s : Supply,
      Answers ((stmt c).run s) (fun o => AllNatural o.1)
  | .ret _ e, h, s => by
      rw [stmt]
      simp only [Stmt.parts, Part.allConstants_cons] at h
      refine (expr_allNatural h.2.1 s).run_bind fun out s₁ ho => .run_pure ?_
      simpa [Instr.values, Instr.sources, Instr.destination?] using ⟨ho.code, ho.value⟩
  | .expr _ e, h, s => by
      rw [stmt]
      simp only [Stmt.parts, Part.allConstants_cons] at h
      exact (expr_allNatural h.2.1 s).run_bind fun _ _ ho => .run_pure ho.code
  | .ifThen _ e yes, h, s => by
      rw [stmt]
      simp only [Stmt.parts, Part.allConstants_cons] at h
      refine (expr_allNatural h.2.1 s).run_bind fun out s₁ ho => ?_
      refine (Ensures.self _).run_bind fun finish s₂ _ => ?_
      refine (stmt_natural yes h.2.2 s₂).run_bind fun yes' s₃ hy => .run_pure ?_
      simpa [Instr.values, Instr.sources, Instr.destination?] using ⟨ho.code, ho.value, hy⟩
  | .ifElse _ e yes no, h, s => by
      rw [stmt]
      simp only [Stmt.parts, Part.allConstants_cons, Part.allConstants_append] at h
      refine (expr_allNatural h.2.1 s).run_bind fun out s₁ ho => ?_
      refine (Ensures.self _).run_bind fun finish s₂ _ => ?_
      refine (Ensures.self _).run_bind fun other s₃ _ => ?_
      refine (stmt_natural yes h.2.2.1 s₃).run_bind fun yes' s₄ hy => ?_
      refine (stmt_natural no h.2.2.2 s₄).run_bind fun no' s₅ hn => .run_pure ?_
      simpa [Instr.values, Instr.sources, Instr.destination?] using ⟨ho.code, ho.value, hy, hn⟩
  | .block _ is, h, s => by
      rw [stmt]
      exact items_natural is (Part.allConstants_cons.1 h).2 s
  | .breakLoop _ l, _, s | .continueLoop _ l, _, s => by
      rw [stmt]
      refine loopLabel_answers fun _ => .run_pure ?_
      simp [Instr.values, Instr.sources, Instr.destination?]
  | .doLoop _ l body e, h, s => by
      rw [stmt]
      simp only [Stmt.parts, Part.allConstants_cons, Part.allConstants_append] at h
      refine loopLabel_answers fun name => ?_
      refine (expr_allNatural h.2.2.2.1 s).run_bind fun out s₁ ho => ?_
      refine (stmt_natural body h.2.2.1 s₁).run_bind fun body' s₂ hb => .run_pure ?_
      simpa [Instr.values, Instr.sources, Instr.destination?] using ⟨hb, ho.code, ho.value⟩
  | .whileLoop _ l e body, h, s => by
      rw [stmt]
      simp only [Stmt.parts, Part.allConstants_cons] at h
      refine loopLabel_answers fun name => ?_
      refine (expr_allNatural h.2.2.1 s).run_bind fun out s₁ ho => ?_
      refine (stmt_natural body h.2.2.2 s₁).run_bind fun body' s₂ hb => .run_pure ?_
      simpa [Instr.values, Instr.sources, Instr.destination?] using ⟨ho.code, ho.value, hb⟩
  | .forLoop _ l init e post body, h, s => by
      simp only [Stmt.parts, Part.allConstants_cons, Part.allConstants_append] at h
      obtain ⟨-, -, hi, he, hp, hbody⟩ := h
      rw [stmt]
      refine loopLabel_answers fun name => ?_
      refine (forInit_natural hi).run_bind fun init' s₁ h₁ => ?_
      refine (exitTest_natural he).run_bind fun test s₂ h₂ => ?_
      refine (stmt_natural body hbody s₂).run_bind fun body' s₃ h₃ => ?_
      refine (step_natural hp).run_bind fun post' s₄ h₄ => .run_pure ?_
      simpa [Instr.values, Instr.sources, Instr.destination?] using ⟨h₁, h₂, h₃, h₄⟩
  | .null _, _, s => .run_pure allNatural_nil
termination_by structural c => c

theorem item_natural :
    (i : Item) → Part.AllInRange i.parts → ∀ s : Supply,
      Answers ((item i).run s) (fun o => AllNatural o.1)
  | .stmt c, h, s => by
      rw [item]
      exact stmt_natural c h s
  | .decl (.var d), h, s => by
      rw [item]
      exact localVar_natural (Part.allConstants_cons.1 h).1
  | .decl (.prototype _), _, s => .run_pure allNatural_nil
  | .decl (.function _ _ _), _, s => .run_pure allNatural_nil
termination_by structural i => i

theorem items_natural :
    (is : List Item) → Part.AllInRange (Item.allParts is) → ∀ s : Supply,
      Answers ((items is).run s) (fun o => AllNatural o.1)
  | [], _, s => .run_pure allNatural_nil
  | i :: is, h, s => by
      rw [items]
      obtain ⟨hi, his⟩ := Part.allConstants_append.1 h
      refine (item_natural i hi s).run_bind fun i' s₁ hi' => ?_
      refine (items_natural is his s₁).run_bind fun is' s₂ his' => .run_pure ?_
      exact allNatural_append.2 ⟨hi', his'⟩
termination_by structural is => is
end

/-! ## Functions -/

/-- The zero behind the code of a function is a constant like those of literals. -/
theorem function_natural {h : FunHeader} {body : List Item}
    (hbody : Part.AllInRange (Item.allParts body)) :
    Answers ((function h body).run s) (fun o => AllNatural o.1.body) := by
  rw [function]
  refine .run_get ?_
  split
  · refine (items_natural body hbody s).run_bind fun code s₁ hcode => .run_pure ?_
    simpa [Instr.values, Instr.sources, Instr.destination?] using
      ⟨hcode, natural_intValue (.inl rfl)⟩
  · exact .run_throw trivial

/-- Every function is coded from parts in range. -/
theorem functions_natural (ds : List Decl) :
    ∀ s : Supply, (∀ d ∈ ds, Part.AllInRange d.parts) →
      Answers ((functions ds).run s) (fun o => ∀ f ∈ o.1, AllNatural f.body) := by
  induction ds with
  | nil => exact fun s _ => .run_pure (by simp)
  | cons d ds ih =>
      intro s h
      obtain ⟨hd, hds⟩ := List.forall_mem_cons.1 h
      cases d with
      | function f span body =>
          rw [functions]
          simp only [Decl.parts, Part.allConstants_cons] at hd
          refine (function_natural hd.2.2).run_bind fun g s₁ hg => ?_
          refine (ih s₁ hds).run_bind fun gs s₂ hgs => .run_pure ?_
          exact List.forall_mem_cons.2 ⟨hg, hgs⟩
      | var d => exact ih s hds
      | prototype f => exact ih s hds

end Coder

end IntegerC.ThreeAddress
