import IntegerC.Proofs.Respacing.Mirroring
import IntegerC.Typing

set_option autoImplicit false

/-! # Types without spans

Types, conversions and the values of static objects are found without looking at spans, so the
symbol table is the same whether there are spans or not. A cast that is put in for a conversion has
the span of its operand, which is left out with the others.
-/

namespace IntegerC

/-! ## Constant expressions -/

def Folded.bare (f : Folded) : Folded := ⟨f.type, f.value.mapError Fault.bare⟩

namespace Folded

variable {f g i : Folded} {t : IntType}

theorem type_bare (f : Folded) : f.bare.type = f.type := rfl

/-- The value of what was folded, without spans. -/
theorem value_bare (f : Folded) : Mirrors id f.value f.bare.value := by
  unfold bare
  cases f.value <;> rfl

theorem convert_bare (f : Folded) (t : IntType) : Mirrors id (f.convert t) (f.bare.convert t) :=
  f.value_bare.map fun _ => rfl

/-- What has the same type, and the value without spans, is what was folded without spans. -/
theorem eq_bare (ht : g.type = f.type) (hv : Mirrors id f.value g.value) : g = f.bare := by
  obtain ⟨τ, v⟩ := g
  cases ht
  cases hv.eq f.value_bare
  rfl

theorem unary_bare (op : UnaryOp) (f : Folded) : unary op f.bare = (unary op f).bare :=
  eq_bare rfl (f.value_bare.map fun _ => rfl)

/-- A division by zero is found at the same node, with a bare span in one case. -/
theorem binary_bare (s : Span) (op : BinaryOp) (f g : Folded) :
    binary .nowhere op f.bare g.bare = (binary s op f g).bare := by
  cases op with
  | logic op =>
      cases op with
      | and | or =>
          exact eq_bare rfl (f.value_bare.bind fun _ => .ite (fun _ => .pure rfl) fun _ =>
            g.value_bare.bind fun _ => .pure rfl)
  | shift op =>
      exact eq_bare rfl (g.value_bare.bind fun _ => f.value_bare.bind fun _ => .pure rfl)
  | compare op =>
      exact eq_bare rfl
        ((f.convert_bare _).bind fun _ => (g.convert_bare _).bind fun _ => .pure rfl)
  | arith op =>
      refine eq_bare rfl ((f.convert_bare _).bind fun a => (g.convert_bare _).bind fun b => ?_)
      rw [type_bare, type_bare, id, id]
      cases op.eval (f.type.common g.type) a b with
      | ok n => exact .pure rfl
      | error d => exact .error rfl

theorem conditional_bare (f g i : Folded) :
    conditional f.bare g.bare i.bare = (conditional f g i).bare :=
  eq_bare rfl (f.value_bare.bind fun _ =>
    .ite (fun _ => g.convert_bare _) fun _ => i.convert_bare _)

end Folded

namespace Expr

/-- Folding looks at constants and operators only, never at spans. -/
theorem fold_bare (e : Expr) : e.bare.fold = e.fold.map Folded.bare := by
  induction e using fold.induct with
  | case1 n c => rfl
  | case2 | case3 | case4 => rfl
  | case5 n target a ih =>
      rw [bare, fold, fold, ih]
      cases a.fold with
      | none => rfl
      | some f => exact congrArg some (Folded.eq_bare rfl (f.convert_bare target))
  | case6 n op a ih =>
      rw [bare, fold, fold, ih]
      cases a.fold with
      | none => rfl
      | some f => exact congrArg some (Folded.unary_bare op f)
  | case7 n op a b iha ihb =>
      rw [bare, fold, fold, iha, ihb]
      cases a.fold with
      | none => rfl
      | some f =>
          cases b.fold with
          | none => rfl
          | some g => exact congrArg some (Folded.binary_bare n.span op f g)
  | case8 n a b c iha ihb ihc =>
      rw [bare, fold, fold, iha, ihb, ihc]
      cases a.fold with
      | none => rfl
      | some f =>
          cases b.fold with
          | none => rfl
          | some g =>
              cases c.fold with
              | none => rfl
              | some i => exact congrArg some (Folded.conditional_bare f g i)

theorem constant?_bare (e : Expr) : Mirrors id e.constant? e.bare.constant? := by
  unfold constant?
  rw [fold_bare]
  cases e.fold with
  | none => exact .pure rfl
  | some f => exact f.value_bare.map fun _ => rfl

/-! ## Expressions -/

theorem form_bare (e : Expr) : e.bare.form = e.form := by cases e <;> rfl

theorem typeOf_bare (e : Expr) : Mirrors id e.typeOf e.bare.typeOf := by
  unfold typeOf
  rw [type_bare, form_bare, span_bare]
  cases e.type with
  | none => exact .error rfl
  | some τ => exact .pure rfl

theorem convert_bare (e : Expr) (τ : IntType) : e.bare.convert τ = (e.convert τ).bare := by
  unfold convert
  rw [type_bare, span_bare]
  split <;> rfl

theorem typed_bare (n : Note) (op : BinaryOp) (a b : Expr) (σ τ : IntType) :
    op.typed n.bare a.bare b.bare σ τ = (op.typed n a b σ τ).bare := by
  cases op <;> simp only [BinaryOp.typed, convert_bare] <;> rfl

theorem zipWith_convert_bare (es : List Expr) (τs : List IntType) :
    List.zipWith convert (allBare es) τs = allBare (List.zipWith convert es τs) := by
  rw [allBare_eq_map, allBare_eq_map, List.zipWith_map_left, List.map_zipWith]
  simp only [convert_bare]

theorem length_allBare (es : List Expr) : (allBare es).length = es.length := by
  rw [allBare_eq_map, List.length_map]

mutual
/-- Annotations and casts do not depend on spans, and a fault has the span of the same node. -/
theorem check_bare (t : SymbolTable) : (e : Expr) → Mirrors bare (e.check t) (e.bare.check t)
  | constant _ _ => .pure rfl
  | var n x => by
      rw [bare, check, check]
      split
      · exact .error rfl
      · exact .error rfl
      · exact .pure rfl
  | cast _ _ a | unary _ _ a => by
      rw [bare, check, check]
      exact (check_bare t a).bind fun a' => a'.typeOf_bare.bind fun _ => .pure rfl
  | binary n op a b => by
      rw [bare, check, check]
      exact (check_bare t a).bind fun a' => (check_bare t b).bind fun b' =>
        a'.typeOf_bare.bind fun _ => b'.typeOf_bare.bind fun _ => .pure (typed_bare ..)
  | assignment _ a b => by
      rw [bare, check, check]
      refine (check_bare t a).bind fun a' => (check_bare t b).bind fun b' =>
        a'.typeOf_bare.bind fun τ => .pure ?_
      rw [convert_bare]
      rfl
  | conditional _ a b c => by
      rw [bare, check, check]
      refine (check_bare t a).bind fun a' => (check_bare t b).bind fun b' =>
        (check_bare t c).bind fun c' => a'.typeOf_bare.bind fun _ => b'.typeOf_bare.bind fun _ =>
          c'.typeOf_bare.bind fun _ => .pure ?_
      rw [convert_bare, convert_bare]
      rfl
  | call _ f es => by
      rw [bare, check, check]
      refine (checkAll_bare t es).bind fun es' => ?_
      rw [length_allBare]
      split
      · exact .error rfl
      · exact .error rfl
      · refine .ite (fun _ => .error rfl) fun _ => .pure ?_
        rw [zipWith_convert_bare]
        rfl
termination_by structural e => e

theorem checkAll_bare (t : SymbolTable) :
    (es : List Expr) → Mirrors allBare (checkAll t es) (checkAll t (allBare es))
  | [] => .pure rfl
  | e :: es => by
      rw [allBare, checkAll, checkAll]
      exact (check_bare t e).bind fun _ => (checkAll_bare t es).bind fun _ => .pure rfl
termination_by structural es => es
end

end Expr

/-! ## Static objects -/

theorem VarDecl.staticValue_bare (d : VarDecl) (init : Expr) :
    Mirrors id (d.staticValue init) (d.bare.staticValue init.bare) := by
  refine init.constant?_bare.bind fun o => ?_
  cases o with
  | none =>
      rw [Expr.span_bare]
      exact .error rfl
  | some c => exact .pure rfl

theorem VarDecl.staticValue?_bare (d : VarDecl) :
    Mirrors id d.staticValue? d.bare.staticValue? := by
  obtain ⟨span, x, τ, storage, init⟩ := d
  cases init with
  | none => exact .pure rfl
  | some e => exact (staticValue_bare _ e).map fun _ => rfl

theorem VarDecl.withValue_bare (d : VarDecl) (value : Option Constant) :
    d.bare.withValue value = (d.withValue value).bare := by
  obtain ⟨span, x, τ, storage, init⟩ := d
  cases init with
  | none => rfl
  | some e =>
      cases value with
      | none => rfl
      | some c => simp [withValue, bare, Expr.bare, Note.bare]

theorem VarDecl.fileEntry_bare (d : VarDecl) (value : Option Constant) (old : Option Symbol) :
    Mirrors id (d.fileEntry value old) (d.bare.fileEntry value old) := by
  rcases old with _ | ⟨oldType, _ | ⟨oldInitial, oldGlobal⟩ | _⟩
  · exact .pure rfl
  · exact .error rfl
  · refine .ite (fun _ => .error rfl) fun _ => .ite (fun _ => .error rfl) fun _ => ?_
    rw [d.storage_bare]
    cases oldInitial.merge _ with
    | none => exact .error rfl
    | some i => exact .pure rfl
  · exact .error rfl

@[simp] theorem FunHeader.type_bare (h : FunHeader) : h.bare.type = h.type := by
  simp only [type, bare, List.map_map]
  rfl

theorem FunHeader.entry_bare (h : FunHeader) (defines : Bool) (old : Option Symbol) :
    Mirrors id (h.entry defines old) (h.bare.entry defines old) := by
  unfold entry
  rw [type_bare]
  split
  · exact .pure rfl
  · exact .ite (fun _ => .error rfl) fun _ => .ite (fun _ => .error rfl) fun _ =>
      .ite (fun _ => .error rfl) fun _ => .pure rfl
  · exact .error rfl

/-! ## Programs -/

namespace Checker

/-- Without spans the pass `x'` does what `x` does. -/
abbrev Checks {α α' : Type} (f : α → α') (x : Checker α) (x' : Checker α') : Prop :=
  MirrorsFrom id f x x'

theorem record_bare (x : String) (s : Symbol) : Checks id (record x s) (record x s) :=
  .update_id

theorem expr_bare (e : Expr) : Checks Expr.bare (expr e) (expr e.bare) :=
  MirrorsFrom.get.bind fun t => .lift (e.check_bare t)

theorem optionalExpr_bare (o : Option Expr) :
    Checks (Option.map Expr.bare) (optionalExpr o) (optionalExpr (o.map Expr.bare)) := by
  cases o with
  | none => exact .pure rfl
  | some e => exact (expr_bare e).map fun _ => rfl

theorem exprAs_bare (τ : IntType) (e : Expr) :
    Checks Expr.bare (exprAs τ e) (exprAs τ e.bare) :=
  (expr_bare e).bind fun _ => .pure (Expr.convert_bare _ _)

theorem fileVar_bare (d : VarDecl) : Checks VarDecl.bare (fileVar d) (fileVar d.bare) :=
  (MirrorsFrom.lift d.staticValue?_bare).bind fun value => MirrorsFrom.get.bind fun _ =>
    (MirrorsFrom.lift (d.fileEntry_bare value _)).bind fun _ => (record_bare _ _).bind fun _ =>
      .pure (d.withValue_bare value)

/-- A static local variable is folded, the others are converted. Neither reads a span. -/
theorem localVar_bare (d : VarDecl) : Checks VarDecl.bare (localVar d) (localVar d.bare) := by
  obtain ⟨span, x, τ, storage, init⟩ := d
  rcases storage with _ | (_ | _)
  · -- an automatic variable
    refine (record_bare _ _).bind fun _ => ?_
    cases init with
    | none => exact .pure rfl
    | some e => exact (exprAs_bare τ e).bind fun _ => .pure rfl
  · exact (MirrorsFrom.lift (VarDecl.staticValue?_bare _)).bind fun value =>
      (record_bare _ _).bind fun _ => .pure (VarDecl.withValue_bare _ value)
  · cases init with
    | none =>
        refine MirrorsFrom.get.bind fun t => ?_
        rw [VarDecl.name_bare, id]
        cases t.find? x with
        | none => exact (record_bare _ _).bind fun _ => .pure rfl
        | some old => exact .ite (fun _ => .pure rfl) fun _ => .throw rfl
    | some e =>
        refine .throw ?_
        show (Cause.externInitializer x).at e.bare.span = _
        rw [Expr.span_bare]
        rfl

theorem function_bare (h : FunHeader) (defines : Bool) :
    Checks id (function h defines) (function h.bare defines) :=
  MirrorsFrom.get.bind fun _ => (MirrorsFrom.lift (h.entry_bare defines _)).bind fun _ =>
    record_bare _ _

theorem params_bare (ps : List Param) : Checks id (params ps) (params (ps.map Param.bare)) := by
  induction ps with
  | nil => exact .pure rfl
  | cons p ps ih => exact (record_bare _ _).bind fun _ => ih

theorem forInit_bare (i : ForInit) : Checks ForInit.bare (forInit i) (forInit i.bare) := by
  cases i with
  | nothing => exact .pure rfl
  | decl d => exact (localVar_bare d).bind fun _ => .pure rfl
  | expr e => exact (expr_bare e).bind fun _ => .pure rfl

mutual
/-- The table is passed through a statement in the same order with and without spans. -/
theorem stmt_bare (result : IntType) :
    (s : Stmt) → Checks Stmt.bare (stmt result s) (stmt result s.bare)
  | .ret _ e => by
      rw [Stmt.bare, stmt, stmt]
      exact (exprAs_bare result e).bind fun _ => .pure rfl
  | .expr _ e => by
      rw [Stmt.bare, stmt, stmt]
      exact (expr_bare e).bind fun _ => .pure rfl
  | .ifThen _ c yes => by
      rw [Stmt.bare, stmt, stmt]
      exact (expr_bare c).bind fun _ => (stmt_bare result yes).bind fun _ => .pure rfl
  | .ifElse _ c yes no => by
      rw [Stmt.bare, stmt, stmt]
      exact (expr_bare c).bind fun _ => (stmt_bare result yes).bind fun _ =>
        (stmt_bare result no).bind fun _ => .pure rfl
  | .block _ is => by
      rw [Stmt.bare, stmt, stmt]
      exact (items_bare result is).bind fun _ => .pure rfl
  | .whileLoop _ _ c body => by
      rw [Stmt.bare, stmt, stmt]
      exact (expr_bare c).bind fun _ => (stmt_bare result body).bind fun _ => .pure rfl
  | .doLoop _ _ body c => by
      rw [Stmt.bare, stmt, stmt]
      exact (stmt_bare result body).bind fun _ => (expr_bare c).bind fun _ => .pure rfl
  | .forLoop _ _ init c post body => by
      rw [Stmt.bare, stmt, stmt]
      exact (forInit_bare init).bind fun _ => (optionalExpr_bare c).bind fun _ =>
        (optionalExpr_bare post).bind fun _ => (stmt_bare result body).bind fun _ => .pure rfl
  | .breakLoop _ _ | .continueLoop _ _ | .null _ => .pure rfl
termination_by structural s => s

theorem item_bare (result : IntType) :
    (i : Item) → Checks Item.bare (item result i) (item result i.bare)
  | .stmt s => by
      rw [Item.bare, item, item]
      exact (stmt_bare result s).bind fun _ => .pure rfl
  | .decl (.var d) => by
      rw [Item.bare, Decl.bare, item, item]
      exact (localVar_bare d).bind fun _ => .pure rfl
  | .decl (.prototype h) => by
      rw [Item.bare, Decl.bare, item, item]
      exact (function_bare h false).bind fun _ => .pure rfl
  | .decl (.function h _ body) => by
      rw [Item.bare, Decl.bare, item, item]
      exact (function_bare h true).bind fun _ => (params_bare h.params).bind fun _ =>
        (items_bare h.result body).bind fun _ => .pure rfl
termination_by structural i => i

theorem items_bare (result : IntType) :
    (is : List Item) → Checks Item.allBare (items result is) (items result (Item.allBare is))
  | [] => .pure rfl
  | i :: is => by
      rw [Item.allBare, items, items]
      exact (item_bare result i).bind fun _ => (items_bare result is).bind fun _ => .pure rfl
termination_by structural is => is
end

theorem decl_bare (d : Decl) : Checks Decl.bare (decl d) (decl d.bare) := by
  cases d with
  | var d => exact (fileVar_bare d).bind fun _ => .pure rfl
  | prototype h => exact (function_bare h false).bind fun _ => .pure rfl
  | function h s body =>
      exact (function_bare h true).bind fun _ => (params_bare h.params).bind fun _ =>
        (items_bare h.result body).bind fun _ => .pure rfl

theorem decls_bare (ds : List Decl) :
    Checks (List.map Decl.bare) (decls ds) (decls (ds.map Decl.bare)) := by
  induction ds with
  | nil => exact .pure rfl
  | cons d ds ih => exact (decl_bare d).bind fun _ => ih.bind fun _ => .pure rfl

end Checker

/-- A program without spans is given the same types, and has the same symbol table. -/
theorem Program.check_bare (p : Program) (t : SymbolTable) :
    Mirrors (Prod.map bare id) (p.check t) (p.bare.check t) :=
  (Checker.decls_bare p.decls t).bind fun _ => .pure rfl

end IntegerC
