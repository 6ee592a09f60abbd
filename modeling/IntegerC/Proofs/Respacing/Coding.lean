import IntegerC.Proofs.Respacing.Checking
import IntegerC.ThreeAddress.Code

set_option autoImplicit false

/-! # Code without spans

There are no spans in three-address code, so a checked program without spans has the same code and
the same temporaries.
-/

namespace IntegerC.ThreeAddress

namespace Coder

/-- Without spans the coder `x'` makes the same code as `x`. -/
abbrev Codes {α : Type} (x x' : Coder α) : Prop := MirrorsFrom id id x x'

theorem codes_temporary (τ : IntType) : Codes (temporary τ) (temporary τ) :=
  MirrorsFrom.get.bind fun _ => MirrorsFrom.set.bind fun _ => .pure rfl

theorem codes_label (word : String) : Codes (label word) (label word) :=
  MirrorsFrom.get.bind fun _ => MirrorsFrom.set.bind fun _ => .pure rfl

theorem codes_typeOf (e : Expr) : Codes (liftM e.typeOf) (liftM e.bare.typeOf) :=
  .lift e.typeOf_bare

theorem codes_binary (op : BinaryOp) (τ : IntType) (a b : ExprCode) :
    Codes (binary op τ a b) (binary op τ a b) := by
  cases op with
  | arith _ | shift _ | compare _ => exact (codes_temporary τ).bind fun _ => .pure rfl
  | logic _ =>
      exact (codes_temporary _).bind fun _ => (codes_label _).bind fun _ =>
        (codes_label _).bind fun _ => .pure rfl

/-! ## Expressions -/

mutual
/-- Code has no spans, so the same instructions and the same names come out. -/
theorem expr_bare : (e : Expr) → Codes (expr e) (expr e.bare)
  | .constant n c => (codes_typeOf (.constant n c)).bind fun _ => .pure rfl
  | .var n x => (codes_typeOf (.var n x)).bind fun _ => .pure rfl
  | .cast n τ a => by
      rw [Expr.bare, expr, expr]
      exact (expr_bare a).bind fun _ => (codes_typeOf (.cast n τ a)).bind fun _ =>
        .ite (fun _ => .pure rfl) fun _ => (codes_temporary _).bind fun _ => .pure rfl
  | .unary n op a => by
      rw [Expr.bare, expr, expr]
      exact (expr_bare a).bind fun _ => (codes_typeOf (.unary n op a)).bind fun _ =>
        (codes_temporary _).bind fun _ => .pure rfl
  | .binary n op a b => by
      rw [Expr.bare, expr, expr]
      exact (expr_bare a).bind fun _ => (expr_bare b).bind fun _ =>
        (codes_typeOf (.binary n op a b)).bind fun _ => codes_binary op _ _ _
  | .assignment n a b => by
      rw [Expr.bare, expr, expr]
      exact (expr_bare a).bind fun _ => (expr_bare b).bind fun _ =>
        (codes_typeOf (.assignment n a b)).bind fun _ => .pure rfl
  | .conditional n a b c => by
      rw [Expr.bare, expr, expr]
      exact (expr_bare a).bind fun _ => (expr_bare b).bind fun _ => (expr_bare c).bind fun _ =>
        (codes_typeOf (.conditional n a b c)).bind fun _ => (codes_temporary _).bind fun _ =>
          (codes_label _).bind fun _ => (codes_label _).bind fun _ => .pure rfl
  | .call n f es => by
      rw [Expr.bare, expr, expr]
      exact (exprs_bare es).bind fun _ => (codes_typeOf (.call n f es)).bind fun _ =>
        (codes_temporary _).bind fun _ => .pure rfl
termination_by structural e => e

theorem exprs_bare : (es : List Expr) → Codes (exprs es) (exprs (Expr.allBare es))
  | [] => .pure rfl
  | e :: es => by
      rw [Expr.allBare, exprs, exprs]
      exact (expr_bare e).bind fun _ => (exprs_bare es).bind fun _ => .pure rfl
termination_by structural es => es
end

/-! ## Statements -/

theorem localVar_bare (d : VarDecl) : Codes (localVar d) (localVar d.bare) := by
  obtain ⟨span, x, τ, storage, init⟩ := d
  cases storage with
  | some _ => exact .pure rfl
  | none =>
      cases init with
      | none => exact .pure rfl
      | some e => exact (expr_bare e).bind fun _ => .pure rfl

theorem forInit_bare (i : ForInit) : Codes (forInit i) (forInit i.bare) := by
  cases i with
  | nothing => exact .pure rfl
  | decl d => exact localVar_bare d
  | expr e => exact (expr_bare e).bind fun _ => .pure rfl

theorem loopLabel_bare (span : Span) (loop : Option String) :
    Codes (loopLabel span loop) (loopLabel .nowhere loop) := by
  cases loop with
  | none => exact .throw rfl
  | some l => exact .pure rfl

theorem exitTest_bare (target : String) (o : Option Expr) :
    Codes (exitTest target o) (exitTest target (o.map Expr.bare)) := by
  cases o with
  | none => exact .pure rfl
  | some e => exact (expr_bare e).bind fun _ => .pure rfl

theorem step_bare (o : Option Expr) : Codes (step o) (step (o.map Expr.bare)) := by
  cases o with
  | none => exact .pure rfl
  | some e => exact (expr_bare e).bind fun _ => .pure rfl

mutual
/-- Labels come from loops and from the supply, so statements without spans get the same ones. -/
theorem stmt_bare : (s : Stmt) → Codes (stmt s) (stmt s.bare)
  | .ret _ e | .expr _ e => by
      rw [Stmt.bare, stmt, stmt]
      exact (expr_bare e).bind fun _ => .pure rfl
  | .ifThen _ c yes => by
      rw [Stmt.bare, stmt, stmt]
      exact (expr_bare c).bind fun _ => (codes_label _).bind fun _ =>
        (stmt_bare yes).bind fun _ => .pure rfl
  | .ifElse _ c yes no => by
      rw [Stmt.bare, stmt, stmt]
      exact (expr_bare c).bind fun _ => (codes_label _).bind fun _ =>
        (codes_label _).bind fun _ => (stmt_bare yes).bind fun _ =>
          (stmt_bare no).bind fun _ => .pure rfl
  | .block _ is => items_bare is
  | .breakLoop s l | .continueLoop s l => (loopLabel_bare s l).bind fun _ => .pure rfl
  | .doLoop s l body c => by
      rw [Stmt.bare, stmt, stmt]
      exact (loopLabel_bare s l).bind fun _ => (expr_bare c).bind fun _ =>
        (stmt_bare body).bind fun _ => .pure rfl
  | .whileLoop s l c body => by
      rw [Stmt.bare, stmt, stmt]
      exact (loopLabel_bare s l).bind fun _ => (expr_bare c).bind fun _ =>
        (stmt_bare body).bind fun _ => .pure rfl
  | .forLoop s l init c post body => by
      rw [Stmt.bare, stmt, stmt]
      exact (loopLabel_bare s l).bind fun _ => (forInit_bare init).bind fun _ =>
        (exitTest_bare _ c).bind fun _ => (stmt_bare body).bind fun _ =>
          (step_bare post).bind fun _ => .pure rfl
  | .null _ => .pure rfl
termination_by structural s => s

theorem item_bare : (i : Item) → Codes (item i) (item i.bare)
  | .stmt s => stmt_bare s
  | .decl (.var d) => localVar_bare d
  | .decl (.prototype _) | .decl (.function _ _ _) => .pure rfl
termination_by structural i => i

theorem items_bare : (is : List Item) → Codes (items is) (items (Item.allBare is))
  | [] => .pure rfl
  | i :: is => by
      rw [Item.allBare, items, items]
      exact (item_bare i).bind fun _ => (items_bare is).bind fun _ => .pure rfl
termination_by structural is => is
end

/-! ## Functions -/

/-- A function without its spans is coded to the same code without spans. -/
theorem function_bare (h : FunHeader) (body : List Item) :
    Codes (function h body) (function h.bare (Item.allBare body)) := by
  refine MirrorsFrom.get.bind fun s => ?_
  have hnames : h.bare.params.map Param.name = h.params.map Param.name := List.map_map
  rw [hnames, h.name_bare, id]
  split
  · exact (items_bare body).bind fun _ => .pure rfl
  · exact .throw rfl

theorem functions_bare (ds : List Decl) : Codes (functions ds) (functions (ds.map Decl.bare)) := by
  induction ds with
  | nil => exact .pure rfl
  | cons d ds ih =>
      cases d with
      | function h s body => exact (function_bare h body).bind fun _ => ih.bind fun _ => .pure rfl
      | var _ | prototype _ => exact ih

end Coder

/-- A checked program without spans has the same code, and the same table comes with it. -/
theorem Program.ofChecked_bare (p : IntegerC.Program) (t : SymbolTable) :
    Mirrors id (ofChecked p t) (ofChecked p.bare t) :=
  (Coder.functions_bare p.decls ⟨t, 0, 0⟩).bind fun _ => .pure rfl

end IntegerC.ThreeAddress
