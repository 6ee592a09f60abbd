import IntegerC.Loop
import IntegerC.Proofs.Respacing.Mirroring
import IntegerC.Scope

set_option autoImplicit false

/-! # Names and loops without spans

Unique names are numbered in the order of declarations, and labels in the order of loops. Neither
looks at spans, which go into faults only.
-/

namespace IntegerC

/-! ## Scopes -/

namespace Expr

mutual
/-- Which binding a name has depends on the scopes only. -/
theorem resolve_bare (s : Scope) :
    (e : Expr) → Mirrors bare (e.resolve s) (e.bare.resolve s)
  | constant _ _ => .pure rfl
  | var n x => by
      rw [bare, resolve, resolve]
      cases s.find? x with
      | none => exact .error rfl
      | some b => exact .pure rfl
  | cast _ _ a | unary _ _ a => by
      rw [bare, resolve, resolve]
      exact (resolve_bare s a).bind fun _ => .pure rfl
  | binary _ _ a b => by
      rw [bare, resolve, resolve]
      exact (resolve_bare s a).bind fun _ => (resolve_bare s b).bind fun _ => .pure rfl
  | assignment _ a b => by
      rw [bare, resolve, resolve]
      refine (resolve_bare s a).bind fun a' => (resolve_bare s b).bind fun _ => ?_
      rw [isVar_bare]
      refine .ite (fun _ => .pure rfl) fun _ => .error ?_
      rw [span_bare]
      rfl
  | conditional _ a b c => by
      rw [bare, resolve, resolve]
      exact (resolve_bare s a).bind fun _ => (resolve_bare s b).bind fun _ =>
        (resolve_bare s c).bind fun _ => .pure rfl
  | call _ f es => by
      rw [bare, resolve, resolve]
      refine (resolveAll_bare s es).bind fun es' => ?_
      cases s.find? f with
      | none => exact .error rfl
      | some b => exact .pure rfl
termination_by structural e => e

theorem resolveAll_bare (s : Scope) :
    (es : List Expr) → Mirrors allBare (resolveAll s es) (resolveAll s (allBare es))
  | [] => .pure rfl
  | e :: es => by
      rw [allBare, resolveAll, resolveAll]
      exact (resolve_bare s e).bind fun _ => (resolveAll_bare s es).bind fun _ => .pure rfl
termination_by structural es => es
end

end Expr

namespace Resolver

/-- Without spans the pass `x'` does what `x` does. -/
abbrev Resolves {α α' : Type} (f : α → α') (x : Resolver α) (x' : Resolver α') : Prop :=
  MirrorsFrom id f x x'

theorem inScope_bare {α α' : Type} {f : α → α'} {x : Resolver α} {x' : Resolver α'}
    (h : Resolves f x x') : Resolves f (inScope x) (inScope x') :=
  MirrorsFrom.update_id.bind fun _ => h.bind fun _ => MirrorsFrom.update_id.bind fun _ => .pure rfl

theorem declareLinked_bare (x : String) : Resolves id (declareLinked x) (declareLinked x) :=
  .update_id

theorem declareUnique_bare (x : String) : Resolves id (declareUnique x) (declareUnique x) :=
  MirrorsFrom.get.bind fun _ => MirrorsFrom.set.bind fun _ => .pure rfl

theorem expr_bare (e : Expr) : Resolves Expr.bare (expr e) (expr e.bare) :=
  MirrorsFrom.get.bind fun r => .lift (e.resolve_bare r.scope)

theorem optionalExpr_bare (o : Option Expr) :
    Resolves (Option.map Expr.bare) (optionalExpr o) (optionalExpr (o.map Expr.bare)) := by
  cases o with
  | none => exact .pure rfl
  | some e => exact (expr_bare e).map fun _ => rfl

theorem localVar_bare (d : VarDecl) : Resolves VarDecl.bare (localVar d) (localVar d.bare) := by
  refine MirrorsFrom.get.bind fun r => .ite (fun _ => .throw rfl) fun _ =>
    .ite (fun _ => (declareLinked_bare _).bind fun _ => .pure rfl) fun _ => ?_
  exact (declareUnique_bare _).bind fun _ => (optionalExpr_bare d.init).bind fun _ => .pure rfl

theorem param_bare (p : Param) : Resolves Param.bare (param p) (param p.bare) :=
  MirrorsFrom.get.bind fun _ => .ite (fun _ => .throw rfl) fun _ =>
    (declareUnique_bare _).bind fun _ => .pure rfl

theorem params_bare (ps : List Param) :
    Resolves (List.map Param.bare) (params ps) (params (ps.map Param.bare)) := by
  induction ps with
  | nil => exact .pure rfl
  | cons p ps ih => exact (param_bare p).bind fun _ => ih.bind fun _ => .pure rfl

theorem functionName_bare (h : FunHeader) :
    Resolves id (functionName h) (functionName h.bare) :=
  MirrorsFrom.get.bind fun _ => .ite (fun _ => .throw rfl) fun _ => declareLinked_bare _

theorem prototype_bare (h : FunHeader) :
    Resolves FunHeader.bare (prototype h) (prototype h.bare) :=
  (functionName_bare h).bind fun _ =>
    inScope_bare ((params_bare h.params).bind fun _ => .pure rfl)

theorem forInit_bare (i : ForInit) : Resolves ForInit.bare (forInit i) (forInit i.bare) := by
  cases i with
  | nothing => exact .pure rfl
  | decl d =>
      exact .ite (fun _ => .throw rfl) fun _ => (localVar_bare d).bind fun _ => .pure rfl
  | expr e => exact (expr_bare e).bind fun _ => .pure rfl

mutual
/-- Statements open and close the same scopes with and without spans. -/
theorem stmt_bare : (s : Stmt) → Resolves Stmt.bare (stmt s) (stmt s.bare)
  | .ret _ e | .expr _ e => by
      rw [Stmt.bare, stmt, stmt]
      exact (expr_bare e).bind fun _ => .pure rfl
  | .ifThen _ c yes => by
      rw [Stmt.bare, stmt, stmt]
      exact (expr_bare c).bind fun _ => (stmt_bare yes).bind fun _ => .pure rfl
  | .ifElse _ c yes no => by
      rw [Stmt.bare, stmt, stmt]
      exact (expr_bare c).bind fun _ => (stmt_bare yes).bind fun _ => (stmt_bare no).bind fun _ =>
        .pure rfl
  | .block _ is => by
      rw [Stmt.bare, stmt, stmt]
      exact (inScope_bare (items_bare is)).bind fun _ => .pure rfl
  | .whileLoop _ _ c body => by
      rw [Stmt.bare, stmt, stmt]
      exact (expr_bare c).bind fun _ => (stmt_bare body).bind fun _ => .pure rfl
  | .doLoop _ _ body c => by
      rw [Stmt.bare, stmt, stmt]
      exact (stmt_bare body).bind fun _ => (expr_bare c).bind fun _ => .pure rfl
  | .forLoop _ _ init c post body => by
      rw [Stmt.bare, stmt, stmt]
      exact inScope_bare ((forInit_bare init).bind fun _ => (optionalExpr_bare c).bind fun _ =>
        (optionalExpr_bare post).bind fun _ => (stmt_bare body).bind fun _ => .pure rfl)
  | .breakLoop _ _ | .continueLoop _ _ | .null _ => .pure rfl
termination_by structural s => s

theorem item_bare : (i : Item) → Resolves Item.bare (item i) (item i.bare)
  | .stmt s => by
      rw [Item.bare, item, item]
      exact (stmt_bare s).bind fun _ => .pure rfl
  | .decl (.var d) => by
      rw [Item.bare, Decl.bare, item, item]
      exact (localVar_bare d).bind fun _ => .pure rfl
  | .decl (.prototype h) => by
      rw [Item.bare, Decl.bare, item, item]
      exact .ite (fun _ => .throw rfl) fun _ => (prototype_bare h).bind fun _ => .pure rfl
  | .decl (.function _ _ _) => .throw rfl
termination_by structural i => i

theorem items_bare : (is : List Item) → Resolves Item.allBare (items is) (items (Item.allBare is))
  | [] => .pure rfl
  | i :: is => by
      rw [Item.allBare, items, items]
      exact (item_bare i).bind fun _ => (items_bare is).bind fun _ => .pure rfl
termination_by structural is => is
end

theorem decl_bare (d : Decl) : Resolves Decl.bare (decl d) (decl d.bare) := by
  cases d with
  | var d => exact (declareLinked_bare _).bind fun _ => .pure rfl
  | prototype h => exact (prototype_bare h).bind fun _ => .pure rfl
  | function h s body =>
      exact (functionName_bare h).bind fun _ => inScope_bare
        ((params_bare h.params).bind fun _ => (items_bare body).bind fun _ => .pure rfl)

theorem decls_bare (ds : List Decl) :
    Resolves (List.map Decl.bare) (decls ds) (decls (ds.map Decl.bare)) := by
  induction ds with
  | nil => exact .pure rfl
  | cons d ds ih => exact (decl_bare d).bind fun _ => ih.bind fun _ => .pure rfl

end Resolver

theorem Program.resolve_bare (p : Program) : Mirrors bare p.resolve p.bare.resolve :=
  ((Resolver.decls_bare p.decls).run' _).bind fun _ => .pure rfl

/-! ## Loops -/

namespace LoopNamer

abbrev Labels {α α' : Type} (f : α → α') (x : LoopNamer α) (x' : LoopNamer α') : Prop :=
  MirrorsFrom id f x x'

theorem fresh_bare (word : String) : Labels id (fresh word) (fresh word) :=
  MirrorsFrom.get.bind fun _ => MirrorsFrom.set.bind fun _ => .pure rfl

mutual
/-- Which loop a jump belongs to depends on the loops around it only. -/
theorem stmt_bare (loop : Option String) :
    (s : Stmt) → Labels Stmt.bare (stmt loop s) (stmt loop s.bare)
  | .breakLoop _ _ | .continueLoop _ _ => by
      cases loop with
      | none => exact .throw rfl
      | some label => exact .pure rfl
  | .whileLoop _ _ _ body | .doLoop _ _ body _ | .forLoop _ _ _ _ _ body => by
      rw [Stmt.bare, stmt, stmt]
      exact (fresh_bare _).bind fun label => (stmt_bare (some label) body).bind fun _ => .pure rfl
  | .ifThen _ _ yes => by
      rw [Stmt.bare, stmt, stmt]
      exact (stmt_bare loop yes).bind fun _ => .pure rfl
  | .ifElse _ _ yes no => by
      rw [Stmt.bare, stmt, stmt]
      exact (stmt_bare loop yes).bind fun _ => (stmt_bare loop no).bind fun _ => .pure rfl
  | .block _ is => by
      rw [Stmt.bare, stmt, stmt]
      exact (items_bare loop is).bind fun _ => .pure rfl
  | .ret _ _ | .expr _ _ | .null _ => .pure rfl
termination_by structural s => s

theorem item_bare (loop : Option String) :
    (i : Item) → Labels Item.bare (item loop i) (item loop i.bare)
  | .stmt s => by
      rw [Item.bare, item, item]
      exact (stmt_bare loop s).bind fun _ => .pure rfl
  | .decl _ => .pure rfl
termination_by structural i => i

theorem items_bare (loop : Option String) :
    (is : List Item) → Labels Item.allBare (items loop is) (items loop (Item.allBare is))
  | [] => .pure rfl
  | i :: is => by
      rw [Item.allBare, items, items]
      exact (item_bare loop i).bind fun _ => (items_bare loop is).bind fun _ => .pure rfl
termination_by structural is => is
end

/-- Loops are numbered alike without spans. -/
theorem decls_bare (ds : List Decl) :
    Labels (List.map Decl.bare) (decls ds) (decls (ds.map Decl.bare)) := by
  induction ds with
  | nil => exact .pure rfl
  | cons d ds ih =>
      cases d with
      | function h s body =>
          exact (items_bare none body).bind fun _ => ih.bind fun _ => .pure rfl
      | var _ | prototype _ => exact ih.bind fun _ => .pure rfl

end LoopNamer

theorem Program.nameLoops_bare (p : Program) : Mirrors bare p.nameLoops p.bare.nameLoops :=
  ((LoopNamer.decls_bare p.decls).run' _).bind fun _ => .pure rfl

end IntegerC
