import IntegerC.Proofs.Checking

set_option autoImplicit false

/-! # How the symbol table grows

Checking a program changes the symbol table part by part, and what a part does to the table does
not depend on the statements around it. `Part.Records` says what one part can do, `Part.Recorded`
what a list of parts does, one after the other. A declaration that does not fit those before it is
refused: `Part.Refuses` says how one part is, and `Part.Refused` where in a list of parts.
-/

namespace IntegerC

/-! ## One part -/

def SymbolTable.withParams (t : SymbolTable) (ps : List Param) : SymbolTable :=
  ps.foldl (fun u p => u.put p.name (.automatic p.type)) t

/-- How a table changes when a part of a program is checked. -/
inductive Part.Records (t : SymbolTable) : Part → SymbolTable → Prop
  | span {s : Span} : Records t (.span s) t
  | loop {l : Option String} : Records t (.loop l) t
  | expr {e : Expr} : Records t (.expr e) t
  | fileVar {d : VarDecl} {value : Option Constant} {s : Symbol} (hv : d.staticValue? = .ok value)
      (hs : d.fileEntry value (t.find? d.name) = .ok s) : Records t (.fileVar d) (t.put d.name s)
  | external {d : VarDecl} (hs : d.storage = some .external) (hi : d.init = none)
      (hnew : t.find? d.name = none) :
      Records t (.var d) (t.put d.name ⟨.integer d.type, .static .absent true⟩)
  | known {d : VarDecl} {old : Symbol} (hs : d.storage = some .external) (hi : d.init = none)
      (hold : t.find? d.name = some old) (hτ : old.type = .integer d.type) : Records t (.var d) t
  | static {d : VarDecl} {value : Option Constant} (hs : d.storage = some .static)
      (hv : d.staticValue? = .ok value) :
      Records t (.var d)
        (t.put d.name ⟨.integer d.type, .static (.initial (value.getD (.zero d.type))) false⟩)
  | automatic {d : VarDecl} (hs : d.storage = none) :
      Records t (.var d) (t.put d.name (.automatic d.type))
  | prototype {f : FunHeader} {s : Symbol} (hs : f.entry false (t.find? f.name) = .ok s) :
      Records t (.prototype f) (t.put f.name s)
  | function {f : FunHeader} {s : Symbol} (hs : f.entry true (t.find? f.name) = .ok s) :
      Records t (.function f) (SymbolTable.withParams (t.put f.name s) f.params)

/-- How a table changes when the parts of a program are checked one after the other. -/
inductive Part.Recorded : SymbolTable → List Part → SymbolTable → Prop
  | nil {t : SymbolTable} : Recorded t [] t
  | cons {t u v : SymbolTable} {x : Part} {xs : List Part} (h : x.Records t u)
      (h' : Recorded u xs v) : Recorded t (x :: xs) v

namespace Part.Recorded

variable {t u v : SymbolTable} {x : Part} {xs ys : List Part}

theorem single (h : x.Records t u) : Recorded t [x] u := .cons h .nil

theorem append (h : Recorded t xs u) (h' : Recorded u ys v) : Recorded t (xs ++ ys) v := by
  induction h with
  | nil => exact h'
  | cons hx _ ih => exact .cons hx (ih h')

/-- A record of parts behind each other passes through the table between them. -/
theorem exists_of_append (h : Recorded t (xs ++ ys) v) :
    ∃ u, Recorded t xs u ∧ Recorded u ys v := by
  induction xs generalizing t with
  | nil => exact ⟨t, .nil, h⟩
  | cons x xs ih =>
      cases h with
      | cons hx hxs =>
          obtain ⟨u, hu, hv⟩ := ih hxs
          exact ⟨u, .cons hx hu, hv⟩

/-- Before and after the time at which a part is checked. -/
theorem exists_of_mem (h : Recorded t xs v) (hx : x ∈ xs) :
    ∃ before after u u', xs = before ++ x :: after ∧ Recorded t before u ∧ x.Records u u' ∧
      Recorded u' after v := by
  obtain ⟨before, after, rfl⟩ := List.append_of_mem hx
  obtain ⟨u, hbefore, hafter⟩ := h.exists_of_append
  cases hafter with
  | cons hx hafter => exact ⟨before, after, u, _, rfl, hbefore, hx, hafter⟩

end Part.Recorded

/-! ## Refusals -/

/-- The name whose declarations do not fit each other, if that is the cause. -/
def Cause.conflict? : Cause → Option String
  | .conflictingType y _ | .duplicateDefinition y | .conflictingLinkage y => some y
  | _ => none

/-- How a part of a program is refused since it does not fit what the table says. -/
inductive Part.Refuses (t : SymbolTable) : Part → Fault → Prop
  | fileVar {d : VarDecl} {value : Option Constant} {f : Fault} (hv : d.staticValue? = .ok value)
      (hf : d.fileEntry value (t.find? d.name) = .error f) : Refuses t (.fileVar d) f
  | external {d : VarDecl} {old : Symbol} (hs : d.storage = some .external)
      (hold : t.find? d.name = some old) (hτ : old.type ≠ .integer d.type) :
      Refuses t (.var d) ((Cause.conflictingType d.name old.type).at d.span)
  | prototype {h : FunHeader} {f : Fault} (hf : h.entry false (t.find? h.name) = .error f) :
      Refuses t (.prototype h) f
  | function {h : FunHeader} {f : Fault} (hf : h.entry true (t.find? h.name) = .error f) :
      Refuses t (.function h) f

/-- One of the parts is refused when they are checked one after the other. -/
inductive Part.Refused : SymbolTable → List Part → Fault → Prop
  | here {t : SymbolTable} {x : Part} {xs : List Part} {f : Fault} (h : x.Refuses t f) :
      Refused t (x :: xs) f
  | later {t u : SymbolTable} {x : Part} {xs : List Part} {f : Fault} (h : x.Records t u)
      (h' : Refused u xs f) : Refused t (x :: xs) f

namespace Part.Refused

variable {t u : SymbolTable} {xs ys : List Part} {f : Fault}

theorem append_left (h : Refused t xs f) : Refused t (xs ++ ys) f := by
  induction h with
  | here hx => exact .here hx
  | later hx _ ih => exact .later hx ih

theorem append_right (h : Recorded t xs u) (h' : Refused u ys f) : Refused t (xs ++ ys) f := by
  induction h with
  | nil => exact h'
  | cons hx _ ih => exact .later hx (ih h')

end Part.Refused

/-! ## The checker -/

def Fault.Unconflicting (f : Fault) : Prop := f.cause.conflict? = none

namespace Expr

/-- No expression is in conflict with a declaration. -/
theorem typeOf_blames (e : Expr) : Ensures e.typeOf Fault.Unconflicting (fun _ => True) := by
  unfold typeOf
  split
  · exact .pure trivial
  · exact .error rfl

mutual
/-- The faults of expressions are never conflicts of declarations. -/
theorem check_blames (t : SymbolTable) :
    (e : Expr) → Ensures (e.check t) Fault.Unconflicting (fun _ => True)
  | constant _ _ => .pure trivial
  | var n x => by
      rw [check]
      split
      · exact .error rfl
      · exact .error rfl
      · exact .pure trivial
  | cast n target a => by
      rw [check]
      exact (check_blames t a).bind fun a' _ => a'.typeOf_blames.bind fun _ _ => .pure trivial
  | unary n op a => by
      rw [check]
      exact (check_blames t a).bind fun a' _ => a'.typeOf_blames.bind fun _ _ => .pure trivial
  | binary n op a b => by
      rw [check]
      exact (check_blames t a).bind fun a' _ => (check_blames t b).bind fun b' _ =>
        a'.typeOf_blames.bind fun _ _ => b'.typeOf_blames.bind fun _ _ => .pure trivial
  | assignment n a b => by
      rw [check]
      exact (check_blames t a).bind fun a' _ => (check_blames t b).bind fun b' _ =>
        a'.typeOf_blames.bind fun _ _ => .pure trivial
  | conditional n a b c => by
      rw [check]
      exact (check_blames t a).bind fun a' _ => (check_blames t b).bind fun b' _ =>
        (check_blames t c).bind fun c' _ => a'.typeOf_blames.bind fun _ _ =>
          b'.typeOf_blames.bind fun _ _ => c'.typeOf_blames.bind fun _ _ => .pure trivial
  | call n f es => by
      rw [check]
      refine (checkAll_blames t es).bind fun es' _ => ?_
      split
      · exact .error rfl
      · exact .error rfl
      · exact .ite (fun _ => .error rfl) fun _ => .pure trivial
termination_by structural e => e

theorem checkAll_blames (t : SymbolTable) :
    (es : List Expr) → Ensures (checkAll t es) Fault.Unconflicting (fun _ => True)
  | [] => .pure trivial
  | e :: es => by
      rw [checkAll]
      exact (check_blames t e).bind fun _ _ => (checkAll_blames t es).bind fun _ _ => .pure trivial
termination_by structural es => es
end

end Expr

namespace Checker

variable {α β : Type} {t u : SymbolTable} {xs ys : List Part}

/-- The checker follows the parts: they are recorded one after the other, or one is refused. -/
def Follows (t : SymbolTable) (xs : List Part) (x : Checker α) : Prop :=
  Ensures (x.run t) (fun f => f.Unconflicting ∨ Part.Refused t xs f)
    (fun o => Part.Recorded t xs o.2)

namespace Follows

theorem pure (a : α) : Follows t [] (Pure.pure a : Checker α) := Ensures.run_pure .nil

theorem bind {x : Checker α} {g : α → Checker β} (h : Follows t xs x)
    (hg : ∀ a u, Part.Recorded t xs u → Follows u ys (g a)) : Follows t (xs ++ ys) (x >>= g) := by
  refine Ensures.run_bind (q := fun o => Part.Recorded t xs o.2) ?_ fun a u hu => ?_
  · exact h.mono (fun f hf => hf.imp_right .append_left) fun _ => id
  · exact (hg a u hu).mono (fun f hf => hf.imp_right (.append_right hu)) fun _ => hu.append

/-- What is made of the result at the end changes nothing. -/
theorem bind_pure {x : Checker α} {g : α → β} (h : Follows t xs x) :
    Follows t xs (x >>= fun a => Pure.pure (g a)) :=
  Ensures.run_bind h fun _ _ hu => .run_pure hu

theorem map {x : Checker α} {g : α → β} (h : Follows t xs x) : Follows t xs (g <$> x) :=
  Ensures.run_map h

/-- A part that leaves the table as it is. -/
theorem cons {x : Part} {c : Checker α} (hx : x.Records t t) (h : Follows t xs c) :
    Follows t (x :: xs) c :=
  h.mono (fun _ hf => hf.imp_right (.later hx)) fun _ => .cons hx

theorem span {s : Span} {c : Checker α} (h : Follows t xs c) : Follows t (.span s :: xs) c :=
  .cons .span h

end Follows

theorem expr_follows (e : Expr) : Follows t [.expr e] (expr e) := by
  refine Ensures.run_lift_last ?_
  exact (e.check_blames t).mono (fun _ => .inl) fun _ _ => .single .expr

theorem exprAs_follows (τ : IntType) (e : Expr) : Follows t [.expr e] (exprAs τ e) :=
  (expr_follows e).bind_pure

theorem optionalExpr_follows (o : Option Expr) :
    Follows t (Part.optional o) (optionalExpr o) := by
  cases o with
  | none => exact .pure _
  | some e => exact (expr_follows e).map

/-- Expressions are checked against the table and do not change it. -/
theorem exprAs_keeps (τ : IntType) (e : Expr) :
    Ensures ((exprAs τ e).run t) Fault.Unconflicting (fun o => o.2 = t) := by
  refine Ensures.run_bind (q := fun o => o.2 = t) (.run_lift_last ?_) fun _ _ h => .run_pure h
  exact (e.check_blames t).imp fun _ _ => rfl

theorem staticValue?_follows (d : VarDecl) :
    Ensures d.staticValue? (fun f => f.Unconflicting ∨ Part.Refused t xs f)
      (fun value => d.staticValue? = .ok value) :=
  have hblames : Ensures d.staticValue? Fault.Unconflicting (fun _ => True) :=
    VarDecl.staticValue?_blames (fun _ _ _ _ _ => rfl) fun _ _ => rfl
  (Ensures.outcome _).mono (fun _ hf => .inl (hblames.bad_of_eq hf)) fun _ => id

theorem fileVar_follows (d : VarDecl) : Follows t [.fileVar d] (fileVar d) := by
  rw [fileVar]
  refine Ensures.run_lift (staticValue?_follows d) fun value hv => .run_get ?_
  refine .run_lift ((Ensures.outcome _).mono (fun f hf => .inr (.here (.fileVar hv hf)))
    fun _ => id) fun s hs => ?_
  exact .run_modify (.run_pure (.single (.fileVar hv hs)))

/-- A local variable is recorded before its initializer is checked, and only an external one can
conflict. -/
theorem localVar_follows (d : VarDecl) : Follows t [.var d] (localVar d) := by
  rw [localVar]
  split
  · rename_i hs
    split
    · exact Ensures.run_throw (.inl rfl)
    · rename_i hi
      refine Ensures.run_get ?_
      split
      · rename_i hnew
        exact .run_modify (.run_pure (.single (.external hs hi hnew)))
      · rename_i old hold
        exact .run_ite (fun hτ => .run_pure (.single (.known hs hi hold hτ))) fun hτ =>
          .run_throw (.inr (.here (.external hs hold hτ)))
  · rename_i hs
    refine Ensures.run_lift (staticValue?_follows d) fun value hv => ?_
    exact .run_modify (.run_pure (.single (.static hs hv)))
  · rename_i hs
    refine Ensures.run_modify ?_
    split
    · exact .run_pure (.single (.automatic hs))
    · rename_i e _
      -- the initializer is checked when the name is known, and that changes nothing
      refine ((exprAs_keeps d.type e).mono (fun _ => .inl) fun _ => id).run_bind fun e' u hu => ?_
      exact .run_pure (hu ▸ .single (.automatic hs))

theorem run_params (ps : List Param) (t : SymbolTable) :
    (params ps).run t = .ok ((), SymbolTable.withParams t ps) := by
  induction ps generalizing t with
  | nil => rfl
  | cons q ps ih => exact ih _

theorem function_outcome (f : FunHeader) (defines : Bool) :
    Ensures ((function f defines).run t)
      (fun fault => f.entry defines (t.find? f.name) = .error fault)
      (fun o => ∃ s, f.entry defines (t.find? f.name) = .ok s ∧ o.2 = t.put f.name s) := by
  rw [function]
  exact .run_get (.run_lift (Ensures.outcome _) fun s hs => .run_pure ⟨s, hs, rfl⟩)

theorem prototype_follows {f : FunHeader} {a : α} :
    Follows t [.prototype f] (do function f false; return a) := by
  refine Ensures.run_bind (q := fun o => ∃ s, f.entry false (t.find? f.name) = .ok s ∧
    o.2 = t.put f.name s) ?_ ?_
  · exact (function_outcome f false).mono (fun _ hf => .inr (.here (.prototype hf))) fun _ => id
  · rintro _ _ ⟨s, hs, rfl⟩
    exact .run_pure (.single (.prototype hs))

/-- Whatever is done after a function and its parameters are recorded. -/
theorem definition_follows {x : Checker α} {f : FunHeader} (hx : ∀ u, Follows u xs x) :
    Follows t (.function f :: xs) (do function f true; params f.params; x) := by
  refine Ensures.run_bind (q := fun o => ∃ s, f.entry true (t.find? f.name) = .ok s ∧
    o.2 = t.put f.name s) ?_ ?_
  · exact (function_outcome f true).mono (fun _ hf => .inr (.here (.function hf))) fun _ => id
  rintro _ _ ⟨s, hs, rfl⟩
  refine Ensures.run_bind (q := fun o => o.2 = SymbolTable.withParams (t.put f.name s) f.params)
    ?_ ?_
  · rw [run_params]
    exact .pure rfl
  · rintro _ _ rfl
    exact (hx _).mono (fun _ hf => hf.imp_right (.later (.function hs)))
      fun o ho => .cons (.function hs) ho

theorem forInit_follows (i : ForInit) : Follows t i.parts (forInit i) := by
  cases i with
  | nothing => exact .pure _
  | decl d => exact (localVar_follows d).bind_pure
  | expr e => exact (expr_follows e).bind_pure

/-! ### Statements -/

mutual
/-- The parts of a statement are recorded in the order in which they stand in it. -/
theorem stmt_follows (result : IntType) :
    (c : Stmt) → ∀ t : SymbolTable, Follows t c.parts (stmt result c)
  | .ret _ e, t => by
      rw [stmt]
      exact .span (exprAs_follows result e).bind_pure
  | .expr _ e, t => by
      rw [stmt]
      exact .span (expr_follows e).bind_pure
  | .ifThen _ e yes, t => by
      rw [stmt]
      exact .span ((expr_follows e).bind fun _ u _ => (stmt_follows result yes u).bind_pure)
  | .ifElse _ e yes no, t => by
      rw [stmt]
      exact .span ((expr_follows e).bind fun _ u _ => (stmt_follows result yes u).bind fun _ u' _ =>
        (stmt_follows result no u').bind_pure)
  | .block _ is, t => by
      rw [stmt]
      exact .span (items_follow result is t).bind_pure
  | .whileLoop _ _ e body, t => by
      rw [stmt]
      exact .span (.cons .loop ((expr_follows e).bind fun _ u _ =>
        (stmt_follows result body u).bind_pure))
  | .doLoop _ _ body e, t => by
      rw [stmt]
      exact .span (.cons .loop ((stmt_follows result body t).bind fun _ u _ =>
        (expr_follows e).bind_pure))
  | .forLoop _ _ init e post body, t => by
      rw [stmt]
      exact .span (.cons .loop ((forInit_follows init).bind fun _ _ _ =>
        (optionalExpr_follows e).bind fun _ _ _ => (optionalExpr_follows post).bind fun _ u _ =>
          (stmt_follows result body u).bind_pure))
  | .breakLoop _ _, _ | .continueLoop _ _, _ | .null _, _ => .span (.pure _)
termination_by structural c => c

theorem item_follows (result : IntType) :
    (i : Item) → ∀ t : SymbolTable, Follows t i.parts (item result i)
  | .stmt c, t => by
      rw [item]
      exact (stmt_follows result c t).bind_pure
  | .decl (.var d), t => by
      rw [item]
      exact (localVar_follows d).bind_pure
  | .decl (.prototype f), t => by
      rw [item]
      exact prototype_follows
  | .decl (.function f _ body), t => by
      rw [item]
      exact definition_follows fun u => .span (items_follow f.result body u).bind_pure
termination_by structural i => i

theorem items_follow (result : IntType) :
    (is : List Item) → ∀ t : SymbolTable, Follows t (Item.allParts is) (items result is)
  | [], _ => .pure _
  | i :: is, t => by
      rw [items]
      exact (item_follows result i t).bind fun _ u _ => (items_follow result is u).bind_pure
termination_by structural is => is
end

/-! ### Declarations of the file scope -/

theorem decl_follows (d : Decl) : Follows t d.parts (decl d) := by
  cases d with
  | var d => exact (fileVar_follows d).bind_pure
  | prototype f => exact prototype_follows
  | function f s body =>
      exact definition_follows fun u => .span (items_follow f.result body u).bind_pure

theorem decls_follow (ds : List Decl) :
    ∀ t : SymbolTable, Follows t (ds.flatMap Decl.parts) (decls ds) := by
  induction ds with
  | nil => exact fun _ => .pure _
  | cons d ds ih =>
      intro t
      rw [decls, List.flatMap_cons]
      exact (decl_follows d).bind fun _ u _ => (ih u).bind_pure

end Checker

/-- Checking a program follows its parts. -/
theorem Program.check_follows (p : Program) (t : SymbolTable) :
    Ensures (p.check t) (fun f => f.Unconflicting ∨ Part.Refused t p.parts f)
      (fun r => Part.Recorded t p.parts r.2) :=
  Ensures.bind (Checker.decls_follow p.decls t) fun _ h => .pure h

/-- Checking a program changes the table as its parts do, one after the other. -/
theorem Program.check_records (p : Program) (t : SymbolTable) :
    Answers (p.check t) (fun r => Part.Recorded t p.parts r.2) :=
  (p.check_follows t).answers

end IntegerC
