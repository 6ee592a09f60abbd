import IntegerC.Proofs.Lexing
import IntegerC.Proofs.LoopNames
import IntegerC.Scope
import IntegerC.Syntax.Parser
import IntegerC.Typing

set_option autoImplicit false

/-! # Labels and the other passes

Resolving names and giving types both walk through statements, and carry labels along without
looking at one. Labelling walks through them as well and looks at nothing else. So the loops of a
program may be labelled before or after either of the two, with the same result.
-/

namespace IntegerC

/-! ## Walks -/

/-- A pass through the statements of a function that looks at no label. What it does at expressions,
at headers of `for` loops and at declarations is left open; `enter` and `leave` stand around what
has a scope of its own. -/
structure Walk (σ : Type) where
  expr : Expr → StateT σ (Except Fault) Expr
  returned : Expr → StateT σ (Except Fault) Expr
  header : ForInit → Option Expr → Option Expr →
    StateT σ (Except Fault) (ForInit × Option Expr × Option Expr)
  enter : StateT σ (Except Fault) PUnit
  leave : StateT σ (Except Fault) PUnit
  stmt : Stmt → StateT σ (Except Fault) Stmt
  item : Item → StateT σ (Except Fault) Item
  items : List Item → StateT σ (Except Fault) (List Item)
  stmt_ret : ∀ s e, stmt (.ret s e) = do
    return .ret s (← returned e)
  stmt_expr : ∀ s e, stmt (.expr s e) = do
    return .expr s (← expr e)
  stmt_ifThen : ∀ s e yes, stmt (.ifThen s e yes) = do
    let e' ← expr e
    return .ifThen s e' (← stmt yes)
  stmt_ifElse : ∀ s e yes no, stmt (.ifElse s e yes no) = do
    let e' ← expr e
    let yes' ← stmt yes
    return .ifElse s e' yes' (← stmt no)
  stmt_block : ∀ s is, stmt (.block s is) = do
    enter
    let is' ← items is
    leave
    return .block s is'
  stmt_whileLoop : ∀ s label e body, stmt (.whileLoop s label e body) = do
    let e' ← expr e
    return .whileLoop s label e' (← stmt body)
  stmt_doLoop : ∀ s label body e, stmt (.doLoop s label body e) = do
    let body' ← stmt body
    return .doLoop s label body' (← expr e)
  stmt_forLoop : ∀ s label init e post body, stmt (.forLoop s label init e post body) = do
    enter
    let h ← header init e post
    let body' ← stmt body
    leave
    return .forLoop s label h.1 h.2.1 h.2.2 body'
  stmt_breakLoop : ∀ s label, stmt (.breakLoop s label) = pure (.breakLoop s label)
  stmt_continueLoop : ∀ s label, stmt (.continueLoop s label) = pure (.continueLoop s label)
  stmt_null : ∀ s, stmt (.null s) = pure (.null s)
  item_stmt : ∀ s, item (.stmt s) = do
    return .stmt (← stmt s)
  item_decl : ∀ d r, Answers ((item (.decl d)).run r) fun o => ∃ d', o.1 = .decl d'
  items_nil : items [] = pure []
  items_cons : ∀ i is, items (i :: is) = do
    let i' ← item i
    return i' :: (← items is)

/-- The walk that gives unique names. -/
def Resolver.walk : Walk Resolution where
  expr := expr
  returned := expr
  header init e post := do
    let init' ← forInit init
    let e' ← optionalExpr e
    return (init', e', ← optionalExpr post)
  enter := modify fun r => { r with scope := [] :: r.scope }
  leave := modify fun r => { r with scope := r.scope.tail }
  stmt := stmt
  item := item
  items := items
  stmt_ret _ _ := rfl
  stmt_expr _ _ := rfl
  stmt_ifThen _ _ _ := rfl
  stmt_ifElse _ _ _ _ := rfl
  stmt_block s is := by simp only [stmt, inScope, bind_assoc, pure_bind]
  stmt_whileLoop _ _ _ _ := rfl
  stmt_doLoop _ _ _ _ := rfl
  stmt_forLoop s label init e post body := by simp only [stmt, inScope, bind_assoc, pure_bind]
  stmt_breakLoop _ _ := rfl
  stmt_continueLoop _ _ := rfl
  stmt_null _ := rfl
  item_stmt _ := rfl
  item_decl d r := by
    cases d with
    | var d => exact .run_bind (.self _) fun _ _ _ => .run_pure ⟨_, rfl⟩
    | prototype h =>
        refine .run_ite (fun _ => .run_throw trivial) fun _ => ?_
        exact .run_bind (.self _) fun _ _ _ => .run_pure ⟨_, rfl⟩
    | function h s body => exact .run_throw trivial
  items_nil := rfl
  items_cons _ _ := rfl

/-- The walk that gives types in a function that returns type `result`. -/
def Checker.walk (result : IntType) : Walk SymbolTable where
  expr := expr
  returned := exprAs result
  header init e post := do
    let init' ← forInit init
    let e' ← optionalExpr e
    return (init', e', ← optionalExpr post)
  enter := pure ⟨⟩
  leave := pure ⟨⟩
  stmt := stmt result
  item := item result
  items := items result
  stmt_ret _ _ := rfl
  stmt_expr _ _ := rfl
  stmt_ifThen _ _ _ := rfl
  stmt_ifElse _ _ _ _ := rfl
  stmt_block _ _ := rfl
  stmt_whileLoop _ _ _ _ := rfl
  stmt_doLoop _ _ _ _ := rfl
  stmt_forLoop s label init e post body := by simp only [stmt, bind_assoc, pure_bind]
  stmt_breakLoop _ _ := rfl
  stmt_continueLoop _ _ := rfl
  stmt_null _ := rfl
  item_stmt _ := rfl
  item_decl d r := by
    cases d with
    | var d => exact .run_bind (.self _) fun _ _ _ => .run_pure ⟨_, rfl⟩
    | prototype h => exact .run_bind (.self _) fun _ _ _ => .run_pure ⟨_, rfl⟩
    | function h s body =>
        refine .run_bind (.self _) fun _ _ _ => .run_bind (.self _) fun _ _ _ => ?_
        exact .run_bind (.self _) fun _ _ _ => .run_pure ⟨_, rfl⟩
  items_nil := rfl
  items_cons _ _ := rfl

/-! ## Labels before or after a walk -/

/-- Where both `pass` and the labelling of `a` succeed, labelling what `pass` answers and passing
what labelling answers succeed as well, with one result. -/
def Commutes {σ α : Type} (pass : α → StateT σ (Except Fault) α)
    (label : Option String → α → LoopNamer α) (a : α) : Prop :=
  ∀ r, Answers ((pass a).run r) fun o => ∀ loop n, Answers ((label loop a).run n) fun l =>
    ∃ b, (label loop o.1).run n = .ok (b, l.2) ∧ (pass l.1).run r = .ok (b, o.2)

namespace Walk

variable {σ : Type} (w : Walk σ)

mutual
/-- By cases on the statement. In each case the pass is done and then the labelling, or the other
way round, and both meet in one statement. -/
theorem stmt_commutes : (s : Stmt) → Commutes w.stmt LoopNamer.stmt s
  | .ret s e => fun r => by
      rw [w.stmt_ret]
      refine .run_bind (.self _) fun e' r₁ he => .run_pure fun loop n => .run_pure ?_
      refine ⟨.ret s e', rfl, ?_⟩
      rw [w.stmt_ret]
      exact run_bind_of_eq he rfl
  | .expr s e => fun r => by
      rw [w.stmt_expr]
      refine .run_bind (.self _) fun e' r₁ he => .run_pure fun loop n => .run_pure ?_
      refine ⟨.expr s e', rfl, ?_⟩
      rw [w.stmt_expr]
      exact run_bind_of_eq he rfl
  | .ifThen s e yes => fun r => by
      rw [w.stmt_ifThen]
      refine .run_bind (.self _) fun e' r₁ he => ?_
      refine .run_bind (stmt_commutes yes r₁) fun yes' r₂ hyes => .run_pure fun loop n => ?_
      refine .run_bind (hyes loop n) fun _ _ ⟨yes'', hlabel, hpass⟩ => .run_pure ?_
      refine ⟨.ifThen s e' yes'', run_bind_of_eq hlabel rfl, ?_⟩
      rw [w.stmt_ifThen]
      exact run_bind_of_eq he (run_bind_of_eq hpass rfl)
  | .ifElse s e yes no => fun r => by
      rw [w.stmt_ifElse]
      refine .run_bind (.self _) fun e' r₁ he => ?_
      refine .run_bind (stmt_commutes yes r₁) fun yes' r₂ hyes => ?_
      refine .run_bind (stmt_commutes no r₂) fun no' r₃ hno => .run_pure fun loop n => ?_
      refine .run_bind (hyes loop n) fun _ n₁ ⟨yes'', hlabel, hpass⟩ => ?_
      refine .run_bind (hno loop n₁) fun _ _ ⟨no'', hlabel', hpass'⟩ => .run_pure ?_
      refine ⟨.ifElse s e' yes'' no'', run_bind_of_eq hlabel (run_bind_of_eq hlabel' rfl), ?_⟩
      rw [w.stmt_ifElse]
      exact run_bind_of_eq he (run_bind_of_eq hpass (run_bind_of_eq hpass' rfl))
  | .block s is => fun r => by
      rw [w.stmt_block]
      refine .run_bind (.self _) fun _ r₁ henter => ?_
      refine .run_bind (items_commute is r₁) fun is' r₂ his => ?_
      refine .run_bind (.self _) fun _ r₃ hleave => .run_pure fun loop n => ?_
      refine .run_bind (his loop n) fun _ _ ⟨is'', hlabel, hpass⟩ => .run_pure ?_
      refine ⟨.block s is'', run_bind_of_eq hlabel rfl, ?_⟩
      rw [w.stmt_block]
      exact run_bind_of_eq henter (run_bind_of_eq hpass (run_bind_of_eq hleave rfl))
  | .whileLoop s label e body => fun r => by
      rw [w.stmt_whileLoop]
      refine .run_bind (.self _) fun e' r₁ he => ?_
      refine .run_bind (stmt_commutes body r₁) fun body' r₂ hbody => .run_pure fun loop n => ?_
      refine .run_bind (.self _) fun label' n₁ hfresh => ?_
      refine .run_bind (hbody (some label') n₁) fun _ _ ⟨body'', hlabel, hpass⟩ => .run_pure ?_
      refine ⟨.whileLoop s label' e' body'', run_bind_of_eq hfresh (run_bind_of_eq hlabel rfl), ?_⟩
      rw [w.stmt_whileLoop]
      exact run_bind_of_eq he (run_bind_of_eq hpass rfl)
  | .doLoop s label body e => fun r => by
      rw [w.stmt_doLoop]
      refine .run_bind (stmt_commutes body r) fun body' r₁ hbody => ?_
      refine .run_bind (.self _) fun e' r₂ he => .run_pure fun loop n => ?_
      refine .run_bind (.self _) fun label' n₁ hfresh => ?_
      refine .run_bind (hbody (some label') n₁) fun _ _ ⟨body'', hlabel, hpass⟩ => .run_pure ?_
      refine ⟨.doLoop s label' body'' e', run_bind_of_eq hfresh (run_bind_of_eq hlabel rfl), ?_⟩
      rw [w.stmt_doLoop]
      exact run_bind_of_eq hpass (run_bind_of_eq he rfl)
  | .forLoop s label init e post body => fun r => by
      rw [w.stmt_forLoop]
      refine .run_bind (.self _) fun _ r₁ henter => ?_
      refine .run_bind (.self _) fun h r₂ hheader => ?_
      refine .run_bind (stmt_commutes body r₂) fun body' r₃ hbody => ?_
      refine .run_bind (.self _) fun _ r₄ hleave => .run_pure fun loop n => ?_
      refine .run_bind (.self _) fun label' n₁ hfresh => ?_
      refine .run_bind (hbody (some label') n₁) fun _ _ ⟨body'', hlabel, hpass⟩ => .run_pure ?_
      refine ⟨.forLoop s label' h.1 h.2.1 h.2.2 body'',
        run_bind_of_eq hfresh (run_bind_of_eq hlabel rfl), ?_⟩
      rw [w.stmt_forLoop]
      exact run_bind_of_eq henter (run_bind_of_eq hheader (run_bind_of_eq hpass
        (run_bind_of_eq hleave rfl)))
  -- outside of a loop no label is found, and there is nothing to show
  | .breakLoop s _ => fun r => by
      rw [w.stmt_breakLoop]
      refine .run_pure fun loop n => ?_
      cases loop with
      | none => exact .run_throw trivial
      | some label => exact .run_pure ⟨_, rfl, by rw [w.stmt_breakLoop]; rfl⟩
  | .continueLoop s _ => fun r => by
      rw [w.stmt_continueLoop]
      refine .run_pure fun loop n => ?_
      cases loop with
      | none => exact .run_throw trivial
      | some label => exact .run_pure ⟨_, rfl, by rw [w.stmt_continueLoop]; rfl⟩
  | .null s => fun r => by
      rw [w.stmt_null]
      refine .run_pure fun loop n => .run_pure ⟨_, rfl, ?_⟩
      rw [w.stmt_null]
      rfl
termination_by structural s => s

/-- A function inside a block has no loops of its own to label there. -/
theorem item_commutes : (i : Item) → Commutes w.item LoopNamer.item i
  | .stmt s => fun r => by
      rw [w.item_stmt]
      refine .run_bind (stmt_commutes s r) fun s' r₁ hs => .run_pure fun loop n => ?_
      refine .run_bind (hs loop n) fun _ _ ⟨s'', hlabel, hpass⟩ => .run_pure ?_
      refine ⟨.stmt s'', run_bind_of_eq hlabel rfl, ?_⟩
      rw [w.item_stmt]
      exact run_bind_of_eq hpass rfl
  | .decl d => fun r => by
      refine ((w.item_decl d r).and (.self _)).imp ?_
      rintro ⟨i', r₁⟩ ⟨⟨d', rfl⟩, hd⟩
      exact fun loop n => .run_pure ⟨.decl d', rfl, hd⟩
termination_by structural i => i

/-- The items are passed and labelled one after the other. The states of the two passes do not
mix. -/
theorem items_commute : (is : List Item) → Commutes w.items LoopNamer.items is
  | [] => fun r => by
      rw [w.items_nil]
      refine .run_pure fun loop n => .run_pure ⟨[], rfl, ?_⟩
      rw [w.items_nil]
      rfl
  | i :: is => fun r => by
      rw [w.items_cons]
      refine .run_bind (item_commutes i r) fun i' r₁ hi => ?_
      refine .run_bind (items_commute is r₁) fun is' r₂ his => .run_pure fun loop n => ?_
      refine .run_bind (hi loop n) fun _ n₁ ⟨i'', hlabel, hpass⟩ => ?_
      refine .run_bind (his loop n₁) fun _ _ ⟨is'', hlabel', hpass'⟩ => .run_pure ?_
      refine ⟨i'' :: is'', run_bind_of_eq hlabel (run_bind_of_eq hlabel' rfl), ?_⟩
      rw [w.items_cons]
      exact run_bind_of_eq hpass (run_bind_of_eq hpass' rfl)
termination_by structural is => is
end

end Walk

/-! ## Declarations of the file scope -/

namespace LoopNamer

def decl : Decl → LoopNamer Decl
  | .function h s body => return .function h s (← items none body)
  | d => return d

theorem decls_cons (d : Decl) (ds : List Decl) : decls (d :: ds) = (do
    let d' ← decl d
    return d' :: (← decls ds)) := by
  cases d <;> simp only [decls, decl, bind_assoc, pure_bind]

end LoopNamer

/-- A walk through the file scope commutes with the labelling if the walk through each declaration
does. -/
theorem commutes_decls {σ : Type} {decl : Decl → StateT σ (Except Fault) Decl}
    (decls : List Decl → StateT σ (Except Fault) (List Decl)) (hnil : decls [] = pure [])
    (hcons : ∀ d ds, decls (d :: ds) = do
      let d' ← decl d
      return d' :: (← decls ds))
    (h : ∀ d, Commutes decl (fun _ => LoopNamer.decl) d) (ds : List Decl) :
    Commutes decls (fun _ => LoopNamer.decls) ds := by
  induction ds with
  | nil =>
      intro r
      rw [hnil]
      refine .run_pure fun loop n => .run_pure ⟨[], rfl, ?_⟩
      rw [hnil]
      rfl
  | cons d ds ih =>
      intro r
      rw [hcons]
      refine .run_bind (h d r) fun d' r₁ hd => ?_
      refine .run_bind (ih r₁) fun ds' r₂ hds => .run_pure fun loop n => ?_
      show Answers ((LoopNamer.decls (d :: ds)).run n) _
      rw [LoopNamer.decls_cons]
      refine .run_bind (hd loop n) fun _ n₁ ⟨d'', hlabel, hpass⟩ => ?_
      refine .run_bind (hds loop n₁) fun _ _ ⟨ds'', hlabel', hpass'⟩ => .run_pure ?_
      refine ⟨d'' :: ds'', ?_, ?_⟩
      · show (LoopNamer.decls (d' :: ds')).run n = _
        rw [LoopNamer.decls_cons]
        exact run_bind_of_eq hlabel (run_bind_of_eq hlabel' rfl)
      · rw [hcons]
        exact run_bind_of_eq hpass (run_bind_of_eq hpass' rfl)

/-- Resolving the names of a function does not look at the labels in its body. -/
theorem Resolver.decl_commutes (d : Decl) : Commutes decl (fun _ => LoopNamer.decl) d := by
  intro r
  cases d with
  | var d =>
      refine .run_bind (.self _) fun _ r₁ hd => .run_pure fun loop n => .run_pure ?_
      exact ⟨.var d, rfl, run_bind_of_eq hd rfl⟩
  | prototype h =>
      refine .run_bind (.self _) fun h' r₁ hh => .run_pure fun loop n => .run_pure ?_
      exact ⟨.prototype h', rfl, run_bind_of_eq hh rfl⟩
  | function h s body =>
      -- entering and leaving the scope are written out, as steps like the others
      have hdecl : ∀ is, decl (.function h s is) = (do
          functionName h
          walk.enter
          let ps ← params h.params
          let is' ← items is
          walk.leave
          return .function { h with params := ps } s is') := by
        intro is
        simp only [decl, inScope, walk, bind_assoc, pure_bind]
      rw [hdecl]
      refine .run_bind (.self _) fun _ r₁ hname => .run_bind (.self _) fun _ r₂ henter => ?_
      refine .run_bind (.self _) fun ps r₃ hps => ?_
      refine .run_bind (walk.items_commute body r₃) fun body' r₄ hbody => ?_
      refine .run_bind (.self _) fun _ r₅ hleave => .run_pure fun loop n => ?_
      refine .run_bind (hbody none n) fun _ _ hboth => .run_pure ?_
      obtain ⟨body'', hlabel, hpass⟩ := hboth
      refine ⟨.function { h with params := ps } s body'', run_bind_of_eq hlabel rfl, ?_⟩
      rw [hdecl]
      exact run_bind_of_eq hname (run_bind_of_eq henter (run_bind_of_eq hps
        (run_bind_of_eq hpass (run_bind_of_eq hleave rfl))))

/-- Checking a declaration does not look at the labels in it. -/
theorem Checker.decl_commutes (d : Decl) : Commutes decl (fun _ => LoopNamer.decl) d := by
  intro t
  cases d with
  | var d =>
      refine .run_bind (.self _) fun d' t₁ hd => .run_pure fun loop n => .run_pure ?_
      exact ⟨.var d', rfl, run_bind_of_eq hd rfl⟩
  | prototype h =>
      refine .run_bind (.self _) fun _ t₁ hh => .run_pure fun loop n => .run_pure ?_
      exact ⟨.prototype h, rfl, run_bind_of_eq hh rfl⟩
  | function h s body =>
      refine .run_bind (.self _) fun _ t₁ hname => .run_bind (.self _) fun _ t₂ hps => ?_
      refine .run_bind ((walk h.result).items_commute body t₂) fun body' t₃ hbody => ?_
      refine .run_pure fun loop n => ?_
      refine .run_bind (hbody none n) fun _ _ hboth => .run_pure ?_
      obtain ⟨body'', hlabel, hpass⟩ := hboth
      refine ⟨.function h s body'', run_bind_of_eq hlabel rfl, ?_⟩
      exact run_bind_of_eq hname (run_bind_of_eq hps (run_bind_of_eq hpass rfl))

/-! ## Programs -/

theorem run'_eq_ok {σ α : Type} {x : StateT σ (Except Fault) α} {s : σ} {a : α} :
    x.run' s = .ok a ↔ ∃ t, x.run s = .ok (a, t) := by
  refine map_eq_ok.trans ⟨?_, fun ⟨t, h⟩ => ⟨(a, t), h, rfl⟩⟩
  rintro ⟨⟨_, t⟩, h, rfl⟩
  exact ⟨t, h⟩

namespace Program

/-- Naming loops succeeds where the declarations do, and keeps the span of the program. -/
theorem nameLoops_eq_ok {p l : Program} :
    p.nameLoops = .ok l ↔
      (∃ n, (LoopNamer.decls p.decls).run 0 = .ok (l.decls, n)) ∧ l.span = p.span := by
  refine bind_eq_ok.trans ⟨?_, ?_⟩
  · rintro ⟨ds, hds, hl⟩
    cases hl
    exact ⟨run'_eq_ok.1 hds, rfl⟩
  · rintro ⟨hds, hspan⟩
    refine ⟨l.decls, run'_eq_ok.2 hds, ?_⟩
    rw [← hspan]
    rfl

/-- Labelling fails exactly at the first jump outside of all loops. -/
theorem nameLoops_eq_error_iff {p : Program} {f : Fault} :
    p.nameLoops = .error f ↔ p.strays.head? = some f := by
  refine ⟨fun h => (Ensures.bad_of_eq p.nameLoops_stopsAtFirst h).2, fun h => ?_⟩
  cases hl : p.nameLoops with
  | ok l =>
      have hnone := (Ensures.ok_of_eq p.nameLoops_stopsAtFirst hl).1 rfl
      rw [hnone] at h
      cases h
  | error g =>
      have hg := (Ensures.bad_of_eq p.nameLoops_stopsAtFirst hl).2
      rw [hg] at h
      cases h
      rfl

/-- Labels may be given before or after names are resolved. -/
theorem nameLoops_resolve {p r l : Program} (hr : p.resolve = .ok r) (hl : p.nameLoops = .ok l) :
    ∃ q, r.nameLoops = .ok q ∧ l.resolve = .ok q := by
  obtain ⟨ds, hds, hr⟩ := bind_eq_ok.1 hr
  obtain ⟨u, hds⟩ := run'_eq_ok.1 hds
  cases hr
  obtain ⟨⟨n, hn⟩, hspan⟩ := nameLoops_eq_ok.1 hl
  have hcommutes := commutes_decls Resolver.decls rfl (fun _ _ => rfl) Resolver.decl_commutes p.decls
  obtain ⟨qs, hlabel, hpass⟩ := ((hcommutes _).ok_of_eq hds none 0).ok_of_eq hn
  refine ⟨⟨p.span, qs⟩, nameLoops_eq_ok.2 ⟨⟨n, hlabel⟩, rfl⟩, ?_⟩
  refine bind_eq_ok.2 ⟨qs, run'_eq_ok.2 ⟨u, hpass⟩, ?_⟩
  rw [← hspan]
  rfl

/-- Labels may be given before or after types are. -/
theorem nameLoops_check {p r l : Program} {t s : SymbolTable} (hr : p.check t = .ok (r, s))
    (hl : p.nameLoops = .ok l) : ∃ q, r.nameLoops = .ok q ∧ l.check t = .ok (q, s) := by
  obtain ⟨⟨ds, u⟩, hds, hr⟩ := bind_eq_ok.1 hr
  cases hr
  obtain ⟨⟨n, hn⟩, hspan⟩ := nameLoops_eq_ok.1 hl
  have hcommutes := commutes_decls Checker.decls rfl (fun _ _ => rfl) Checker.decl_commutes p.decls
  obtain ⟨qs, hlabel, hpass⟩ := ((hcommutes _).ok_of_eq hds none 0).ok_of_eq hn
  refine ⟨⟨p.span, qs⟩, nameLoops_eq_ok.2 ⟨⟨n, hlabel⟩, rfl⟩, ?_⟩
  refine bind_eq_ok.2 ⟨(qs, s), hpass, ?_⟩
  rw [← hspan]
  rfl

/-- Labelling refuses the first jump that lies in no loop of its function, if there is one.
Otherwise it changes nothing but labels, gives each loop a label of its own and each jump the label
of the innermost loop around it. It may come before or after resolving names and giving types. -/
theorem nameLoops_binds_and_commutes (p : Program) :
    (∀ f, p.nameLoops = .error f ↔ p.strays.head? = some f) ∧
    (∀ l, p.nameLoops = .ok l →
      l.unlabelled = p.unlabelled ∧ (l.decls.flatMap Decl.loops).Nodup ∧
        ∀ d ∈ l.decls, d.Labelled) ∧
    (∀ r l, p.resolve = .ok r → p.nameLoops = .ok l →
      ∃ q, r.nameLoops = .ok q ∧ l.resolve = .ok q) ∧
    ∀ t r s l, p.check t = .ok (r, s) → p.nameLoops = .ok l →
      ∃ q, r.nameLoops = .ok q ∧ l.check t = .ok (q, s) := by
  refine ⟨fun f => nameLoops_eq_error_iff, fun l hl => ?_, fun r l => nameLoops_resolve,
    fun t r s l => nameLoops_check⟩
  obtain ⟨-, hunlabelled, ⟨hi, hloops⟩, hlabelled⟩ := Ensures.ok_of_eq p.nameLoops_stopsAtFirst hl
  exact ⟨hunlabelled, hloops.nodup, hlabelled⟩

end Program

/-- The text of a program with jumps in nested loops, in branches and in more than one function. -/
def nestedLoopsText : String :=
  "int f(int n) \x7b while (n) \x7b if (n) break; else for (;;) \x7b do continue; while (n); " ++
    "break; \x7d continue; \x7d return n; \x7d " ++
    "int g(void) \x7b for (int i = 0; i < 2; i = i + 1) if (i) continue; return 0; \x7d"

theorem Program.nameLoops_binds_and_commutes_nestedLoopsText :
    ∃ ts p l r c s, tokens nestedLoopsText = .ok ts ∧ Program.ofTokens ts = .ok p ∧
      p.nameLoops = .ok l ∧ p.resolve = .ok r ∧ p.check [] = .ok (c, s) ∧
      l.decls.flatMap Decl.loops = ["while.0", "for.1", "do.2", "for.3"] ∧
      (∀ d ∈ l.decls, d.Labelled) ∧ (∃ q, r.nameLoops = .ok q ∧ l.resolve = .ok q) ∧
      ∃ q, c.nameLoops = .ok q ∧ l.check [] = .ok (q, s) := by
  have hchars : nestedLoopsText.toList = _ :=
    toList_append_eq (toList_append_eq String.toList_ofList String.toList_ofList)
      String.toList_ofList
  have h : ((tokens nestedLoopsText).toOption.bind fun ts =>
      (Program.ofTokens ts).toOption.bind fun p => p.nameLoops.toOption.bind fun l =>
        p.resolve.toOption.bind fun _ => (p.check []).toOption.bind fun _ =>
          some (l.decls.flatMap Decl.loops)) =
      some ["while.0", "for.1", "do.2", "for.3"] := by
    rw [tokens, hchars]
    decide +kernel
  obtain ⟨ts, hts, h⟩ := toOption_bind_eq_some.1 h
  obtain ⟨p, hp, h⟩ := toOption_bind_eq_some.1 h
  obtain ⟨l, hl, h⟩ := toOption_bind_eq_some.1 h
  obtain ⟨r, hr, h⟩ := toOption_bind_eq_some.1 h
  obtain ⟨⟨c, s⟩, hc, h⟩ := toOption_bind_eq_some.1 h
  obtain ⟨-, hlabels, hresolve, hcheck⟩ := p.nameLoops_binds_and_commutes
  exact ⟨ts, p, l, r, c, s, hts, hp, hl, hr, hc, Option.some.inj h, (hlabels l hl).2.2,
    hresolve r l hr hl, hcheck [] c s l hc hl⟩

end IntegerC
