import IntegerC.Proofs.Blame
import IntegerC.Proofs.Tree
import IntegerC.Scope
import Mathlib.Data.List.Flatten

set_option autoImplicit false

/-! # What resolving names ensures

A program whose names are resolved has the spans and the names with linkage that it had before. The
names without linkage are made names, no two of them the same, and every assignment is to a
variable. A program that breaks the rules of scoping is refused at one of its own spans.
-/

namespace IntegerC

variable {p : Span → Prop}

/-! ## Resolved parts -/

/-- Parts after the names in them are resolved, where the unique names from `lo` up to `hi` were
given. -/
structure Resolved (p : Span → Prop) (lo hi : Nat) (parts : List Part) : Prop where
  read : Part.AllRead p parts
  numbered : Numbered (fun _ => True) lo hi (parts.flatMap Part.locals)
  assigns : ∀ e ∈ parts.flatMap Part.running, e.AssignsVars

namespace Resolved

variable {lo mid hi : Nat} {xs ys : List Part}

theorem nil (h : lo ≤ hi) : Resolved p lo hi [] := ⟨by simp, .nil h, by simp⟩

/-- Resolved stretches with adjacent numbers are resolved together. -/
theorem append (hx : Resolved p lo mid xs) (hy : Resolved p mid hi ys) :
    Resolved p lo hi (xs ++ ys) where
  read := Part.allRead_append.2 ⟨hx.read, hy.read⟩
  numbered := by
    rw [List.flatMap_append]
    exact hx.numbered.append hy.numbered
  assigns := by
    rw [List.flatMap_append, List.forall_mem_append]
    exact ⟨hx.assigns, hy.assigns⟩

/-- Among the numbered names are those of the variables. -/
theorem unlinked (h : Resolved p lo hi xs) :
    Numbered (fun _ => True) lo hi (xs.flatMap Part.unlinked) :=
  h.numbered.sublist (.flatMap_right xs fun x _ => x.unlinked_sublist_locals)

/-- A part that declares nothing without linkage and evaluates nothing. -/
theorem inert {x : Part} (hx : x.Read p) (hu : x.locals = []) (hr : x.running = [])
    (h : lo ≤ hi) : Resolved p lo hi [x] :=
  ⟨by simpa using hx, by simpa [hu] using .nil h, by simp [hr]⟩

theorem span {s : Span} (hs : p s) (h : Resolved p lo hi xs) : Resolved p lo hi (.span s :: xs) :=
  (inert (Part.read_span.2 hs) rfl rfl (Nat.le_refl lo)).append h

theorem loop {l : Option String} (h : Resolved p lo hi xs) : Resolved p lo hi (.loop l :: xs) :=
  (inert Part.read_loop rfl rfl (Nat.le_refl lo)).append h

theorem expr {e : Expr} (hs : ∀ s ∈ e.spans, p s) (ha : e.AssignsVars) :
    Resolved p lo lo [.expr e] where
  read := by simpa using hs
  numbered := .nil (Nat.le_refl lo)
  assigns := by simpa [Part.running] using ha

end Resolved

/-! ## Expressions -/

mutual
/-- Resolving renames variables and nothing else: spans stay, and what is assigned stays a variable.
A fault is at one of the spans. -/
theorem Expr.resolve_ensures (s : Scope) :
    (e : Expr) → (∀ q ∈ e.spans, p q) →
      Ensures (e.resolve s) (Fault.At p) (fun e' => e'.spans = e.spans ∧ e'.AssignsVars)
  | .constant n c, _ => by
      rw [resolve]
      exact .pure ⟨rfl, trivial⟩
  | .var n x, h => by
      rw [resolve]
      split
      · exact .pure ⟨rfl, trivial⟩
      · refine .error (.of ?_ (h _ (by simp)))
        simp
  | .cast n t a, h => by
      rw [resolve]
      rw [spans_cast, List.forall_mem_append] at h
      refine (resolve_ensures s a h.1).bind fun a' ⟨hs, ha⟩ => ?_
      exact .pure ⟨by simp [hs], ha⟩
  | .unary n op a, h => by
      rw [resolve]
      rw [spans_unary, List.forall_mem_append] at h
      refine (resolve_ensures s a h.1).bind fun a' ⟨hs, ha⟩ => ?_
      exact .pure ⟨by simp [hs], ha⟩
  | .binary n op a b, h => by
      rw [resolve]
      rw [spans_binary, List.forall_mem_append, List.forall_mem_append] at h
      refine (resolve_ensures s a h.1.1).bind fun a' ⟨hs, ha⟩ => ?_
      refine (resolve_ensures s b h.1.2).bind fun b' ⟨hs', hb⟩ => ?_
      exact .pure ⟨by simp [hs, hs'], ha, hb⟩
  | .assignment n a b, h => by
      rw [resolve]
      rw [spans_assignment, List.forall_mem_append, List.forall_mem_append] at h
      refine (resolve_ensures s a h.1.1).bind fun a' ⟨hs, ha⟩ => ?_
      refine (resolve_ensures s b h.1.2).bind fun b' ⟨hs', hb⟩ => ?_
      split
      · rename_i hv
        exact .pure ⟨by simp [hs, hs'], hv, hb⟩
      -- the span of the target did not change, so the fault is at one that was read
      · refine .error (.of ?_ (h.1.1 _ (hs ▸ a'.span_mem_spans)))
        simp
  | .conditional n a b c, h => by
      rw [resolve]
      rw [spans_conditional, List.forall_mem_append, List.forall_mem_append,
        List.forall_mem_append] at h
      refine (resolve_ensures s a h.1.1.1).bind fun a' ⟨hs, ha⟩ => ?_
      refine (resolve_ensures s b h.1.1.2).bind fun b' ⟨hs', hb⟩ => ?_
      refine (resolve_ensures s c h.1.2).bind fun c' ⟨hs'', hc⟩ => ?_
      exact .pure ⟨by simp [hs, hs', hs''], ha, hb, hc⟩
  | .call n f es, h => by
      rw [resolve]
      rw [spans_call, List.forall_mem_append] at h
      refine (resolveAll_ensures s es h.1).bind fun es' ⟨hs, ha⟩ => ?_
      split
      · exact .pure ⟨by simp [hs], ha⟩
      · refine .error (.of ?_ (h.2 _ (by simp)))
        simp
termination_by structural e => e

theorem Expr.resolveAll_ensures (s : Scope) :
    (es : List Expr) → (∀ q ∈ spansAll es, p q) →
      Ensures (resolveAll s es) (Fault.At p)
        (fun es' => spansAll es' = spansAll es ∧ AllAssignVars es')
  | [], _ => by
      rw [resolveAll]
      exact .pure ⟨rfl, trivial⟩
  | e :: es, h => by
      rw [resolveAll]
      rw [spansAll_cons, List.forall_mem_append] at h
      refine (resolve_ensures s e h.1).bind fun e' ⟨hs, ha⟩ => ?_
      refine (resolveAll_ensures s es h.2).bind fun es' ⟨hs', hb⟩ => ?_
      exact .pure ⟨by simp [hs, hs'], ha, hb⟩
termination_by structural es => es
end

/-! ## Declarations -/

namespace Resolver

variable {α : Type}

/-- A computation in a scope of its own fails or answers as the computation does. -/
theorem inScope_ensures {x : Resolver α} {r : Resolution} {q : Nat → α → Prop}
    (h : ∀ r', r'.given = r.given →
      Ensures (x.run r') (Fault.At p) (fun o => q o.2.given o.1)) :
    Ensures ((inScope x).run r) (Fault.At p) (fun o => q o.2.given o.1) := by
  rw [inScope]
  refine .run_modify ?_
  refine (h { r with scope := [] :: r.scope } rfl).run_bind fun a r₂ ha => ?_
  exact .run_modify (.run_pure ha)

theorem expr_ensures {e : Expr} (r : Resolution) (h : (Part.expr e).Read p) :
    Ensures ((expr e).run r) (Fault.At p) (fun o => Resolved p r.given o.2.given [.expr o.1]) := by
  have hs := Part.read_expr.1 h
  refine .run_lift_last ((e.resolve_ensures r.scope hs).imp fun e' ⟨he, ha⟩ => ?_)
  exact .expr (by rwa [he]) ha

theorem optionalExpr_ensures {o : Option Expr} (r : Resolution)
    (h : Part.AllRead p (Part.optional o)) :
    Ensures ((optionalExpr o).run r) (Fault.At p)
      (fun u => Resolved p r.given u.2.given (Part.optional u.1)) := by
  cases o with
  | none => exact .run_pure (.nil (Nat.le_refl _))
  | some e => exact .run_map (expr_ensures r (h _ List.mem_cons_self))

theorem declareUnique_ensures (name : String) (r : Resolution) :
    Ensures ((declareUnique name).run r) (Fault.At p)
      (fun o => o.1 = numbered name r.given ∧ o.2.given = r.given + 1) :=
  Ensures.pure ⟨rfl, rfl⟩

theorem declareLinked_ensures (name : String) (r : Resolution) :
    Ensures ((declareLinked name).run r) (Fault.At p) (fun o => o.2.given = r.given) :=
  Ensures.pure rfl

/-- A variable with linkage keeps its name, and the others get a name with the next number. -/
theorem localVar_ensures {d : VarDecl} (r : Resolution) (h : (Part.var d).Read p) :
    Ensures ((localVar d).run r) (Fault.At p)
      (fun o => Resolved p r.given o.2.given [.var o.1]) := by
  obtain ⟨⟨hspan, hinit⟩, -⟩ := Part.read_var.1 h
  rw [localVar]
  refine .run_get ?_
  dsimp only
  refine .run_ite (fun _ => .run_throw (.of ?_ hspan)) fun _ => .run_ite (fun hs => ?_) fun hs => ?_
  · simp
  -- a name with linkage is kept and uses up no number
  · refine (declareLinked_ensures _ r).run_bind fun _ r₁ h₁ => .run_pure ?_
    exact .inert h (by simp [Part.locals, hs]) (by simp [Part.running, VarDecl.running, hs])
      (Nat.le_of_eq h₁.symm)
  -- the new name is made first, and the initializer gets the numbers behind it
  · refine (declareUnique_ensures d.name r).run_bind fun name r₁ hnew => ?_
    refine (optionalExpr_ensures r₁ hinit).run_bind fun init r₂ hi => .run_pure ?_
    obtain ⟨hname, h₁⟩ := hnew
    dsimp only at hname h₁ hi
    rw [h₁] at hi
    refine ⟨?_, ?_, ?_⟩
    · refine Part.allRead_cons.2
        ⟨Part.read_var.2 ⟨⟨hspan, hi.read⟩, fun he => ?_⟩, Part.allRead_nil⟩
      exact absurd he hs
    · simpa [Part.locals, hs, hname] using
        (Numbered.single d.name trivial r.given).append (.nil hi.numbered.le)
    · intro e he
      refine hi.assigns e ?_
      simp only [List.flatMap_cons, Part.running, VarDecl.running, List.flatMap_nil,
        List.append_nil] at he
      split at he
      · simpa using he
      · cases he

/-- Parameters get names with consecutive numbers, in their order. -/
theorem params_ensures (ps : List Param) :
    ∀ r : Resolution, (∀ q ∈ ps, p q.span) →
      Ensures ((params ps).run r) (Fault.At p)
        (fun o => (∀ q ∈ o.1, p q.span) ∧
          Numbered (fun _ => True) r.given o.2.given (o.1.map Param.name)) := by
  induction ps with
  | nil =>
      intro r _
      exact .run_pure ⟨by simp, .nil (Nat.le_refl _)⟩
  | cons q ps ih =>
      intro r h
      obtain ⟨hq, hps⟩ := List.forall_mem_cons.1 h
      have hparam : Ensures ((param q).run r) (Fault.At p)
          (fun o => p o.1.span ∧ o.1.name = numbered q.name r.given ∧ o.2.given = r.given + 1) := by
        rw [param]
        refine .run_get ?_
        refine .run_ite (fun _ => .run_throw (.of ?_ hq)) fun _ => ?_
        · simp
        · exact (declareUnique_ensures q.name r).run_bind fun name r₁ h₁ => .run_pure ⟨hq, h₁⟩
      rw [params]
      refine hparam.run_bind fun q' r₁ ⟨hq', hname, h₁⟩ => ?_
      refine (ih r₁ hps).run_bind fun ps' r₂ ⟨hps', hn⟩ => .run_pure ⟨?_, ?_⟩
      · exact List.forall_mem_cons.2 ⟨hq', hps'⟩
      · dsimp only at hname h₁ hn
        rw [h₁] at hn
        rw [List.map_cons, hname]
        exact (Numbered.single q.name trivial r.given).append hn

theorem functionName_ensures {h : FunHeader} (r : Resolution) (hs : p h.span) :
    Ensures ((functionName h).run r) (Fault.At p) (fun o => o.2.given = r.given) := by
  rw [functionName]
  refine .run_get ?_
  dsimp only
  refine .run_ite (fun _ => .run_throw (.of ?_ hs)) fun _ => declareLinked_ensures _ r
  simp

theorem prototype_ensures {h : FunHeader} (r : Resolution) (hr : (Part.prototype h).Read p) :
    Ensures ((prototype h).run r) (Fault.At p)
      (fun o => Resolved p r.given o.2.given [.prototype o.1]) := by
  obtain ⟨⟨hs, hps⟩, hn⟩ := Part.read_prototype.1 hr
  rw [prototype]
  refine (functionName_ensures r hs).run_bind fun _ r₁ h₁ => ?_
  refine inScope_ensures (q := fun given h' => Resolved p r.given given [.prototype h']) ?_
  intro r₂ h₂
  refine (params_ensures h.params r₂ hps).run_bind fun ps r₃ ⟨hps', hnum⟩ => .run_pure ?_
  dsimp only at h₁
  rw [h₂, h₁] at hnum
  refine ⟨?_, ?_, by simp [Part.running]⟩
  · exact Part.allRead_cons.2 ⟨Part.read_prototype.2 ⟨⟨hs, hps'⟩, hn⟩, Part.allRead_nil⟩
  · simpa [Part.locals, FunHeader.paramNames] using hnum

/-! ## Statements -/

theorem forInit_ensures {i : ForInit} (r : Resolution) (h : Part.AllRead p i.parts) :
    Ensures ((forInit i).run r) (Fault.At p)
      (fun o => Resolved p r.given o.2.given o.1.parts) := by
  cases i with
  | nothing => exact .run_pure (.nil (Nat.le_refl _))
  | decl d =>
      have hd := h _ List.mem_cons_self
      rw [forInit]
      refine .run_ite (fun _ => .run_throw (.of ?_ (Part.read_var.1 hd).1.1)) fun _ => ?_
      · simp
      · exact (localVar_ensures r hd).run_bind fun d' r₁ h₁ => .run_pure h₁
  | expr e =>
      exact (expr_ensures r (h _ List.mem_cons_self)).run_bind fun e' r₁ h₁ => .run_pure h₁

mutual
/-- The parts of a statement get their numbers one after the other. What a scope closes behind it
does not matter, since numbers are never given back. -/
theorem stmt_ensures :
    (s : Stmt) → ∀ r : Resolution, Part.AllRead p s.parts →
      Ensures ((stmt s).run r) (Fault.At p) (fun o => Resolved p r.given o.2.given o.1.parts)
  | .ret s e, r, h => by
      rw [stmt]
      simp only [Stmt.parts, Part.allRead_cons, Part.read_span] at h
      exact (expr_ensures r h.2.1).run_bind fun e' r₁ he => .run_pure (he.span h.1)
  | .expr s e, r, h => by
      rw [stmt]
      simp only [Stmt.parts, Part.allRead_cons, Part.read_span] at h
      exact (expr_ensures r h.2.1).run_bind fun e' r₁ he => .run_pure (he.span h.1)
  | .ifThen s e yes, r, h => by
      rw [stmt]
      simp only [Stmt.parts, Part.allRead_cons, Part.read_span] at h
      refine (expr_ensures r h.2.1).run_bind fun e' r₁ he => ?_
      refine (stmt_ensures yes r₁ h.2.2).run_bind fun yes' r₂ hy => .run_pure ?_
      exact (he.append hy).span h.1
  | .ifElse s e yes no, r, h => by
      rw [stmt]
      simp only [Stmt.parts, Part.allRead_cons, Part.read_span, Part.allRead_append] at h
      refine (expr_ensures r h.2.1).run_bind fun e' r₁ he => ?_
      refine (stmt_ensures yes r₁ h.2.2.1).run_bind fun yes' r₂ hy => ?_
      refine (stmt_ensures no r₂ h.2.2.2).run_bind fun no' r₃ hn => .run_pure ?_
      exact (he.append (hy.append hn)).span h.1
  | .block s is, r, h => by
      rw [stmt]
      simp only [Stmt.parts, Part.allRead_cons, Part.read_span] at h
      refine Ensures.run_bind (inScope_ensures
        (q := fun given is' => Resolved p r.given given (Item.allParts is')) ?_)
        fun is' r₁ his => .run_pure (his.span h.1)
      intro r' hr
      rw [← hr]
      exact items_ensures is r' h.2
  | .breakLoop s l, r, h => .run_pure (.inert (h _ List.mem_cons_self) rfl rfl (Nat.le_refl _))
  | .continueLoop s l, r, h => .run_pure (.inert (h _ List.mem_cons_self) rfl rfl (Nat.le_refl _))
  | .whileLoop s l e body, r, h => by
      rw [stmt]
      simp only [Stmt.parts, Part.allRead_cons, Part.read_span] at h
      refine (expr_ensures r h.2.2.1).run_bind fun e' r₁ he => ?_
      refine (stmt_ensures body r₁ h.2.2.2).run_bind fun body' r₂ hb => .run_pure ?_
      exact (he.append hb).loop.span h.1
  | .doLoop s l body e, r, h => by
      rw [stmt]
      simp only [Stmt.parts, Part.allRead_cons, Part.read_span, Part.allRead_append] at h
      refine (stmt_ensures body r h.2.2.1).run_bind fun body' r₁ hb => ?_
      refine (expr_ensures r₁ h.2.2.2.1).run_bind fun e' r₂ he => .run_pure ?_
      exact (hb.append he).loop.span h.1
  | .forLoop s l init e post body, r, h => by
      rw [stmt]
      simp only [Stmt.parts, Part.allRead_cons, Part.read_span, Part.allRead_append] at h
      obtain ⟨hs, -, hi, he, hp, hb⟩ := h
      -- what the scope gives back are its bindings, and not the numbers
      refine inScope_ensures (q := fun given (s' : Stmt) => Resolved p r.given given s'.parts) ?_
      intro r' hr
      rw [← hr]
      refine (forInit_ensures r' hi).run_bind fun init' r₁ hi' => ?_
      refine (optionalExpr_ensures r₁ he).run_bind fun e' r₂ he' => ?_
      refine (optionalExpr_ensures r₂ hp).run_bind fun post' r₃ hp' => ?_
      refine (stmt_ensures body r₃ hb).run_bind fun body' r₄ hb' => .run_pure ?_
      exact (hi'.append (he'.append (hp'.append hb'))).loop.span hs
  | .null s, r, h => .run_pure (.inert (h _ List.mem_cons_self) rfl rfl (Nat.le_refl _))
termination_by structural s => s

theorem item_ensures :
    (i : Item) → ∀ r : Resolution, Part.AllRead p i.parts →
      Ensures ((item i).run r) (Fault.At p) (fun o => Resolved p r.given o.2.given o.1.parts)
  | .stmt s, r, h => by
      rw [item]
      exact (stmt_ensures s r h).run_bind fun s' r₁ hs => .run_pure hs
  | .decl (.var d), r, h => by
      rw [item]
      exact (localVar_ensures r (h _ List.mem_cons_self)).run_bind fun d' r₁ hd => .run_pure hd
  | .decl (.prototype f), r, h => by
      have hf := h _ List.mem_cons_self
      rw [item]
      refine .run_ite (fun _ => .run_throw (.of ?_ (Part.read_prototype.1 hf).1.1)) fun _ => ?_
      · simp
      · exact (prototype_ensures r hf).run_bind fun f' r₁ hf' => .run_pure hf'
  | .decl (.function f s body), r, h => by
      have hf := Part.read_function.1 (h _ List.mem_cons_self)
      rw [item]
      refine .run_throw (.of ?_ (Part.read_prototype.1 hf).1.1)
      simp
termination_by structural i => i

theorem items_ensures :
    (is : List Item) → ∀ r : Resolution, Part.AllRead p (Item.allParts is) →
      Ensures ((items is).run r) (Fault.At p)
        (fun o => Resolved p r.given o.2.given (Item.allParts o.1))
  | [], r, _ => .run_pure (.nil (Nat.le_refl _))
  | i :: is, r, h => by
      rw [items]
      rw [Item.allParts, Part.allRead_append] at h
      refine (item_ensures i r h.1).run_bind fun i' r₁ hi => ?_
      exact (items_ensures is r₁ h.2).run_bind fun is' r₂ his => .run_pure (hi.append his)
termination_by structural is => is
end

/-! ## Programs -/

/-- The name of a function is taken before its body is resolved, so that the body may use it. -/
theorem decl_ensures {d : Decl} (r : Resolution) (h : Part.AllRead p d.parts) :
    Ensures ((decl d).run r) (Fault.At p)
      (fun o => Resolved p r.given o.2.given o.1.parts) := by
  cases d with
  | var d =>
      refine (declareLinked_ensures _ r).run_bind fun _ r₁ h₁ => .run_pure ?_
      exact .inert (h _ List.mem_cons_self) rfl rfl (Nat.le_of_eq h₁.symm)
  | prototype f =>
      have hf := h _ List.mem_cons_self
      exact (prototype_ensures r hf).run_bind fun f' r₁ hf' => .run_pure hf'
  | function f s body =>
      simp only [Decl.parts, Part.allRead_cons, Part.read_span] at h
      obtain ⟨⟨hspan, hps⟩, hn⟩ := Part.read_prototype.1 (Part.read_function.1 h.1)
      rw [decl]
      refine (functionName_ensures r hspan).run_bind fun _ r₁ h₁ => ?_
      refine inScope_ensures (q := fun given (d' : Decl) => Resolved p r.given given d'.parts) ?_
      intro r₂ h₂
      dsimp only at h₁
      refine (params_ensures f.params r₂ hps).run_bind ?_
      rintro ps r₃ ⟨hps', hnum⟩
      refine (items_ensures body r₃ h.2.2).run_bind fun body' r₄ hb => .run_pure ?_
      rw [h₂, h₁] at hnum
      have hhead : Resolved p r.given r₃.given [.function { f with params := ps }] :=
        ⟨Part.allRead_cons.2 ⟨Part.read_function.2 (Part.read_prototype.2 ⟨⟨hspan, hps'⟩, hn⟩),
            Part.allRead_nil⟩,
          by simpa [Part.locals, FunHeader.paramNames] using hnum, by simp [Part.running]⟩
      exact hhead.append (hb.span h.2.1)

theorem decls_ensures (ds : List Decl) :
    ∀ r : Resolution, Part.AllRead p (ds.flatMap Decl.parts) →
      Ensures ((decls ds).run r) (Fault.At p)
        (fun o => Resolved p r.given o.2.given (o.1.flatMap Decl.parts)) := by
  induction ds with
  | nil =>
      intro r _
      exact .run_pure (.nil (Nat.le_refl _))
  | cons d ds ih =>
      intro r h
      rw [List.flatMap_cons, Part.allRead_append] at h
      refine (decl_ensures r h.1).run_bind fun d' r₁ hd => ?_
      refine (ih r₁ h.2).run_bind fun ds' r₂ hds => .run_pure ?_
      rw [List.flatMap_cons]
      exact hd.append hds

end Resolver

/-- A program is resolved, or it is refused at one of its spans. -/
theorem Program.resolve_ensures {t : Program} (h : Part.AllRead p t.parts) :
    Ensures t.resolve (Fault.At p) (fun t' => ∃ hi, Resolved p 0 hi t'.parts) := by
  have hds := Resolver.decls_ensures t.decls ⟨0, [[]]⟩ h
  refine Ensures.bind (q := fun ds => ∃ hi, Resolved p 0 hi (ds.flatMap Decl.parts)) ?_
    fun ds hds => .pure hds
  exact Ensures.map (hds.imp fun o ho => ⟨_, ho⟩)

end IntegerC
