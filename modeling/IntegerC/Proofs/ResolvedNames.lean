import IntegerC.Proofs.DeclaredFirst
import IntegerC.Proofs.ScopedResolution

set_option autoImplicit false

/-! # Resolved names are declared first

Whatever the tree, the resolver writes a name only if a declaration in the scopes at hand was given
it. So in what it writes every name in use is declared by an earlier part or by the part itself
(`Program.resolve_declaredFirst`). This asks nothing of the tree, neither that it comes from a text
nor that its names are words.
-/

namespace IntegerC

/-! ## Names that the resolver writes -/

theorem Scope.mem_names_of_find? {s : Scope} {x : String} {b : Binding} (h : s.find? x = some b) :
    b.name ∈ s.target.names := by
  obtain ⟨frame, hframe, hb⟩ := List.exists_of_findSome?_eq_some h
  have hb : (x, b) ∈ frame := mem_of_lookup_eq_some hb
  exact List.mem_flatMap.2 ⟨_, List.mem_map_of_mem hframe,
    List.mem_map_of_mem (List.mem_map_of_mem hb)⟩

namespace Expr

variable {s : Scope}

mutual
/-- A name in a resolved expression is the target of a binding in scope. -/
theorem resolve_names :
    (e : Expr) → Answers (e.resolve s) (fun e' => e'.names ⊆ s.target.names)
  | constant _ _ => .pure (List.nil_subset _)
  | var n x => by
      rw [resolve]
      split
      · rename_i b hb
        exact .pure (List.cons_subset.2 ⟨Scope.mem_names_of_find? hb, List.nil_subset _⟩)
      · exact .error trivial
  | cast n t a => by
      rw [resolve]
      exact (resolve_names a).bind fun a' ha => .pure ha
  | unary n op a => by
      rw [resolve]
      exact (resolve_names a).bind fun a' ha => .pure ha
  | binary n op a b => by
      rw [resolve]
      refine (resolve_names a).bind fun a' ha => (resolve_names b).bind fun b' hb => .pure ?_
      exact List.append_subset.2 ⟨ha, hb⟩
  | assignment n a b => by
      rw [resolve]
      refine (resolve_names a).bind fun a' ha => (resolve_names b).bind fun b' hb => ?_
      exact .ite (fun _ => .pure (List.append_subset.2 ⟨ha, hb⟩)) fun _ => .error trivial
  | conditional n a b c => by
      rw [resolve]
      refine (resolve_names a).bind fun a' ha => (resolve_names b).bind fun b' hb =>
        (resolve_names c).bind fun c' hc => .pure ?_
      exact List.append_subset.2 ⟨List.append_subset.2 ⟨ha, hb⟩, hc⟩
  | call n f es => by
      rw [resolve]
      refine (resolveAll_names es).bind fun es' hes => ?_
      split
      · rename_i b hb
        exact .pure (List.cons_subset.2 ⟨Scope.mem_names_of_find? hb, hes⟩)
      · exact .error trivial
termination_by structural e => e

/-- The names of resolved arguments are targets of the scope. -/
theorem resolveAll_names :
    (es : List Expr) → Answers (resolveAll s es) (fun es' => allNames es' ⊆ s.target.names)
  | [] => .pure (List.nil_subset _)
  | e :: es => by
      rw [resolveAll]
      refine (resolve_names e).bind fun e' he => (resolveAll_names es).bind fun es' hes => .pure ?_
      exact List.append_subset.2 ⟨he, hes⟩
termination_by structural es => es
end

end Expr

/-! ## Parts that the resolver writes -/

/-- The resolver has written the parts `xs` of a block behind declarations of the names `seen`, and
has gone on from the scopes `s` to the scopes `s'`. -/
structure Scope.Crosses (seen : List String) (s : Scope) (xs : List Part) (s' : Scope) : Prop where
  inner : Part.Inner seen xs
  names : s'.target.names ⊆ xs.flatMap Part.visible ++ seen
  tail : s'.tail = s.tail

namespace Scope.Crosses

variable {seen : List String} {s s' s'' : Scope} {xs ys : List Part}

theorem nil (hs : s.target.names ⊆ seen) : Crosses seen s [] s := ⟨.nil, hs, rfl⟩

/-- Declarations of the first parts are seen by the second ones. -/
theorem append (h : Crosses seen s xs s')
    (h' : Crosses (xs.flatMap Part.visible ++ seen) s' ys s'') :
    Crosses seen s (xs ++ ys) s'' where
  inner := h.inner.append h'.inner
  names := by
    intro n hn
    have hn := h'.names hn
    simp only [List.flatMap_append, List.mem_append] at hn ⊢
    rcases hn with hn | hn | hn
    · exact .inl (.inr hn)
    · exact .inl (.inl hn)
    · exact .inr hn
  tail := h'.tail.trans h.tail

theorem span {t : Span} (h : Crosses seen s xs s') : Crosses seen s (.span t :: xs) s' :=
  ⟨h.inner.span, h.names, h.tail⟩

theorem loop {l : Option String} (h : Crosses seen s xs s') : Crosses seen s (.loop l :: xs) s' :=
  ⟨h.inner.loop, h.names, h.tail⟩

theorem expr {e : Expr} (he : e.names ⊆ seen) (h : Crosses seen s xs s') :
    Crosses seen s (.expr e :: xs) s' :=
  ⟨⟨.expr he h.inner.declared, List.forall_mem_cons.2 ⟨rfl, h.inner.flat⟩⟩, h.names, h.tail⟩

theorem optional {o : Option Expr} (ho : ∀ e ∈ o, e.names ⊆ seen) (h : Crosses seen s xs s') :
    Crosses seen s (Part.optional o ++ xs) s' := by
  cases o with
  | none => exact h
  | some e => exact .expr (ho e rfl) h

/-- Names that a part declares in the innermost scope have to be visible behind it. -/
theorem declare {x : Part} {y : String} {b : Binding} (hx : x.uses ⊆ x.visible ++ seen)
    (hflat : x.isFunction = false) (hy : b.name ∈ x.visible) (hs : s.target.names ⊆ seen) :
    Crosses seen s [x] (s.bind y b) where
  inner := ⟨⟨hx, trivial⟩, by simpa using hflat⟩
  names := by
    rw [target_bind, Scopes.names_declare, List.flatMap_singleton]
    exact List.cons_subset.2 ⟨List.mem_append_left _ hy,
      List.subset_append_of_subset_right _ hs⟩
  tail := tail_bind s y b

end Scope.Crosses

namespace Resolver

variable {α : Type} {seen : List String} {r : Resolution}

/-- Behind a scope of its own, the declarations in it are visible no more. -/
theorem inScope_crosses {x : Resolver α} {g : α → List Part}
    (hs : r.scope.target.names ⊆ seen)
    (h : ∀ r', r'.scope = [] :: r.scope →
      Answers (x.run r') (fun o => Scope.Crosses seen r'.scope (g o.1) o.2.scope)) :
    Answers ((inScope x).run r)
      (fun o => Scope.Crosses seen r.scope (g o.1) o.2.scope) := by
  refine (inScope_scoped (q := fun a => Part.Inner seen (g a)) fun r' hr' => ?_).imp
    fun o ho => ?_
  · refine (h r' hr').imp fun o ho => ⟨ho.inner, ?_⟩
    rw [ho.tail, hr', List.tail_cons]
  · rw [ho.2]
    exact ⟨ho.1, List.subset_append_of_subset_right _ hs, rfl⟩

theorem expr_names (e : Expr) :
    Answers ((expr e).run r) (fun o => o.1.names ⊆ r.scope.target.names ∧ o.2 = r) :=
  .run_lift_last (e.resolve_names.imp fun _ he => ⟨he, rfl⟩)

theorem optionalExpr_names (o : Option Expr) :
    Answers ((optionalExpr o).run r)
      (fun u => (∀ e ∈ u.1, e.names ⊆ r.scope.target.names) ∧ u.2 = r) := by
  cases o with
  | none => exact .run_pure ⟨by simp, rfl⟩
  | some e => exact .run_map ((expr_names e).imp fun u hu => ⟨by simpa using hu.1, hu.2⟩)

/-- A name without linkage is bound to the name that it gets. -/
theorem declareUnique_binds (x : String) :
    Answers ((declareUnique x).run r) (fun o => o.2.scope = r.scope.bind x ⟨o.1, false⟩) :=
  Ensures.pure rfl

/-- The name that a local variable gets is visible in its own initializer. -/
theorem localVar_crosses (d : VarDecl) (hs : r.scope.target.names ⊆ seen) :
    Answers ((localVar d).run r)
      (fun o => Scope.Crosses seen r.scope [.var o.1] o.2.scope) := by
  rw [localVar]
  refine .run_get (.run_ite (fun _ => .run_throw trivial) fun _ => .run_ite (fun hst => ?_) ?_)
  · -- the initializer of an `extern` variable does not run
    refine .run_modify (.run_pure (.declare ?_ rfl d.name_mem_visible hs))
    simp [Part.uses, Part.running, VarDecl.running, hst]
  · intro _
    refine (declareUnique_binds d.name).run_bind fun name r₁ hr₁ => ?_
    refine (optionalExpr_names d.init).run_bind fun init r₂ h => .run_pure ?_
    obtain ⟨hinit, hr₂⟩ := h
    dsimp only at hr₁ hinit hr₂ ⊢
    have hname := VarDecl.name_mem_visible { d with name := name, init := init }
    rw [hr₂, hr₁]
    refine .declare ?_ rfl hname hs
    intro n hn
    obtain ⟨e, he, hn⟩ := List.mem_flatMap.1 hn
    rw [Part.running, VarDecl.running] at he
    split at he
    · have hn := hinit e (by simpa using he) hn
      rw [hr₁, Scope.target_bind, Scopes.names_declare] at hn
      rcases List.mem_cons.1 hn with rfl | hn
      · exact List.mem_append_left _ hname
      · exact List.mem_append_right _ (hs hn)
    · cases he

/-- Parameters add their names to the innermost scope, and leave those around it alone. -/
theorem params_names (ps : List Param) :
    ∀ r : Resolution, Answers ((params ps).run r) (fun o =>
      o.2.scope.target.names ⊆ o.1.map Param.name ++ r.scope.target.names ∧
        o.2.scope.tail = r.scope.tail) := by
  induction ps with
  | nil => exact fun r => .run_pure ⟨List.Subset.refl _, rfl⟩
  | cons q ps ih =>
      intro r
      rw [params, param]
      refine .run_bind (q := fun o => o.2.scope = r.scope.bind q.name ⟨o.1.name, false⟩) ?_
        fun q' r₁ hr₁ => ?_
      · refine .run_get (.run_ite (fun _ => .run_throw trivial) fun _ => ?_)
        exact (declareUnique_binds q.name).run_bind fun name r₁ h => .run_pure h
      · refine (ih r₁).run_bind fun ps' r₂ h => .run_pure ?_
        obtain ⟨hnames, htail⟩ := h
        dsimp only at hr₁ hnames htail ⊢
        refine ⟨fun n hn => ?_, by rw [htail, hr₁, Scope.tail_bind]⟩
        have hn := hnames hn
        rw [hr₁, Scope.target_bind, Scopes.names_declare] at hn
        simp only [List.mem_append, List.mem_cons, List.map_cons] at hn ⊢
        rcases hn with hn | hn | hn
        · exact .inl (.inr hn)
        · exact .inl (.inl hn)
        · exact .inr hn

theorem functionName_binds (h : FunHeader) :
    Answers ((functionName h).run r)
      (fun o => o.2.scope = r.scope.bind h.name ⟨h.name, true⟩) := by
  rw [functionName]
  exact .run_get (.run_ite (fun _ => .run_throw trivial) fun _ => .pure rfl)

/-- The parameters of a function without a body are gone behind its declaration. -/
theorem prototype_crosses (h : FunHeader) (hs : r.scope.target.names ⊆ seen) :
    Answers ((prototype h).run r)
      (fun o => Scope.Crosses seen r.scope [.prototype o.1] o.2.scope) := by
  rw [prototype]
  refine (functionName_binds h).run_bind fun _ r₁ hr₁ => ?_
  have hparams : Answers ((inScope (do return { h with params := ← params h.params })).run r₁)
      (fun o => o.1.name = h.name ∧ o.2.scope = r₁.scope) := by
    refine inScope_scoped (q := fun h' : FunHeader => h'.name = h.name) fun r' hr' => ?_
    refine (params_names h.params r').run_bind fun ps r₂ hps => .run_pure ⟨rfl, ?_⟩
    exact hps.2.trans (congrArg List.tail hr')
  refine hparams.imp ?_
  rintro ⟨h', r₂⟩ ⟨hname, hr₂⟩
  dsimp only at hr₁ hname hr₂ ⊢
  rw [hr₂, hr₁]
  exact .declare (List.nil_subset _) rfl (by simp [Part.visible, Part.linked, hname]) hs

theorem forInit_crosses (i : ForInit) (hs : r.scope.target.names ⊆ seen) :
    Answers ((forInit i).run r)
      (fun o => Scope.Crosses seen r.scope o.1.parts o.2.scope) := by
  cases i with
  | nothing => exact .run_pure (.nil hs)
  | decl d =>
      rw [forInit]
      refine .run_ite (fun _ => .run_throw trivial) fun _ => ?_
      exact (localVar_crosses d hs).run_bind fun d' r₁ h => .run_pure h
  | expr e =>
      refine (expr_names e).run_bind fun e' r₁ h => .run_pure ?_
      obtain ⟨he, hr₁⟩ := h
      dsimp only at he hr₁ ⊢
      rw [hr₁]
      exact .expr (List.Subset.trans he hs) (.nil hs)

/-! ### Statements -/

mutual
/-- A statement leaves the scopes around it as they were. Whatever it declares it declares in a
scope of its own. -/
theorem stmt_crosses :
    (s : Stmt) → ∀ (r : Resolution) (seen : List String), r.scope.target.names ⊆ seen →
      Answers ((stmt s).run r) (fun o => Scope.Crosses seen r.scope o.1.parts o.2.scope)
  | .ret s e, r, seen, hs | .expr s e, r, seen, hs => by
      rw [stmt]
      refine (expr_names e).run_bind fun e' r₁ h => .run_pure ?_
      obtain ⟨he, rfl⟩ := h
      exact .span (.expr (List.Subset.trans he hs) (.nil hs))
  | .ifThen s e yes, r, seen, hs => by
      rw [stmt]
      refine (expr_names e).run_bind fun e' r₁ h => ?_
      obtain ⟨he, rfl⟩ := h
      refine (stmt_crosses yes _ seen hs).run_bind fun yes' r₂ hyes => .run_pure ?_
      exact .span (.expr (List.Subset.trans he hs) hyes)
  | .ifElse s e yes no, r, seen, hs => by
      rw [stmt]
      refine (expr_names e).run_bind fun e' r₁ h => ?_
      obtain ⟨he, rfl⟩ := h
      refine (stmt_crosses yes _ seen hs).run_bind fun yes' r₂ hyes => ?_
      refine (stmt_crosses no r₂ _ hyes.names).run_bind fun no' r₃ hno => .run_pure ?_
      exact .span (.expr (List.Subset.trans he hs) (hyes.append hno))
  | .block s is, r, seen, hs => by
      rw [stmt]
      refine (inScope_crosses (g := Item.allParts) hs fun r' hr' => ?_).run_bind
        fun is' r₁ his => .run_pure (.span his)
      exact items_cross is r' seen (by rwa [hr', Scope.target_enter, Scopes.names_enter])
  | .whileLoop s l e body, r, seen, hs => by
      rw [stmt]
      refine (expr_names e).run_bind fun e' r₁ h => ?_
      obtain ⟨he, rfl⟩ := h
      refine (stmt_crosses body _ seen hs).run_bind fun body' r₂ hbody => .run_pure ?_
      exact .span (.loop (.expr (List.Subset.trans he hs) hbody))
  | .doLoop s l body e, r, seen, hs => by
      rw [stmt]
      refine (stmt_crosses body r seen hs).run_bind fun body' r₁ hbody => ?_
      refine (expr_names e).run_bind fun e' r₂ h => .run_pure ?_
      obtain ⟨he, rfl⟩ := h
      exact .span (.loop (hbody.append
        (.expr (List.Subset.trans he hbody.names) (.nil hbody.names))))
  | .forLoop s l init e post body, r, seen, hs => by
      rw [stmt]
      refine inScope_crosses hs fun r' hr' => ?_
      have hs' : r'.scope.target.names ⊆ seen := by
        rwa [hr', Scope.target_enter, Scopes.names_enter]
      refine (forInit_crosses init hs').run_bind fun init' r₁ hinit => ?_
      -- condition, step and body see what the header declares
      refine (optionalExpr_names e).run_bind fun e' r₂ h => ?_
      obtain ⟨he, rfl⟩ := h
      refine (optionalExpr_names post).run_bind fun post' r₃ h => ?_
      obtain ⟨hpost, rfl⟩ := h
      refine (stmt_crosses body _ _ hinit.names).run_bind fun body' r₄ hbody => .run_pure ?_
      refine .span (.loop (hinit.append ?_))
      exact .optional (fun a ha => List.Subset.trans (he a ha) hinit.names)
        (.optional (fun a ha => List.Subset.trans (hpost a ha) hinit.names) hbody)
  | .breakLoop s l, r, seen, hs | .continueLoop s l, r, seen, hs | .null s, r, seen, hs =>
      .run_pure (.span (.nil hs))
termination_by structural s => s

theorem item_crosses :
    (i : Item) → ∀ (r : Resolution) (seen : List String), r.scope.target.names ⊆ seen →
      Answers ((item i).run r) (fun o => Scope.Crosses seen r.scope o.1.parts o.2.scope)
  | .stmt s, r, seen, hs => by
      rw [item]
      exact (stmt_crosses s r seen hs).run_bind fun s' r₁ h => .run_pure h
  | .decl (.var d), r, seen, hs => by
      rw [item]
      exact (localVar_crosses d hs).run_bind fun d' r₁ h => .run_pure h
  | .decl (.prototype f), r, seen, hs => by
      rw [item]
      refine .run_ite (fun _ => .run_throw trivial) fun _ => ?_
      exact (prototype_crosses f hs).run_bind fun f' r₁ h => .run_pure h
  | .decl (.function f s body), r, seen, hs => by
      rw [item]
      exact .run_throw trivial
termination_by structural i => i

/-- Items are crossed in order, each from the scope that the one before leaves. -/
theorem items_cross :
    (is : List Item) → ∀ (r : Resolution) (seen : List String), r.scope.target.names ⊆ seen →
      Answers ((items is).run r)
        (fun o => Scope.Crosses seen r.scope (Item.allParts o.1) o.2.scope)
  | [], r, seen, hs => .run_pure (.nil hs)
  | i :: is, r, seen, hs => by
      rw [items]
      refine (item_crosses i r seen hs).run_bind fun i' r₁ hi => ?_
      exact (items_cross is r₁ _ hi.names).run_bind fun is' r₂ his => .run_pure (hi.append his)
termination_by structural is => is
end

/-! ### The file scope -/

/-- The body of a function sees the function itself, its parameters, and what stands before the
function. -/
theorem function_declaredFirst (seen : List String) (f : FunHeader) (s : Span) (body : List Item)
    (hs : r.scope.target.names ⊆ f.name :: seen) :
    Answers ((inScope do
        let f' := { f with params := ← params f.params }
        return Decl.function f' s (← items body)).run r)
      (fun o => (Part.DeclaredFirst seen o.1.parts ∧ f.name ∈ o.1.parts.flatMap Part.visible) ∧
        o.2.scope = r.scope) := by
  refine inScope_scoped (q := fun d : Decl => Part.DeclaredFirst seen d.parts ∧
    f.name ∈ d.parts.flatMap Part.visible) fun r' hr' => ?_
  refine (params_names f.params r').run_bind fun ps r₁ h => ?_
  obtain ⟨hps, htail⟩ := h
  dsimp only at hps htail
  rw [hr', Scope.target_enter, Scopes.names_enter] at hps
  have hinside : r₁.scope.target.names ⊆
      (Part.function { f with params := ps }).visible ++ seen := by
    intro n hn
    have hn := List.mem_append.1 (hps hn)
    simp only [Part.visible, Part.linked, Part.unlinked, FunHeader.paramNames, List.mem_append,
      List.mem_singleton]
    rcases hn with hn | hn
    · exact .inl (.inr hn)
    · exact (List.mem_cons.1 (hs hn)).imp .inl id
  refine (items_cross body r₁ _ hinside).run_bind fun body' r₂ hbody => .run_pure ?_
  refine ⟨⟨.cons_of_uses rfl hbody.inner.span.declared, ?_⟩, ?_⟩
  · simp [Decl.parts, Part.visible, Part.linked]
  · rw [hbody.tail, htail, hr', List.tail_cons]

/-- Behind a declaration of the file, every name in scope is one that a declaration has made
visible. -/
theorem decl_declaredFirst (d : Decl) (hs : r.scope.target.names ⊆ seen) :
    Answers ((decl d).run r) (fun o => Part.DeclaredFirst seen o.1.parts ∧
      o.2.scope.target.names ⊆ o.1.parts.flatMap Part.visible ++ seen) := by
  -- whatever is declared is bound to itself, and its part makes it visible
  have hbind : ∀ (x : String) (d' : Decl), x ∈ d'.parts.flatMap Part.visible →
      (r.scope.bind x ⟨x, true⟩).target.names ⊆ d'.parts.flatMap Part.visible ++ seen := by
    intro x d' hx
    rw [Scope.target_bind, Scopes.names_declare]
    exact List.cons_subset.2 ⟨List.mem_append_left _ hx, List.subset_append_of_subset_right _ hs⟩
  cases d with
  | var d =>
      refine .run_modify (.run_pure ⟨.cons_of_uses rfl trivial, hbind d.name (.var d) ?_⟩)
      simp [Decl.parts, Part.visible, Part.linked]
  | prototype f =>
      refine (prototype_crosses f hs).run_bind fun f' r₁ h => .run_pure ?_
      exact ⟨h.inner.declared, h.names⟩
  | function f s body =>
      rw [decl]
      refine (functionName_binds f).run_bind fun _ r₁ hr₁ => ?_
      dsimp only at hr₁
      refine (function_declaredFirst seen f s body ?_).imp fun o ho => ?_
      · rw [hr₁, Scope.target_bind, Scopes.names_declare]
        exact List.cons_subset_cons _ hs
      · obtain ⟨⟨hd, hname⟩, hscope⟩ := ho
        rw [hscope, hr₁]
        exact ⟨hd, hbind f.name o.1 hname⟩

/-- In a resolved program every name is declared before it is used. -/
theorem decls_declaredFirst (ds : List Decl) :
    ∀ (r : Resolution) (seen : List String), r.scope.target.names ⊆ seen →
      Answers ((decls ds).run r)
        (fun o => Part.DeclaredFirst seen (o.1.flatMap Decl.parts)) := by
  induction ds with
  | nil => exact fun r seen _ => .run_pure trivial
  | cons d ds ih =>
      intro r seen hs
      rw [decls]
      refine (decl_declaredFirst d hs).run_bind fun d' r₁ h => ?_
      exact (ih r₁ _ h.2).run_bind fun ds' r₂ hds => .run_pure (h.1.append hds)

end Resolver

/-- Where names are resolved, every name in use is declared first. -/
theorem Program.resolve_declaredFirst (p : Program) :
    Answers p.resolve (fun p' => Part.DeclaredFirst [] p'.parts) := by
  refine Ensures.bind (q := fun ds => Part.DeclaredFirst [] (ds.flatMap Decl.parts)) ?_
    fun ds hds => .pure hds
  exact Ensures.map (Resolver.decls_declaredFirst p.decls ⟨0, [[]]⟩ [] (List.Subset.refl _))

end IntegerC
