import IntegerC.Proofs.Compilation
import IntegerC.Proofs.ThreeAddress.FunctionTemporaries

set_option autoImplicit false

/-! # What functions return

The code of an expression does not return, and what the code of a statement returns has the type that
the function returns. So every function that is made of a source text is well typed: each of its
instructions is, and each of its returns gives a value of its own type. Only the return of zero that
stands behind its body does not look at that type.
-/

namespace IntegerC.ThreeAddress

/-! ## Returned values -/

@[simp] def Instr.returned? : Instr → Option Value
  | .ret v => some v
  | _ => none

/-- The values that the instructions of a piece of code return. -/
def returnedBy (code : List Instr) : List Value := code.filterMap Instr.returned?

@[simp] theorem returnedBy_nil : returnedBy [] = [] := rfl

@[simp] theorem returnedBy_cons (i : Instr) (code : List Instr) :
    returnedBy (i :: code) = i.returned?.toList ++ returnedBy code := by
  unfold returnedBy
  rw [List.filterMap_cons]
  cases i.returned? <;> rfl

@[simp] theorem returnedBy_append (code code' : List Instr) :
    returnedBy (code ++ code') = returnedBy code ++ returnedBy code' :=
  List.filterMap_append

@[simp] theorem mem_returnedBy {code : List Instr} {v : Value} :
    v ∈ returnedBy code ↔ .ret v ∈ code := by
  rw [returnedBy, List.mem_filterMap]
  constructor
  · rintro ⟨i, hi, hv⟩
    cases i <;> cases hv
    exact hi
  · exact fun h => ⟨_, h, rfl⟩

theorem returned?_conversion (σ τ : IntType) (src dst : Value) :
    (conversion σ τ src dst).returned? = none := by
  unfold conversion
  split
  · rfl
  split
  · rfl
  split <;> rfl

theorem returnedBy_connective (op : LogicOp) (left right : ExprCode) (dst : Value)
    (short finish : String) : returnedBy (connectiveCode op left right dst short finish) =
      returnedBy left.code ++ returnedBy right.code := by
  cases op <;> simp [connectiveCode]

theorem returnedBy_conditional (condition yes no : ExprCode) (dst : Value)
    (other finish : String) : returnedBy (conditionalCode condition yes no dst other finish) =
      returnedBy condition.code ++ returnedBy yes.code ++ returnedBy no.code := by
  simp [conditionalCode]

/-! ## Expressions -/

namespace Coder

variable {s : Supply}

theorem binary_returns_nothing {op : BinaryOp} {τ : IntType} {left right : ExprCode}
    (hl : returnedBy left.code = []) (hr : returnedBy right.code = []) :
    Answers ((binary op τ left right).run s) (fun o => returnedBy o.1.code = []) := by
  cases op with
  | arith op | shift op | compare op =>
      refine (Ensures.self _).run_bind fun dst s₁ _ => .run_pure ?_
      simp [hl, hr]
  | logic op =>
      refine (Ensures.self _).run_bind fun dst s₁ _ => ?_
      refine (Ensures.self _).run_bind fun short s₂ _ => ?_
      refine (Ensures.self _).run_bind fun finish s₃ _ => .run_pure ?_
      rw [returnedBy_connective, hl, hr, List.append_nil]

mutual
/-- Only return statements make return instructions. -/
theorem expr_returns_nothing :
    (e : Expr) → ∀ s : Supply,
      Answers ((expr e).run s) (fun o => returnedBy o.1.code = [])
  | .constant _ _, s => by
      rw [expr]
      exact .run_lift (Ensures.self _) fun _ _ => .run_pure rfl
  | .var _ _, s => by
      rw [expr]
      exact .run_lift (Ensures.self _) fun _ _ => .run_pure rfl
  | .cast _ _ a, s => by
      rw [expr]
      refine (expr_returns_nothing a s).run_bind fun inner s₁ h => ?_
      refine .run_lift (Ensures.self _) fun τ _ => .run_ite (fun _ => .run_pure h) fun _ => ?_
      refine (Ensures.self _).run_bind fun dst s₂ _ => .run_pure ?_
      rw [returnedBy_append, h, returnedBy_cons, returned?_conversion]
      rfl
  | .unary _ op a, s => by
      rw [expr]
      refine (expr_returns_nothing a s).run_bind fun inner s₁ h => ?_
      refine .run_lift (Ensures.self _) fun τ _ => ?_
      refine (Ensures.self _).run_bind fun dst s₂ _ => .run_pure ?_
      simp [h]
  | .binary _ op a b, s => by
      rw [expr]
      refine (expr_returns_nothing a s).run_bind fun left s₁ hl => ?_
      refine (expr_returns_nothing b s₁).run_bind fun right s₂ hr => ?_
      exact .run_lift (Ensures.self _) fun τ _ => binary_returns_nothing hl hr
  | .assignment _ a b, s => by
      rw [expr]
      refine (expr_returns_nothing a s).run_bind fun target s₁ ht => ?_
      refine (expr_returns_nothing b s₁).run_bind fun value s₂ hv => ?_
      refine .run_lift (Ensures.self _) fun τ _ => .run_pure ?_
      simp [ht, hv]
  | .conditional _ a b c, s => by
      rw [expr]
      refine (expr_returns_nothing a s).run_bind fun condition s₁ h₁ => ?_
      refine (expr_returns_nothing b s₁).run_bind fun yes s₂ h₂ => ?_
      refine (expr_returns_nothing c s₂).run_bind fun no s₃ h₃ => ?_
      refine .run_lift (Ensures.self _) fun τ _ => ?_
      refine (Ensures.self _).run_bind fun dst s₄ _ => ?_
      refine (Ensures.self _).run_bind fun other s₅ _ => ?_
      refine (Ensures.self _).run_bind fun finish s₆ _ => .run_pure ?_
      rw [returnedBy_conditional, h₁, h₂, h₃, List.append_nil, List.append_nil]
  | .call _ f es, s => by
      rw [expr]
      refine (exprs_return_nothing es s).run_bind fun outs s₁ h => ?_
      refine .run_lift (Ensures.self _) fun τ _ => ?_
      refine (Ensures.self _).run_bind fun dst s₂ _ => .run_pure ?_
      simp [h]
termination_by structural e => e

/-- The code of an expression holds no return. -/
theorem exprs_return_nothing :
    (es : List Expr) → ∀ s : Supply,
      Answers ((exprs es).run s) (fun o => returnedBy (o.1.flatMap ExprCode.code) = [])
  | [], _ => .run_pure rfl
  | e :: es, s => by
      rw [exprs]
      refine (expr_returns_nothing e s).run_bind fun out s₁ h => ?_
      refine (exprs_return_nothing es s₁).run_bind fun outs s₂ hs => .run_pure ?_
      simp [h, hs]
termination_by structural es => es
end

end Coder

/-! ## Statements -/

/-- How a supply `s` becomes `s'` and gives code that returns values of type `τ` only. -/
structure Returning (s s' : Supply) (τ : IntType) (code : List Instr) : Prop where
  grows : s.Grows s'
  returns : ∀ v ∈ returnedBy code, v.HasType s'.symbols τ

namespace Returning

variable {s s₁ s' : Supply} {τ : IntType} {code code' : List Instr}

theorem nothing (hg : s.Grows s') (h : returnedBy code = []) : Returning s s' τ code :=
  ⟨hg, by simp [h]⟩

/-- What is made later does not change the types of what is returned. -/
theorem append (h : Returning s s₁ τ code) (h' : Returning s₁ s' τ code') :
    Returning s s' τ (code ++ code') where
  grows := h.grows.trans h'.grows
  returns := by
    rw [returnedBy_append, List.forall_mem_append]
    exact ⟨fun v hv => (h.returns v hv).mono h'.grows.symbols, h'.returns⟩

/-- Code that is laid out in another way returns the same values. -/
theorem relayout (h : Returning s s' τ code) (hsub : returnedBy code' ⊆ returnedBy code) :
    Returning s s' τ code' :=
  ⟨h.grows, fun v hv => h.returns v (hsub hv)⟩

end Returning

namespace Coder

variable {s : Supply} (τ : IntType)

theorem expr_returning {e : Expr} (h : e.Typed s.symbols) :
    Answers ((expr e).run s) (fun o => Returning s o.2 τ o.1.code) :=
  ((expr_code_made h).answers.and (expr_returns_nothing e s)).imp fun _ ⟨hmade, hnone⟩ =>
    .nothing hmade.1.grows hnone

/-- Without a label of the loop no code is made. -/
theorem loopLabel_answers {α : Type} {g : String → Coder α} {span : Span} {l : Option String}
    {ok : α × Supply → Prop} (h : ∀ name, Answers ((g name).run s) ok) :
    Answers ((loopLabel span l >>= g).run s) ok := by
  cases l with
  | none => trivial
  | some name => exact h name

theorem label_returning (word : String) (s : Supply) :
    Answers ((label word).run s) (fun o => Returning s o.2 τ []) :=
  (label_ensures word s).answers.imp fun _ ⟨_, hsymbols, hlabels⟩ =>
    .nothing (.of_symbols_eq hsymbols (by omega)) rfl

theorem localVar_returning {d : VarDecl} (h : d.Typed s.symbols) :
    Answers ((localVar d).run s) (fun o => Returning s o.2 τ o.1) := by
  rw [localVar]
  split
  · rename_i e hs hd
    have he : e.Typed s.symbols := ⟨d.type, (h hs).2 e hd⟩
    refine (expr_returning τ he).run_bind fun out s₁ ho => .run_pure (ho.relayout ?_)
    simp
  · exact .run_pure (.nothing (.refl s) rfl)

theorem forInit_returning {i : ForInit} (h : i.Typed s.symbols) :
    Answers ((forInit i).run s) (fun o => Returning s o.2 τ o.1) := by
  cases i with
  | nothing => exact .run_pure (.nothing (.refl s) rfl)
  | decl d => exact localVar_returning τ h
  | expr e => exact (expr_returning τ h).run_bind fun _ _ ho => .run_pure ho

theorem exitTest_returning {target : String} {o : Option Expr} (h : ∀ e ∈ o, e.Typed s.symbols) :
    Answers ((exitTest target o).run s) (fun u => Returning s u.2 τ u.1) := by
  cases o with
  | none => exact .run_pure (.nothing (.refl s) rfl)
  | some e =>
      refine (expr_returning τ (h e rfl)).run_bind fun out s₁ ho => .run_pure (ho.relayout ?_)
      simp

theorem step_returning {o : Option Expr} (h : ∀ e ∈ o, e.Typed s.symbols) :
    Answers ((step o).run s) (fun u => Returning s u.2 τ u.1) := by
  cases o with
  | none => exact .run_pure (.nothing (.refl s) rfl)
  | some e => exact (expr_returning τ (h e rfl)).run_bind fun _ _ ho => .run_pure ho

mutual
/-- A returned value was converted to the type of the function when it was checked. -/
theorem stmt_returning :
    (c : Stmt) → ∀ s : Supply, c.Typed s.symbols τ →
      Answers ((stmt c).run s) (fun o => Returning s o.2 τ o.1)
  | .ret _ e, s, h => by
      rw [stmt]
      -- the code of the value has no return of its own, so the last instruction is the only one
      have hmade := (expr_made e s τ h).answers.and (expr_returns_nothing e s)
      refine hmade.run_bind fun out s₁ ⟨ho, hnone⟩ => .run_pure ⟨ho.grows, ?_⟩
      simpa [returnedBy_append, hnone] using ho.value
  | .expr _ e, s, h => by
      rw [stmt]
      exact (expr_returning τ h).run_bind fun _ _ ho => .run_pure ho
  | .ifThen _ e yes, s, h => by
      rw [stmt]
      refine (expr_returning τ h.1).run_bind fun out s₁ ho => ?_
      refine (label_returning τ _ s₁).run_bind fun finish s₂ hf => ?_
      have hg := ho.grows.trans hf.grows
      refine (stmt_returning yes s₂ (.mono hg.symbols yes h.2)).run_bind fun yes' s₃ hy => ?_
      refine .run_pure (((ho.append hf).append hy).relayout ?_)
      simp
  | .ifElse _ e yes no, s, h => by
      rw [stmt]
      refine (expr_returning τ h.1).run_bind fun out s₁ ho => ?_
      refine (label_returning τ _ s₁).run_bind fun finish s₂ hf => ?_
      refine (label_returning τ _ s₂).run_bind fun other s₃ hother => ?_
      have hparts := (ho.append hf).append hother
      have hyes := Stmt.Typed.mono hparts.grows.symbols yes h.2.1
      refine (stmt_returning yes s₃ hyes).run_bind fun yes' s₄ hy => ?_
      have hno := Stmt.Typed.mono (hparts.append hy).grows.symbols no h.2.2
      refine (stmt_returning no s₄ hno).run_bind fun no' s₅ hn => ?_
      refine .run_pure (((hparts.append hy).append hn).relayout ?_)
      simp
  | .block _ is, s, h => by
      rw [stmt]
      exact items_returning is s h
  | .breakLoop _ l, s, _ | .continueLoop _ l, s, _ => by
      rw [stmt]
      exact loopLabel_answers fun _ => .run_pure (.nothing (.refl s) rfl)
  | .doLoop _ l body e, s, h => by
      rw [stmt]
      refine loopLabel_answers fun name => ?_
      refine (expr_returning τ h.2).run_bind fun out s₁ ho => ?_
      have hbody := Stmt.Typed.mono ho.grows.symbols body h.1
      refine (stmt_returning body s₁ hbody).run_bind fun body' s₂ hb => ?_
      refine .run_pure ((ho.append hb).relayout ?_)
      simp
  | .whileLoop _ l e body, s, h => by
      rw [stmt]
      refine loopLabel_answers fun name => ?_
      refine (expr_returning τ h.1).run_bind fun out s₁ ho => ?_
      have hbody := Stmt.Typed.mono ho.grows.symbols body h.2
      refine (stmt_returning body s₁ hbody).run_bind fun body' s₂ hb => ?_
      refine .run_pure ((ho.append hb).relayout ?_)
      simp
  | .forLoop _ l init e post body, s, h => by
      obtain ⟨hi, he, hp, hbody⟩ := h
      rw [stmt]
      refine loopLabel_answers fun name => ?_
      refine (forInit_returning τ hi).run_bind fun init' s₁ h₁ => ?_
      have he₁ := typed_forall_mono h₁.grows.symbols he
      refine (exitTest_returning τ he₁).run_bind fun test s₂ h₂ => ?_
      have hbody₂ := Stmt.Typed.mono (h₁.append h₂).grows.symbols body hbody
      refine (stmt_returning body s₂ hbody₂).run_bind fun body' s₃ h₃ => ?_
      have hp₃ := typed_forall_mono ((h₁.append h₂).append h₃).grows.symbols hp
      refine (step_returning τ hp₃).run_bind fun post' s₄ h₄ => ?_
      refine .run_pure ((((h₁.append h₂).append h₃).append h₄).relayout ?_)
      simp
  | .null _, s, _ => .run_pure (.nothing (.refl s) rfl)
termination_by structural c => c

theorem item_returning :
    (i : Item) → ∀ s : Supply, i.Typed s.symbols τ →
      Answers ((item i).run s) (fun o => Returning s o.2 τ o.1)
  | .stmt c, s, h => by
      rw [item]
      exact stmt_returning c s h
  | .decl (.var d), s, h => by
      rw [item]
      exact localVar_returning τ h
  | .decl (.prototype _), s, _ => .run_pure (.nothing (.refl s) rfl)
  | .decl (.function _ _ _), s, _ => .run_pure (.nothing (.refl s) rfl)
termination_by structural i => i

/-- Code of items returns values of the function's own type only. -/
theorem items_returning :
    (is : List Item) → ∀ s : Supply, Item.AllTyped s.symbols τ is →
      Answers ((items is).run s) (fun o => Returning s o.2 τ o.1)
  | [], s, _ => .run_pure (.nothing (.refl s) rfl)
  | i :: is, s, h => by
      rw [items]
      refine (item_returning i s h.1).run_bind fun i' s₁ hi => ?_
      refine (items_returning is s₁ (.mono hi.grows.symbols is h.2)).run_bind fun is' s₂ his =>
        .run_pure (hi.append his)
termination_by structural is => is
end

end Coder

/-! ## Functions -/

/-- The operands of each instruction fit, and what the function returns is of the type that it has in
the table. The return of zero behind the code of its body is not looked at. -/
def Function.WellTyped (t : SymbolTable) (f : Function) : Prop :=
  CodeTyped t f.body ∧ ∃ params result code, t.typeOf? f.name = some (.function params result) ∧
    f.body = code ++ [.ret (intValue 0)] ∧ ∀ v, .ret v ∈ code → v.HasType t result

theorem Function.WellTyped.mono {t u : SymbolTable} {f : Function} (h : t.Extends u)
    (hf : f.WellTyped t) : f.WellTyped u := by
  obtain ⟨htyped, params, result, code, htype, hbody, hreturns⟩ := hf
  exact ⟨htyped.mono h, params, result, code, h _ _ htype, hbody,
    fun v hv => (hreturns v hv).mono h⟩

namespace Coder

variable {s : Supply}

/-- The function is typed in the table with its temporaries, which extends the one that it was
checked with. -/
theorem function_wellTyped {h : FunHeader} {span : Span} {body : List Item}
    {o : Function × Supply} (ht : (Decl.function h span body).Typed s.symbols)
    (hl : (Decl.function h span body).Labelled) (hc : s.symbols.Consistent)
    (hrun : (function h body).run s = .ok o) :
    s.symbols.Extends o.2.symbols ∧ o.1.WellTyped o.2.symbols := by
  obtain ⟨hgrows, hmade⟩ := (function_made ht hl hc).ok_of_eq hrun
  obtain ⟨σ, defined, global, code, -, hcode, hf⟩ := run_function hrun
  have hreturning := (items_returning h.result body s ht.2.2).ok_of_eq hcode
  refine ⟨hgrows.symbols, hmade.typed, h.params.map Param.type, h.result, code, ?_, ?_, ?_⟩
  · rw [hf]
    exact hgrows.symbols _ _ ht.1
  · rw [hf]
  · exact fun v hv => hreturning.returns v (mem_returnedBy.2 hv)

/-- Later functions add temporaries, and what was well typed stays so. -/
theorem functions_wellTyped (ds : List Decl) :
    ∀ (s : Supply) (o : List Function × Supply), (∀ d ∈ ds, d.Typed s.symbols) →
      (∀ d ∈ ds, d.Labelled) → s.symbols.Consistent → (functions ds).run s = .ok o →
        s.symbols.Extends o.2.symbols ∧ ∀ f ∈ o.1, f.WellTyped o.2.symbols := by
  induction ds with
  | nil =>
      intro s o _ _ _ hrun
      cases hrun
      exact ⟨.refl s.symbols, by simp⟩
  | cons d ds ih =>
      intro s o ht hl hc hrun
      obtain ⟨htd, htds⟩ := List.forall_mem_cons.1 ht
      obtain ⟨hld, hlds⟩ := List.forall_mem_cons.1 hl
      cases d with
      | function h span body =>
          rw [functions] at hrun
          obtain ⟨⟨f, s₁⟩, h₁, hrun⟩ := run_bind_eq_ok.1 hrun
          obtain ⟨⟨fs, s₂⟩, h₂, hrun⟩ := run_bind_eq_ok.1 hrun
          cases hrun
          have hc₁ := ((function_made htd hld hc).ok_of_eq h₁).1.consistent hc
          obtain ⟨hext, hf⟩ := function_wellTyped htd hld hc h₁
          have htds₁ : ∀ d ∈ ds, d.Typed s₁.symbols := fun d hd => (htds d hd).mono hext
          obtain ⟨hext', hfs⟩ := ih s₁ _ htds₁ hlds hc₁ h₂
          exact ⟨hext.trans hext', List.forall_mem_cons.2 ⟨hf.mono hext', hfs⟩⟩
      | var d => exact ih s o htds hlds hc hrun
      | prototype h => exact ih s o htds hlds hc hrun

end Coder

/-! ## Programs -/

/-- What is validated is made into code, and the operands of each instruction fit then, in the table
that comes with the code. What a function returns is of its own type. -/
theorem Program.wellTyped_of_text {text : String} {ts : List Token} {tree p : IntegerC.Program}
    {t : SymbolTable} (hts : tokens text = .ok ts) (htree : Program.ofTokens ts = .ok tree)
    (hp : tree.validate [] = .ok (p, t)) :
    Succeeds (ofChecked p t) fun r => ∀ f, .function f ∈ r.1.topLevels → f.WellTyped r.2 := by
  obtain ⟨htyped, hlabelled, hc⟩ := IntegerC.Program.checked_of_text hts htree hp
  cases hrun : ofChecked p t with
  | error f => exact (ofChecked_made ⟨htyped, hlabelled, hc⟩).bad_of_eq hrun
  | ok r =>
      obtain ⟨⟨fs, s⟩, hfs, hr⟩ := bind_eq_ok.1 hrun
      cases hr
      intro f hf
      have hf : f ∈ fs := by simpa using hf
      exact (Coder.functions_wellTyped p.decls ⟨t, 0, 0⟩ _ htyped hlabelled hc hfs).2 f hf

/-- The text of two functions in which values of one type are asked for where those of another
stand. -/
def mixedTypesText : String :=
  "long g(long a, int b) \x7b return a << b; \x7d " ++
    "int f(unsigned u) \x7b if (!u && g(u, 3) < 5) return u; return -u; \x7d"

theorem Program.wellTyped_of_mixedTypesText :
    ∃ ts tree p t, tokens mixedTypesText = .ok ts ∧ Program.ofTokens ts = .ok tree ∧
      tree.validate [] = .ok (p, t) ∧ p.decls.length = 2 ∧
      Succeeds (ofChecked p t) fun r => ∀ f, .function f ∈ r.1.topLevels → f.WellTyped r.2 := by
  have hchars : mixedTypesText.toList = _ :=
    toList_append_eq String.toList_ofList String.toList_ofList
  have h : ((tokens mixedTypesText).toOption.bind fun ts =>
      (Program.ofTokens ts).toOption.bind fun tree => (tree.validate []).toOption.bind fun r =>
        some r.1.decls.length) = some 2 := by
    rw [tokens, hchars]
    decide +kernel
  obtain ⟨ts, hts, h⟩ := toOption_bind_eq_some.1 h
  obtain ⟨tree, htree, h⟩ := toOption_bind_eq_some.1 h
  obtain ⟨⟨p, t⟩, hp, h⟩ := toOption_bind_eq_some.1 h
  exact ⟨ts, tree, p, t, hts, htree, hp, Option.some.inj h, wellTyped_of_text hts htree hp⟩

end IntegerC.ThreeAddress
