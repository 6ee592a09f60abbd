import IntegerC.Proofs.LoopNames
import IntegerC.Proofs.Typed

set_option autoImplicit false

/-! # What checking a program ensures

A program whose names are resolved is checked or refused at one of its spans. On the way the symbol
table only grows: a name that is found in it keeps its type, because names without linkage are
declared once and declarations of a name with linkage have to agree. So what was checked early is
still well typed in the table at the end.
-/

namespace IntegerC

variable {p : Span → Prop}

/-! ## Typed statements -/

/-- The declaration of a local variable with its initializer checked, if it is to be evaluated. -/
def VarDecl.Typed (t : SymbolTable) (d : VarDecl) : Prop :=
  d.storage = none →
    t.typeOf? d.name = some (.integer d.type) ∧ ∀ e ∈ d.init, e.HasType t d.type

def Expr.Typed (t : SymbolTable) (e : Expr) : Prop := ∃ τ, e.HasType t τ

def ForInit.Typed (t : SymbolTable) : ForInit → Prop
  | .nothing => True
  | .decl d => d.Typed t
  | .expr e => e.Typed t

mutual
/-- A checked statement of a function that returns type `result`. -/
def Stmt.Typed (t : SymbolTable) (result : IntType) : Stmt → Prop
  | .ret _ e => e.HasType t result
  | .expr _ e => e.Typed t
  | .ifThen _ e yes => e.Typed t ∧ yes.Typed t result
  | .ifElse _ e yes no => e.Typed t ∧ yes.Typed t result ∧ no.Typed t result
  | .block _ is => Item.AllTyped t result is
  | .whileLoop _ _ e body => e.Typed t ∧ body.Typed t result
  | .doLoop _ _ body e => body.Typed t result ∧ e.Typed t
  | .forLoop _ _ init e post body =>
      init.Typed t ∧ (∀ e' ∈ e, e'.Typed t) ∧ (∀ e' ∈ post, e'.Typed t) ∧ body.Typed t result
  | .breakLoop _ _ | .continueLoop _ _ | .null _ => True

def Item.Typed (t : SymbolTable) (result : IntType) : Item → Prop
  | .stmt s => s.Typed t result
  | .decl (.var d) => d.Typed t
  | .decl _ => True

def Item.AllTyped (t : SymbolTable) (result : IntType) : List Item → Prop
  | [] => True
  | i :: is => i.Typed t result ∧ Item.AllTyped t result is
end

def Decl.Typed (t : SymbolTable) : Decl → Prop
  | .function h _ body =>
      t.typeOf? h.name = some h.type ∧
        (∀ q ∈ h.params, t.typeOf? q.name = some (.integer q.type)) ∧
        Item.AllTyped t h.result body
  | _ => True

theorem VarDecl.Typed.mono {t u : SymbolTable} {d : VarDecl} (h : t.Extends u) (hd : d.Typed t) :
    d.Typed u :=
  fun hs => ⟨h _ _ (hd hs).1, fun e he => Expr.HasType.mono h e _ ((hd hs).2 e he)⟩

theorem Expr.Typed.mono {t u : SymbolTable} {e : Expr} (h : t.Extends u) (he : e.Typed t) :
    e.Typed u :=
  he.imp fun τ hτ => Expr.HasType.mono h e τ hτ

theorem ForInit.Typed.mono {t u : SymbolTable} {i : ForInit} (h : t.Extends u) (hi : i.Typed t) :
    i.Typed u := by
  cases i with
  | nothing => trivial
  | decl d => exact VarDecl.Typed.mono h hi
  | expr e => exact Expr.Typed.mono h hi

mutual
/-- What is typed in a table stays typed when the table learns more names. -/
theorem Stmt.Typed.mono {t u : SymbolTable} (h : t.Extends u) {result : IntType} :
    (s : Stmt) → s.Typed t result → s.Typed u result
  | .ret _ e, hs => Expr.HasType.mono h e _ hs
  | .expr _ _, hs => Expr.Typed.mono h hs
  | .ifThen _ _ yes, ⟨he, hy⟩ => ⟨he.mono h, Stmt.Typed.mono h yes hy⟩
  | .ifElse _ _ yes no, ⟨he, hy, hn⟩ =>
      ⟨he.mono h, Stmt.Typed.mono h yes hy, Stmt.Typed.mono h no hn⟩
  | .block _ is, his => Item.AllTyped.mono h is his
  | .whileLoop _ _ _ body, ⟨he, hb⟩ => ⟨he.mono h, Stmt.Typed.mono h body hb⟩
  | .doLoop _ _ body _, ⟨hb, he⟩ => ⟨Stmt.Typed.mono h body hb, he.mono h⟩
  | .forLoop _ _ _ _ _ body, ⟨hi, he, hp, hb⟩ =>
      ⟨hi.mono h, fun e m => (he e m).mono h, fun e m => (hp e m).mono h,
        Stmt.Typed.mono h body hb⟩
  | .breakLoop _ _, _ | .continueLoop _ _, _ | .null _, _ => trivial
termination_by structural s => s

theorem Item.Typed.mono {t u : SymbolTable} (h : t.Extends u) {result : IntType} :
    (i : Item) → i.Typed t result → i.Typed u result
  | .stmt s, hs => Stmt.Typed.mono h s hs
  | .decl (.var _), hd => VarDecl.Typed.mono h hd
  | .decl (.prototype _), _ | .decl (.function _ _ _), _ => trivial
termination_by structural i => i

theorem Item.AllTyped.mono {t u : SymbolTable} (h : t.Extends u) {result : IntType} :
    (is : List Item) → Item.AllTyped t result is → Item.AllTyped u result is
  | [], _ => trivial
  | i :: is, ⟨hi, his⟩ => ⟨Item.Typed.mono h i hi, Item.AllTyped.mono h is his⟩
termination_by structural is => is
end

theorem Decl.Typed.mono {t u : SymbolTable} (h : t.Extends u) {d : Decl} (hd : d.Typed t) :
    d.Typed u := by
  cases d with
  | function f s body =>
      obtain ⟨hf, hps, hb⟩ := hd
      exact ⟨h _ _ hf, fun q hq => h _ _ (hps q hq), Item.AllTyped.mono h body hb⟩
  | _ => trivial

/-! ## Tables -/

/-- A symbol that is a function if its type says so. -/
def Symbol.Consistent : Symbol → Prop
  | ⟨.integer _, .automatic⟩ | ⟨.integer _, .static _ _⟩ | ⟨.function _ _, .function _ _⟩ => True
  | _ => False

/-- A table in which exactly the names with function types are functions. -/
def SymbolTable.Consistent (t : SymbolTable) : Prop :=
  ∀ x s, t.find? x = some s → s.Consistent

theorem SymbolTable.consistent_put {t : SymbolTable} (h : t.Consistent) {x : String} {s : Symbol}
    (hs : s.Consistent) : SymbolTable.Consistent (t.put x s) := by
  intro y s' hy
  by_cases e : y = x
  · rw [e, Table.find?_put_self] at hy
    cases hy
    exact hs
  · rw [Table.find?_put_of_ne t s e] at hy
    exact h y s' hy

/-- Parts that can be checked against a table which does not know the names that they declare
without linkage. -/
structure Checkable (p : Span → Prop) (t : SymbolTable) (parts : List Part) : Prop where
  read : Part.AllRead p parts
  nodup : (parts.flatMap Part.unlinked).Nodup
  dotted : ∀ x ∈ parts.flatMap Part.unlinked, ¬ Plain x
  apart : ∀ x ∈ parts.flatMap Part.unlinked, t.typeOf? x = none
  assigns : ∀ e ∈ parts.flatMap Part.running, e.AssignsVars

/-- How the table grows from `t` to `u` when the parts are checked. -/
structure Declares (t : SymbolTable) (parts : List Part) (u : SymbolTable) : Prop where
  grows : t.Extends u
  known : ∀ x, u.Knows x → t.Knows x ∨ Plain x ∨ x ∈ parts.flatMap Part.unlinked
  consistent : t.Consistent → u.Consistent

namespace Declares

variable {t u v : SymbolTable} {xs ys : List Part}

theorem refl (t : SymbolTable) (xs : List Part) : Declares t xs t :=
  ⟨.refl t, fun _ h => .inl h, id⟩

/-- Parts that are checked one after the other make the table grow step by step. -/
theorem trans (h : Declares t xs u) (h' : Declares u ys v) : Declares t (xs ++ ys) v where
  grows := h.grows.trans h'.grows
  known := by
    intro x hx
    rw [List.flatMap_append, List.mem_append]
    rcases h'.known x hx with hu | hp | hy
    · rcases h.known x hu with ht | hp | hx
      · exact .inl ht
      · exact .inr (.inl hp)
      · exact .inr (.inr (.inl hx))
    · exact .inr (.inl hp)
    · exact .inr (.inr (.inr hy))
  consistent := fun hc => h'.consistent (h.consistent hc)

theorem trans_self (h : Declares t xs u) (h' : Declares u xs v) : Declares t xs v where
  grows := h.grows.trans h'.grows
  known := by
    intro x hx
    have hm := (h.trans h').known x hx
    rwa [List.flatMap_append, List.mem_append, or_self] at hm
  consistent := fun hc => h'.consistent (h.consistent hc)

theorem cons {x : Part} (h : Declares t xs u) : Declares t (x :: xs) u :=
  (Declares.refl t [x]).trans h

/-- Recording a symbol is harmless for a name that has its type already or has none. -/
theorem put {x : String} {s : Symbol} (ht : t.typeOf? x = none ∨ t.typeOf? x = some s.type)
    (hx : Plain x ∨ x ∈ xs.flatMap Part.unlinked) (hs : s.Consistent) :
    Declares t xs (t.put x s) where
  grows := SymbolTable.extends_put ht
  known := by
    intro y hy
    rw [SymbolTable.Knows, SymbolTable.typeOf?_put] at hy
    split at hy
    · rename_i e
      exact .inr (e ▸ hx)
    · exact .inl hy
  consistent := fun hc => SymbolTable.consistent_put hc hs

end Declares

namespace Checkable

variable {t u : SymbolTable} {l r : List Part}

theorem left (h : Checkable p t (l ++ r)) : Checkable p t l := by
  obtain ⟨hr, hn, hd, ha, hv⟩ := h
  simp only [List.flatMap_append, List.forall_mem_append, Part.allRead_append] at hr hn hd ha hv
  exact ⟨hr.1, (List.nodup_append.1 hn).1, hd.1, ha.1, hv.1⟩

/-- What comes later can still be checked, because the names differ. -/
theorem right (h : Checkable p t (l ++ r)) (hu : Declares t l u) : Checkable p u r := by
  obtain ⟨hr, hn, hd, ha, hv⟩ := h
  simp only [List.flatMap_append, List.forall_mem_append, Part.allRead_append] at hr hn hd ha hv
  obtain ⟨-, hny, hdisj⟩ := List.nodup_append.1 hn
  refine ⟨hr.2, hny, hd.2, fun x hx => ?_, hv.2⟩
  by_cases e : u.typeOf? x = none
  · exact e
  · rcases hu.known x e with ht | hp | hxs
    · exact absurd (ha.2 x hx) ht
    · exact absurd hp (hd.2 x hx)
    · exact absurd rfl (hdisj x hxs x hx)

theorem tail {x : Part} (h : Checkable p t (x :: l)) : Checkable p t l :=
  Checkable.right (l := [x]) h (.refl t [x])

theorem of_resolved {lo hi : Nat} (h : Resolved p lo hi l) : Checkable p [] l :=
  ⟨h.read, h.unlinked.nodup, h.unlinked.not_plain, fun _ _ => rfl, h.assigns⟩

end Checkable

/-! ## Constants -/

/-- The value of an operator on constants is a constant or the division by zero that is reported at
the operator's span. -/
theorem ArithOp.eval_ensures {bad : Fault → Prop} {t : IntType} (op : ArithOp) {a b : Int} {s : Span}
    (hs : ∀ d, bad ((Cause.divisionByZero d).at s)) :
    Ensures (match op.eval t a b with
      | .ok n => (pure n : Except Fault Int)
      | .error division => throw ((Cause.divisionByZero division).at s)) bad (fun _ => True) := by
  split
  · exact .pure trivial
  · exact .error (hs _)

/-- What is known of a folded value: its evaluation fails in a way that is `bad`, if at all. -/
def Folded.Sound (bad : Fault → Prop) (f : Folded) : Prop := Ensures f.value bad (fun _ => True)

namespace Folded

variable {bad : Fault → Prop} {f g h : Folded}

theorem Sound.convert (hf : f.Sound bad) (t : IntType) :
    Ensures (f.convert t) bad (fun _ => True) :=
  Ensures.map hf

/-- An operator fails at compile time only where it divides by zero, or where an operand fails. -/
theorem sound_binary {s : Span} (hs : ∀ d, bad ((Cause.divisionByZero d).at s)) (op : BinaryOp)
    (hf : f.Sound bad) (hg : g.Sound bad) : (binary s op f g).Sound bad := by
  cases op with
  | logic op =>
      cases op with
      | and =>
          refine Ensures.bind hf fun a _ => ?_
          split
          · exact .pure trivial
          · exact Ensures.bind hg fun b _ => .pure trivial
      | or =>
          refine Ensures.bind hf fun a _ => ?_
          split
          · exact .pure trivial
          · exact Ensures.bind hg fun b _ => .pure trivial
  | shift op => exact Ensures.bind hg fun _ _ => Ensures.bind hf fun _ _ => .pure trivial
  | compare op =>
      refine Ensures.bind (hf.convert _) fun _ _ => ?_
      exact Ensures.bind (hg.convert _) fun _ _ => .pure trivial
  | arith op =>
      refine Ensures.bind (hf.convert _) fun a _ => Ensures.bind (hg.convert _) fun b _ => ?_
      exact op.eval_ensures hs

theorem sound_conditional (hf : f.Sound bad) (hg : g.Sound bad) (hh : h.Sound bad) :
    (conditional f g h).Sound bad := by
  refine Ensures.bind hf fun a _ => ?_
  split
  · exact hg.convert _
  · exact hh.convert _

end Folded

/-- Only a division by zero is refused when a value is folded. -/
theorem Expr.sound_of_fold_eq {bad : Fault → Prop} {e : Expr} :
    ∀ f, (∀ q ∈ e.spans, ∀ d, bad ((Cause.divisionByZero d).at q)) → e.fold = some f →
      f.Sound bad := by
  induction e using Expr.fold.induct with
  | case1 n c =>
      intro f _ hf
      rw [fold] at hf
      cases hf
      exact Ensures.pure trivial
  | case2 | case3 | case4 =>
      intro f _ hf
      rw [fold] at hf
      cases hf
  | case5 n target a ih =>
      intro f h hf
      rw [spans_cast, List.forall_mem_append] at h
      obtain ⟨g, hg, rfl⟩ := fold_cast_eq_some.1 hf
      exact (ih g h.1 hg).convert target
  | case6 n op a ih =>
      intro f h hf
      rw [spans_unary, List.forall_mem_append] at h
      obtain ⟨g, hg, rfl⟩ := fold_unary_eq_some.1 hf
      exact Ensures.map (ih g h.1 hg)
  | case7 n op a b iha ihb =>
      intro f h hf
      rw [spans_binary, List.forall_mem_append, List.forall_mem_append] at h
      obtain ⟨g, g', hg, hg', rfl⟩ := fold_binary_eq_some.1 hf
      exact Folded.sound_binary (h.2 _ List.mem_cons_self) op (iha g h.1.1 hg) (ihb g' h.1.2 hg')
  | case8 n a b c iha ihb ihc =>
      intro f h hf
      rw [spans_conditional, List.forall_mem_append, List.forall_mem_append,
        List.forall_mem_append] at h
      obtain ⟨g, g', g'', hg, hg', hg'', rfl⟩ := fold_conditional_eq_some.1 hf
      exact Folded.sound_conditional (iha g h.1.1.1 hg) (ihb g' h.1.1.2 hg') (ihc g'' h.1.2 hg'')

/-- The initial value of a static object is refused for a division by zero, or since it is none. -/
theorem VarDecl.staticValue?_blames {bad : Fault → Prop} {d : VarDecl}
    (hdivision : ∀ e ∈ d.init, ∀ q ∈ e.spans, ∀ op, bad ((Cause.divisionByZero op).at q))
    (hconstant : ∀ e ∈ d.init, bad ((Cause.nonConstantInitializer d.name).at e.span)) :
    Ensures d.staticValue? bad (fun _ => True) := by
  unfold staticValue?
  cases hd : d.init with
  | none => exact .pure trivial
  | some e =>
      have hconst : Ensures e.constant? bad (fun _ => True) := by
        unfold Expr.constant?
        split
        · exact .pure trivial
        · rename_i f hf
          exact Ensures.map (Expr.sound_of_fold_eq f (hdivision e hd) hf)
      refine Ensures.map (Ensures.bind hconst fun c _ => ?_)
      split
      · exact .pure trivial
      · exact .error (hconstant e hd)

theorem VarDecl.staticValue?_ensures {d : VarDecl} (h : Part.AllRead p (Part.optional d.init)) :
    Ensures d.staticValue? (Fault.At p) (fun _ => True) := by
  rw [Part.allRead_optional] at h
  exact staticValue?_blames (fun e he q hq op => .of (by simp) (h e he q hq))
    fun e he => .of (by simp) (h e he _ e.span_mem_spans)

/-! ## Entries -/

/-- An entry of type `τ` that may take the place of what is known about a name. -/
def Symbol.Replaces (τ : CType) (old : Option Symbol) (s : Symbol) : Prop :=
  s.type = τ ∧ s.Consistent ∧ ∀ o ∈ old, o.type = τ

/-- A declaration that fits what is known gives an entry that may replace the old one. Any other one
is refused at the declaration itself. -/
theorem VarDecl.fileEntry_ensures {d : VarDecl} {value : Option Constant} {old : Option Symbol}
    (h : p d.span) :
    Ensures (d.fileEntry value old) (Fault.At p) (Symbol.Replaces (.integer d.type) old) := by
  rcases old with _ | ⟨τ, _ | ⟨init, global⟩ | _⟩
  · exact .pure ⟨rfl, trivial, by simp⟩
  · refine .error (.of ?_ h)
    simp
  · unfold fileEntry
    dsimp only
    refine .ite (fun _ => .error (.of ?_ h)) fun hτ => .ite (fun _ => .error (.of ?_ h)) fun _ => ?_
    · simp
    · simp
    · split
      · refine .error (.of ?_ h)
        simp
      · exact .pure ⟨rfl, trivial, by simpa using hτ⟩
  · refine .error (.of ?_ h)
    simp

/-- The same for functions, whose parameters and result have to be the known ones. -/
theorem FunHeader.entry_ensures {h : FunHeader} {defines : Bool} {old : Option Symbol}
    (hs : p h.span) :
    Ensures (h.entry defines old) (Fault.At p) (Symbol.Replaces h.type old) := by
  rcases old with _ | ⟨τ, _ | _ | ⟨defined, global⟩⟩
  · exact .pure ⟨rfl, trivial, by simp⟩
  · refine .error (.of ?_ hs)
    simp
  · refine .error (.of ?_ hs)
    simp
  · unfold entry
    dsimp only
    refine .ite (fun _ => .error (.of ?_ hs)) fun hτ => .ite (fun _ => .error (.of ?_ hs)) fun _ =>
      .ite (fun _ => .error (.of ?_ hs)) fun _ => .pure ⟨rfl, trivial, by simpa using hτ⟩
    · simp
    · simp
    · simp

/-- A symbol that replaces what stands under a name leaves the type of that name alone, where it had
one. -/
theorem Symbol.Replaces.typeOf? {t : SymbolTable} {x : String} {τ : CType} {s : Symbol}
    (h : s.Replaces τ (t.find? x)) : t.typeOf? x = none ∨ t.typeOf? x = some s.type := by
  cases e : t.find? x with
  | none => exact .inl (SymbolTable.typeOf?_eq_none.2 e)
  | some o =>
      refine .inr ?_
      rw [SymbolTable.typeOf?, e, h.1]
      exact congrArg some (h.2.2 o e)

/-! ## Declarations -/

namespace Checker

variable {t : SymbolTable}

theorem expr_ensures {e : Expr} (h : Checkable p t [.expr e]) :
    Ensures ((expr e).run t) (Fault.At p) (fun o => t = o.2 ∧ o.1.Typed t) := by
  have hs := Part.read_expr.1 (h.read _ List.mem_cons_self)
  have ha := h.assigns e (by simp [Part.running])
  exact .run_lift_last ((e.check_ensures t hs ha).imp fun e' he => ⟨rfl, he⟩)

theorem optionalExpr_ensures {o : Option Expr} (h : Checkable p t (Part.optional o)) :
    Ensures ((optionalExpr o).run t) (Fault.At p)
      (fun u => t = u.2 ∧ ∀ e ∈ u.1, e.Typed t) := by
  cases o with
  | none => exact .run_pure ⟨rfl, by simp⟩
  | some e => exact .run_map ((expr_ensures h).imp fun o ho => ⟨ho.1, by simpa using ho.2⟩)

theorem exprAs_ensures {e : Expr} (τ : IntType) (h : Checkable p t [.expr e]) :
    Ensures ((exprAs τ e).run t) (Fault.At p) (fun o => t = o.2 ∧ o.1.HasType t τ) := by
  refine (expr_ensures h).run_bind fun e' t' ⟨ht, σ, he⟩ => .run_pure ⟨ht, he.convert τ⟩

/-- Recording a symbol keeps to what the parts may declare, where the name had its type or none and
is plain or one of their block-scope names. -/
theorem record_ensures {x : String} {s : Symbol} (parts : List Part)
    (ht : t.typeOf? x = none ∨ t.typeOf? x = some s.type)
    (hx : Plain x ∨ x ∈ parts.flatMap Part.unlinked) (hs : s.Consistent) :
    Ensures ((record x s).run t) (Fault.At p)
      (fun o => Declares t parts o.2 ∧ o.2.typeOf? x = some s.type) := by
  refine Ensures.pure ⟨.put ht hx hs, ?_⟩
  show SymbolTable.typeOf? (t.put x s) x = some s.type
  rw [SymbolTable.typeOf?_put, if_pos rfl]

theorem fileVar_ensures {d : VarDecl} (h : Checkable p t [.fileVar d]) :
    Ensures ((fileVar d).run t) (Fault.At p) (fun o => Declares t [.fileVar d] o.2) := by
  obtain ⟨⟨hs, hi⟩, hn⟩ := Part.read_fileVar.1 (h.read _ List.mem_cons_self)
  rw [fileVar]
  refine .run_lift (VarDecl.staticValue?_ensures hi) fun value _ => ?_
  refine .run_get ?_
  refine .run_lift (VarDecl.fileEntry_ensures hs) fun entry he => ?_
  exact (record_ensures _ he.typeOf? (.inl hn) he.2.1).run_bind fun _ u hu => .run_pure hu.1

/-- The parts of a variable are checked as those of its initializer are. -/
theorem checkable_init {d : VarDecl} {u : SymbolTable} {e : Expr} (h : Checkable p t [.var d])
    (hs : d.storage = none) (hd : d.init = some e) : Checkable p u [.expr e] := by
  have hr := (Part.read_var.1 (h.read _ List.mem_cons_self)).1.2
  have ha := h.assigns e (by simp [Part.running, VarDecl.running, hs, hd])
  refine ⟨?_, by simp [Part.unlinked], by simp [Part.unlinked], by simp [Part.unlinked], ?_⟩
  · rw [hd] at hr
    exact hr
  · simpa [Part.running] using ha

/-- The three kinds of variables of a block take three ways into the table: an `extern` one by its
linkage, the others as names that the table does not know yet. -/
theorem localVar_ensures {d : VarDecl} (h : Checkable p t [.var d]) :
    Ensures ((localVar d).run t) (Fault.At p)
      (fun o => Declares t [.var d] o.2 ∧ o.1.Typed o.2) := by
  obtain ⟨⟨hspan, hi⟩, hn⟩ := Part.read_var.1 (h.read _ List.mem_cons_self)
  have hmem : d.storage ≠ some .external → d.name ∈ [Part.var d].flatMap Part.unlinked := by
    intro hs
    simp [Part.unlinked, hs]
  rw [localVar]
  split
  · -- `extern`: the object is that of the file scope
    rename_i hs
    split
    · rename_i e he
      refine .run_throw (.of ?_ (Part.allRead_optional.1 hi e he _ e.span_mem_spans))
      simp
    · refine .run_get ?_
      have htyped : ∀ u, d.Typed u := fun u h' => by rw [hs] at h'; cases h'
      split
      · rename_i hnone
        have hnone := SymbolTable.typeOf?_eq_none.2 hnone
        refine Ensures.run_bind (record_ensures [.var d] (.inl hnone) (.inl (hn hs)) trivial) ?_
        exact fun _ u hu => .run_pure ⟨hu.1, htyped u⟩
      · refine .run_ite (fun _ => .run_pure ⟨.refl t _, htyped t⟩) fun _ => ?_
        refine .run_throw (.of ?_ hspan)
        simp
  · -- `static`: the initializer is replaced by its value
    rename_i hs
    have hx := hmem (by simp [hs])
    refine .run_lift (VarDecl.staticValue?_ensures hi) fun value _ => ?_
    refine Ensures.run_bind
      (record_ensures [.var d] (.inl (h.apart _ hx)) (.inr hx) trivial) ?_
    intro _ u hu
    refine .run_pure ⟨hu.1, fun h' => ?_⟩
    have hs' : (d.withValue value).storage = d.storage := rfl
    rw [hs', hs] at h'
    cases h'
  · -- automatic: the name is recorded before the initializer is checked
    rename_i hs
    have hx := hmem (by simp [hs])
    refine Ensures.run_bind
      (record_ensures [.var d] (.inl (h.apart _ hx)) (.inr hx) trivial) ?_
    rintro _ u ⟨hu, hτ⟩
    split
    · rename_i hd
      exact .run_pure ⟨hu, fun _ => ⟨hτ, by simp [hd]⟩⟩
    · rename_i e hd
      refine (exprAs_ensures d.type (checkable_init h hs hd)).run_bind ?_
      rintro e' u' ⟨hu', he⟩
      subst hu'
      exact .run_pure ⟨hu, fun _ => ⟨hτ, by simpa using he⟩⟩

/-- A function header declares its name with the header's own type, on a prototype and on a
definition alike. -/
theorem function_ensures {f : FunHeader} (parts : List Part) (defines : Bool)
    (h : (Part.prototype f).Read p) :
    Ensures ((function f defines).run t) (Fault.At p)
      (fun o => Declares t parts o.2 ∧ o.2.typeOf? f.name = some f.type) := by
  obtain ⟨⟨hs, -⟩, hn⟩ := Part.read_prototype.1 h
  rw [function]
  refine .run_get ?_
  refine .run_lift (FunHeader.entry_ensures hs) fun entry he => ?_
  exact (record_ensures parts he.typeOf? (.inl hn) he.2.1).imp fun o ⟨hd, hτ⟩ =>
    ⟨hd, by rw [hτ, he.1]⟩

/-- Parameters have names of their own, so all of them get their types. -/
theorem params_ensures (parts : List Part) (ps : List Param) :
    ∀ t : SymbolTable, (ps.map Param.name).Nodup →
      (∀ q ∈ ps, q.name ∈ parts.flatMap Part.unlinked ∧ t.typeOf? q.name = none) →
      Ensures ((params ps).run t) (Fault.At p)
        (fun o => Declares t parts o.2 ∧
          ∀ q ∈ ps, o.2.typeOf? q.name = some (.integer q.type)) := by
  induction ps with
  | nil =>
      intro t _ _
      exact .run_pure ⟨.refl t _, by simp⟩
  | cons q ps ih =>
      intro t hn h
      obtain ⟨⟨hq, hnone⟩, hps⟩ := List.forall_mem_cons.1 h
      rw [List.map_cons, List.nodup_cons] at hn
      rw [params]
      refine .run_modify ?_
      -- the names are all different, so the others are still unknown
      have hput : ∀ r ∈ ps,
          SymbolTable.typeOf? (t.put q.name (.automatic q.type)) r.name = none := by
        intro r hr
        have hne : r.name ≠ q.name := fun e => hn.1 (e ▸ List.mem_map_of_mem hr)
        rw [SymbolTable.typeOf?_put, if_neg hne]
        exact (hps r hr).2
      refine (ih _ hn.2 fun r hr => ⟨(hps r hr).1, hput r hr⟩).imp fun o ⟨hd, hτ⟩ => ⟨?_, ?_⟩
      · have hfirst : Declares t parts (t.put q.name (.automatic q.type)) :=
          .put (.inl hnone) (.inr hq) trivial
        exact hfirst.trans_self hd
      · refine List.forall_mem_cons.2 ⟨hd.grows _ _ ?_, hτ⟩
        rw [SymbolTable.typeOf?_put, if_pos rfl]
        rfl

/-- Whatever is done after a function and its parameters are recorded may rely on their types. -/
theorem definition_ensures {α : Type} {x : Checker α} {ok : α × SymbolTable → Prop} {f : FunHeader}
    (h : Checkable p t [.function f])
    (hx : ∀ u, Declares t [.function f] u → u.typeOf? f.name = some f.type →
      (∀ q ∈ f.params, u.typeOf? q.name = some (.integer q.type)) →
      Ensures (x.run u) (Fault.At p) ok) :
    Ensures ((do function f true; params f.params; x).run t) (Fault.At p) ok := by
  have hf := Part.read_function.1 (h.read _ List.mem_cons_self)
  refine (function_ensures [] true hf).run_bind ?_
  rintro _ u ⟨hu, hτ⟩
  have hnodup : (f.params.map Param.name).Nodup := by
    simpa [Part.unlinked, FunHeader.paramNames] using h.nodup
  have hps : ∀ q ∈ f.params, q.name ∈ [Part.function f].flatMap Part.unlinked ∧
      u.typeOf? q.name = none := by
    intro q hq
    have hm : q.name ∈ [Part.function f].flatMap Part.unlinked := by
      simpa [Part.unlinked, FunHeader.paramNames] using ⟨q, hq, rfl⟩
    exact ⟨hm, (Checkable.right (l := []) h hu).apart _ hm⟩
  refine (params_ensures [.function f] f.params u hnodup hps).run_bind ?_
  rintro _ v ⟨hv, hps⟩
  exact hx v (hu.trans hv) (hv.grows _ _ hτ) hps

/-! ## Statements -/

theorem forInit_ensures {i : ForInit} (h : Checkable p t i.parts) :
    Ensures ((forInit i).run t) (Fault.At p)
      (fun o => Declares t i.parts o.2 ∧ o.1.Typed o.2) := by
  cases i with
  | nothing => exact .run_pure ⟨.refl t _, trivial⟩
  | decl d => exact (localVar_ensures h).run_bind fun d' u hd => .run_pure hd
  | expr e =>
      refine (expr_ensures h).run_bind fun e' u ⟨hu, he⟩ => ?_
      subst hu
      exact .run_pure ⟨.refl t _, he⟩

mutual
/-- Checking a statement makes the table grow by what the parts of the statement declare, and keeps
the labels of loops. Only faults of the source text are left. -/
theorem stmt_ensures (result : IntType) :
    (s : Stmt) → ∀ t : SymbolTable, Checkable p t s.parts →
      Ensures ((stmt result s).run t) (Fault.At p)
        (fun o => Declares t s.parts o.2 ∧ s.SameLoops o.1 ∧ o.1.Typed o.2 result)
  | .ret s e, t, h => by
      rw [stmt]
      refine (exprAs_ensures result h.tail).run_bind fun e' t' ⟨ht, he⟩ => ?_
      subst ht
      exact .run_pure ⟨.refl t _, ⟨rfl, fun _ _ => trivial⟩, he⟩
  | .expr s e, t, h => by
      rw [stmt]
      refine (expr_ensures h.tail).run_bind fun e' t' ⟨ht, he⟩ => ?_
      subst ht
      exact .run_pure ⟨.refl t _, ⟨rfl, fun _ _ => trivial⟩, he⟩
  | .ifThen s e yes, t, h => by
      rw [stmt]
      refine (expr_ensures (Checkable.left (r := yes.parts) h.tail)).run_bind
        fun e' t' ⟨ht, he⟩ => ?_
      subst ht
      refine (stmt_ensures result yes t h.tail.tail).run_bind fun yes' t₁ ⟨hd, hl, hy⟩ =>
        .run_pure ?_
      exact ⟨hd.cons.cons, hl, he.mono hd.grows, hy⟩
  | .ifElse s e yes no, t, h => by
      rw [stmt]
      have hy := h.tail.tail.left
      refine (expr_ensures (Checkable.left (r := yes.parts ++ no.parts) h.tail)).run_bind ?_
      intro e' t' ⟨ht, he⟩
      subst ht
      refine (stmt_ensures result yes t hy).run_bind fun yes' t₁ ⟨hd, hl, hy⟩ => ?_
      refine (stmt_ensures result no t₁ (h.tail.tail.right hd)).run_bind
        fun no' t₂ ⟨hd', hl', hn⟩ => .run_pure ?_
      exact ⟨(hd.trans hd').cons.cons, hl.ifElse hl', he.mono (hd.grows.trans hd'.grows),
        Stmt.Typed.mono hd'.grows yes' hy, hn⟩
  | .block s is, t, h => by
      rw [stmt]
      refine (items_ensures result is t h.tail).run_bind fun is' t₁ ⟨hd, hl, his⟩ => .run_pure ?_
      exact ⟨hd.cons, hl, his⟩
  | .whileLoop s l e body, t, h => by
      rw [stmt]
      refine (expr_ensures (Checkable.left (r := body.parts) h.tail.tail)).run_bind ?_
      intro e' t' ⟨ht, he⟩
      subst ht
      refine (stmt_ensures result body t h.tail.tail.tail).run_bind fun body' t₁ ⟨hd, hl, hb⟩ =>
        .run_pure ?_
      exact ⟨hd.cons.cons.cons, hl.whileLoop, he.mono hd.grows, hb⟩
  | .doLoop s l body e, t, h => by
      rw [stmt]
      refine (stmt_ensures result body t h.tail.tail.left).run_bind fun body' t₁ ⟨hd, hl, hb⟩ => ?_
      refine (expr_ensures (h.tail.tail.right hd)).run_bind fun e' t' ⟨ht, he⟩ => ?_
      subst ht
      exact .run_pure ⟨(hd.trans (.refl t₁ [.expr e])).cons.cons, hl.doLoop, hb, he⟩
  | .forLoop s l init e post body, t, h => by
      rw [stmt]
      have hrest := h.tail.tail
      refine (forInit_ensures hrest.left).run_bind fun init' t₁ ⟨hi, hinit⟩ => ?_
      have hrest₁ := hrest.right hi
      refine (optionalExpr_ensures hrest₁.left).run_bind fun e' t' ⟨ht, he⟩ => ?_
      subst ht
      have hrest₂ := hrest₁.right (.refl t₁ _)
      refine (optionalExpr_ensures hrest₂.left).run_bind fun post' t' ⟨ht, hpost⟩ => ?_
      subst ht
      refine (stmt_ensures result body t₁ (hrest₂.right (.refl t₁ _))).run_bind ?_
      intro body' t₂ ⟨hd, hl, hb⟩
      refine .run_pure ⟨?_, hl.forLoop, hinit.mono hd.grows, fun a ha => (he a ha).mono hd.grows,
        fun a ha => (hpost a ha).mono hd.grows, hb⟩
      -- conditions declare nothing, so only the head and the body make the table grow
      have hbody : Declares t₁ (Part.optional e ++ (Part.optional post ++ body.parts)) t₂ :=
        (Declares.refl t₁ _).trans ((Declares.refl t₁ _).trans hd)
      exact (hi.trans hbody).cons.cons
  | .breakLoop s l, t, _ => .run_pure ⟨.refl t _, ⟨rfl, fun _ h => h⟩, trivial⟩
  | .continueLoop s l, t, _ => .run_pure ⟨.refl t _, ⟨rfl, fun _ h => h⟩, trivial⟩
  | .null s, t, _ => .run_pure ⟨.refl t _, ⟨rfl, fun _ h => h⟩, trivial⟩
termination_by structural s => s

theorem item_ensures (result : IntType) :
    (i : Item) → ∀ t : SymbolTable, Checkable p t i.parts →
      Ensures ((item result i).run t) (Fault.At p)
        (fun o => Declares t i.parts o.2 ∧ i.SameLoops o.1 ∧ o.1.Typed o.2 result)
  | .stmt s, t, h => by
      rw [item]
      exact (stmt_ensures result s t h).run_bind fun s' t₁ hs => .run_pure hs
  | .decl (.var d), t, h => by
      rw [item]
      refine (localVar_ensures h).run_bind fun d' t₁ ⟨hd, hτ⟩ => .run_pure ?_
      exact ⟨hd, ⟨rfl, fun _ _ => trivial⟩, hτ⟩
  | .decl (.prototype f), t, h => by
      rw [item]
      refine (function_ensures [.prototype f] false (h.read _ List.mem_cons_self)).run_bind ?_
      exact fun _ t₁ hd => .run_pure ⟨hd.1, ⟨rfl, fun _ _ => trivial⟩, trivial⟩
  | .decl (.function f s body), t, h => by
      rw [item]
      refine definition_ensures (Checkable.left (r := .span s :: Item.allParts body) h) ?_
      intro u hu _ _
      have hbody : Checkable p u (Item.allParts body) :=
        (Checkable.right (l := [.function f]) h hu).tail
      refine (items_ensures f.result body u hbody).run_bind fun body' v ⟨hv, _⟩ => .run_pure ?_
      exact ⟨hu.trans hv.cons, ⟨rfl, fun _ _ => trivial⟩, trivial⟩
termination_by structural i => i

theorem items_ensures (result : IntType) :
    (is : List Item) → ∀ t : SymbolTable, Checkable p t (Item.allParts is) →
      Ensures ((items result is).run t) (Fault.At p)
        (fun o => Declares t (Item.allParts is) o.2 ∧ Item.AllSameLoops is o.1 ∧
          Item.AllTyped o.2 result o.1)
  | [], t, _ => .run_pure ⟨.refl t _, ⟨rfl, fun _ _ => trivial⟩, trivial⟩
  | i :: is, t, h => by
      rw [items]
      refine (item_ensures result i t (Checkable.left h)).run_bind fun i' t₁ ⟨hd, hl, hi⟩ => ?_
      refine (items_ensures result is t₁ (Checkable.right h hd)).run_bind
        fun is' t₂ ⟨hd', hl', his⟩ => .run_pure ?_
      exact ⟨hd.trans hd', Item.AllSameLoops.cons hl hl', Item.Typed.mono hd'.grows i' hi, his⟩
termination_by structural is => is
end

/-! ## Programs -/

/-- Names with linkage are entered before the body of a function is looked at, so the body sees its
own function. -/
theorem decl_ensures {d : Decl} (h : Checkable p t d.parts) (hl : d.Labelled) :
    Ensures ((decl d).run t) (Fault.At p)
      (fun o => Declares t d.parts o.2 ∧ o.1.Labelled ∧ o.1.Typed o.2) := by
  cases d with
  | var d =>
      exact (fileVar_ensures h).run_bind fun d' u hu => .run_pure ⟨hu, trivial, trivial⟩
  | prototype f =>
      refine (function_ensures [.prototype f] false (h.read _ List.mem_cons_self)).run_bind ?_
      exact fun _ u hu => .run_pure ⟨hu.1, trivial, trivial⟩
  | function f s body =>
      refine definition_ensures (Checkable.left (r := .span s :: Item.allParts body) h) ?_
      intro u hu hτ hps
      have hbody : Checkable p u (Item.allParts body) :=
        (Checkable.right (l := [.function f]) h hu).tail
      refine (items_ensures f.result body u hbody).run_bind fun body' v ⟨hv, hsame, hb⟩ =>
        .run_pure ?_
      obtain ⟨⟨lo, hi, hgiven⟩, hnamed⟩ := hl
      rw [← hsame.1] at hgiven
      exact ⟨hu.trans hv.cons, ⟨⟨lo, hi, hgiven⟩, hsame.2 none hnamed⟩,
        hv.grows _ _ hτ, fun q hq => hv.grows _ _ (hps q hq), hb⟩

/-- The file scope is checked from first to last, and what was typed early stays typed in the table
at the end. -/
theorem decls_ensures (ds : List Decl) :
    ∀ t : SymbolTable, Checkable p t (ds.flatMap Decl.parts) → (∀ d ∈ ds, d.Labelled) →
      Ensures ((decls ds).run t) (Fault.At p)
        (fun o => Declares t (ds.flatMap Decl.parts) o.2 ∧ (∀ d ∈ o.1, d.Labelled) ∧
          ∀ d ∈ o.1, d.Typed o.2) := by
  induction ds with
  | nil =>
      intro t _ _
      exact .run_pure ⟨.refl t _, by simp, by simp⟩
  | cons d ds ih =>
      intro t h hl
      rw [List.flatMap_cons] at h
      obtain ⟨hld, hlds⟩ := List.forall_mem_cons.1 hl
      rw [decls]
      refine (decl_ensures h.left hld).run_bind fun d' t₁ ⟨hd, hld', hτ⟩ => ?_
      refine (ih t₁ (h.right hd) hlds).run_bind fun ds' t₂ ⟨hds, hlds', hτs⟩ =>
        .run_pure ⟨?_, List.forall_mem_cons.2 ⟨hld', hlds'⟩, ?_⟩
      · rw [List.flatMap_cons]
        exact hd.trans hds
      · exact List.forall_mem_cons.2 ⟨Decl.Typed.mono hds.grows hτ, hτs⟩

end Checker

/-! ## Validation -/

/-- A program that was checked: its declarations are typed in the table, and its loops labelled. -/
structure Program.Checked (t : Program) (symbols : SymbolTable) : Prop where
  typed : ∀ d ∈ t.decls, d.Typed symbols
  labelled : ∀ d ∈ t.decls, d.Labelled
  consistent : symbols.Consistent

theorem Program.check_ensures {t : Program} (h : Checkable p [] t.parts)
    (hl : ∀ d ∈ t.decls, d.Labelled) :
    Ensures (t.check []) (Fault.At p) (fun r => r.1.Checked r.2) := by
  refine Ensures.bind (Checker.decls_ensures t.decls [] h hl) fun r ⟨hd, hl, hτ⟩ => .pure ?_
  exact ⟨hτ, hl, hd.consistent (by simp [SymbolTable.Consistent])⟩

end IntegerC
