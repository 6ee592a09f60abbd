import IntegerC.Proofs.Blame
import IntegerC.Proofs.Tree
import IntegerC.Typing

set_option autoImplicit false

/-! # Typed expressions

`Expr.HasType t e τ` says that `e` is an expression of type `τ` as the checker leaves it: every part
carries its type, operands meet in the type of their operator, and names stand in the table `t` for
what they are used as. Checking an expression either succeeds with such an expression or fails at
one of its spans.
-/

namespace IntegerC

/-! ## Types of names -/

namespace SymbolTable

def typeOf? (t : SymbolTable) (x : String) : Option CType := (t.find? x).map Symbol.type

def Knows (t : SymbolTable) (x : String) : Prop := t.typeOf? x ≠ none

/-- Names keep their types from `t` to `u`. -/
def Extends (t u : SymbolTable) : Prop := ∀ x τ, t.typeOf? x = some τ → u.typeOf? x = some τ

variable {t u v : SymbolTable}

theorem Extends.refl (t : SymbolTable) : t.Extends t := fun _ _ h => h

theorem Extends.trans (h : t.Extends u) (h' : u.Extends v) : t.Extends v :=
  fun x τ hx => h' x τ (h x τ hx)

theorem Extends.knows (h : t.Extends u) {x : String} (hx : t.Knows x) : u.Knows x := by
  obtain ⟨τ, hτ⟩ := Option.ne_none_iff_exists'.1 hx
  exact Option.ne_none_iff_exists'.2 ⟨τ, h x τ hτ⟩

theorem knows_of_typeOf? {x : String} {τ : CType} (h : t.typeOf? x = some τ) : t.Knows x := by
  rw [Knows, h]
  exact Option.some_ne_none τ

theorem typeOf?_eq_some {x : String} {τ : CType} (h : t.typeOf? x = some τ) :
    ∃ a, t.find? x = some ⟨τ, a⟩ := by
  obtain ⟨s, hs, rfl⟩ := Option.map_eq_some_iff.1 h
  exact ⟨s.attributes, hs⟩

theorem typeOf?_eq_none {x : String} : t.typeOf? x = none ↔ t.find? x = none :=
  Option.map_eq_none_iff

theorem typeOf?_put (t : SymbolTable) (x y : String) (s : Symbol) :
    SymbolTable.typeOf? (t.put x s) y = if y = x then some s.type else t.typeOf? y := by
  unfold typeOf?
  split
  · rename_i h
    rw [h, Table.find?_put_self]
    rfl
  · rename_i h
    rw [Table.find?_put_of_ne t s h]

/-- A new entry does no harm to a name of the same type, or to one without a type. -/
theorem extends_put {x : String} {s : Symbol}
    (h : t.typeOf? x = none ∨ t.typeOf? x = some s.type) : t.Extends (t.put x s) := by
  intro y τ hy
  rw [typeOf?_put]
  split
  · rename_i e
    subst e
    rcases h with h | h <;> simp_all
  · exact hy

end SymbolTable

/-! ## Typed expressions -/

/-- How the types `σ` and `ρ` of the operands and the type `τ` of the result of an operator meet. -/
def BinaryOp.Meets (op : BinaryOp) (σ ρ τ : IntType) : Prop :=
  match op with
  | .arith _ => σ = τ ∧ ρ = τ
  | .shift _ => σ = τ
  | .compare _ => σ = ρ ∧ τ = .int
  | .logic _ => τ = .int

/-- The type of an operator with one operand of type `σ`. -/
def UnaryOp.resultType (op : UnaryOp) (σ : IntType) : IntType := if op = .not then .int else σ

namespace Expr

mutual
/-- A checked expression of type `τ`. -/
def HasType (t : SymbolTable) : Expr → IntType → Prop
  | constant n c, τ => n.type = some τ ∧ c.type = τ
  | var n x, τ => n.type = some τ ∧ t.typeOf? x = some (.integer τ)
  | cast n target a, τ => n.type = some τ ∧ target = τ ∧ ∃ σ, a.HasType t σ
  | unary n op a, τ => n.type = some τ ∧ ∃ σ, a.HasType t σ ∧ op.resultType σ = τ
  | binary n op a b, τ =>
      n.type = some τ ∧ ∃ σ ρ, a.HasType t σ ∧ b.HasType t ρ ∧ op.Meets σ ρ τ
  | assignment n a b, τ => n.type = some τ ∧ a.isVar = true ∧ a.HasType t τ ∧ b.HasType t τ
  | conditional n a b c, τ =>
      n.type = some τ ∧ (∃ σ, a.HasType t σ) ∧ b.HasType t τ ∧ c.HasType t τ
  | call n f es, τ =>
      n.type = some τ ∧ ∃ params, t.typeOf? f = some (.function params τ) ∧ HasTypes t es params

def HasTypes (t : SymbolTable) : List Expr → List IntType → Prop
  | [], [] => True
  | e :: es, τ :: τs => e.HasType t τ ∧ HasTypes t es τs
  | _, _ => False
end

variable {t u : SymbolTable} {τ σ : IntType}

theorem HasType.type_eq {e : Expr} (h : e.HasType t τ) : e.type = some τ := by
  cases e <;> exact h.1

theorem HasType.typeOf_eq {e : Expr} (h : e.HasType t τ) : e.typeOf = .ok τ := by
  rw [typeOf, h.type_eq]

mutual
/-- Types in a table are kept by every extension of it. -/
theorem HasType.mono (htu : t.Extends u) :
    (e : Expr) → ∀ τ, e.HasType t τ → e.HasType u τ
  | constant _ _, _, h => h
  | var _ _, _, ⟨hn, hx⟩ => ⟨hn, htu _ _ hx⟩
  | cast _ _ a, _, ⟨hn, ht, σ, ha⟩ => ⟨hn, ht, σ, HasType.mono htu a σ ha⟩
  | unary _ _ a, _, ⟨hn, σ, ha, hop⟩ => ⟨hn, σ, HasType.mono htu a σ ha, hop⟩
  | binary _ _ a b, _, ⟨hn, σ, ρ, ha, hb, hop⟩ =>
      ⟨hn, σ, ρ, HasType.mono htu a σ ha, HasType.mono htu b ρ hb, hop⟩
  | assignment _ a b, τ, ⟨hn, hv, ha, hb⟩ =>
      ⟨hn, hv, HasType.mono htu a τ ha, HasType.mono htu b τ hb⟩
  | conditional _ a b c, τ, ⟨hn, ⟨σ, ha⟩, hb, hc⟩ =>
      ⟨hn, ⟨σ, HasType.mono htu a σ ha⟩, HasType.mono htu b τ hb, HasType.mono htu c τ hc⟩
  | call _ _ es, _, ⟨hn, params, hf, hes⟩ =>
      ⟨hn, params, htu _ _ hf, HasTypes.mono htu es params hes⟩
termination_by structural e => e

theorem HasTypes.mono (htu : t.Extends u) :
    (es : List Expr) → ∀ τs, HasTypes t es τs → HasTypes u es τs
  | [], [], _ => trivial
  | e :: es, τ :: τs, ⟨h, hs⟩ => ⟨HasType.mono htu e τ h, HasTypes.mono htu es τs hs⟩
termination_by structural es => es
end

/-- Conversion gives an expression the type asked for. -/
theorem HasType.convert {e : Expr} (h : e.HasType t σ) (τ : IntType) :
    (e.convert τ).HasType t τ := by
  unfold Expr.convert
  split
  · rename_i he
    obtain rfl : σ = τ := Option.some.inj (h.type_eq.symm.trans he)
    exact h
  · exact ⟨rfl, rfl, σ, h⟩

/-- Converting each argument to the type of its parameter makes it an expression of that type. -/
theorem HasTypes.zipWith_convert {τs : List IntType} :
    ∀ {es : List Expr}, (∀ e ∈ es, ∃ σ, e.HasType t σ) → τs.length = es.length →
      HasTypes t (List.zipWith convert es τs) τs := by
  induction τs with
  | nil =>
      intro es _ hlen
      obtain rfl := List.length_eq_zero_iff.1 hlen.symm
      trivial
  | cons τ τs ih =>
      intro es hes hlen
      cases es with
      | nil => cases hlen
      | cons e es =>
          obtain ⟨⟨σ, he⟩, hes⟩ := List.forall_mem_cons.1 hes
          exact ⟨he.convert τ, ih hes (by simpa using hlen)⟩

end Expr

/-- A binary operation over typed operands has a type, whichever operator it is. -/
theorem BinaryOp.hasType_typed {t : SymbolTable} {n : Note} {a b : Expr} {σ ρ : IntType}
    (op : BinaryOp) (ha : a.HasType t σ) (hb : b.HasType t ρ) :
    ∃ τ, (op.typed n a b σ ρ).HasType t τ := by
  cases op with
  | arith _ =>
      exact ⟨σ.common ρ, rfl, _, _, ha.convert _, hb.convert _, rfl, rfl⟩
  | shift _ => exact ⟨σ, rfl, _, _, ha, hb, rfl⟩
  | compare _ => exact ⟨.int, rfl, _, _, ha.convert _, hb.convert _, rfl, rfl⟩
  | logic _ => exact ⟨.int, rfl, _, _, ha, hb, rfl⟩

/-! ## Checking -/

namespace Expr

variable {p : Span → Prop} {t : SymbolTable}

/-- The type of a typed expression is at hand. -/
theorem typeOf_ensures {e : Expr} {τ : IntType} (h : e.HasType t τ) :
    Ensures e.typeOf (Fault.At p) (fun σ => σ = τ) := by
  rw [h.typeOf_eq]
  exact .pure rfl

/-- A checked variable is a variable still, so targets of assignments stay such. -/
theorem isVar_of_check {e e' : Expr} (h : e.isVar = true) (hc : e.check t = .ok e') :
    e'.isVar = true := by
  cases e with
  | var n x =>
      rw [check] at hc
      split at hc <;> cases hc
      rfl
  | _ => cases h

mutual
/-- Checking gives each node the type that the rules of typing give it, and its faults are at spans
of the expression. -/
theorem check_ensures (t : SymbolTable) :
    (e : Expr) → (∀ q ∈ e.spans, p q) → e.AssignsVars →
      Ensures (e.check t) (Fault.At p) (fun e' => ∃ τ, e'.HasType t τ)
  | constant n c, _, _ => by
      rw [check]
      exact .pure ⟨c.type, rfl, rfl⟩
  | var n x, h, _ => by
      rw [check]
      split
      · refine .error (.of ?_ (h _ (by simp)))
        simp
      · refine .error (.of ?_ (h _ (by simp)))
        simp
      · rename_i τ a hx
        exact .pure ⟨τ, rfl, by simp [SymbolTable.typeOf?, hx]⟩
  | cast n target a, h, hv => by
      rw [check]
      rw [spans_cast, List.forall_mem_append] at h
      refine (check_ensures t a h.1 hv).bind fun a' ⟨σ, ha⟩ => ?_
      exact (typeOf_ensures ha).bind fun _ _ => .pure ⟨target, rfl, rfl, σ, ha⟩
  | unary n op a, h, hv => by
      rw [check]
      rw [spans_unary, List.forall_mem_append] at h
      refine (check_ensures t a h.1 hv).bind fun a' ⟨σ, ha⟩ => ?_
      refine (typeOf_ensures ha).bind fun _ hσ => .pure ⟨op.resultType σ, ?_, σ, ha, rfl⟩
      rw [hσ]
      rfl
  | binary n op a b, h, hv => by
      rw [check]
      rw [spans_binary, List.forall_mem_append, List.forall_mem_append] at h
      refine (check_ensures t a h.1.1 hv.1).bind fun a' ⟨σ, ha⟩ => ?_
      refine (check_ensures t b h.1.2 hv.2).bind fun b' ⟨ρ, hb⟩ => ?_
      refine (typeOf_ensures ha).bind fun _ hσ => ?_
      refine (typeOf_ensures hb).bind fun _ hρ => .pure ?_
      rw [hσ, hρ]
      exact op.hasType_typed ha hb
  | assignment n a b, h, hv => by
      rw [check]
      rw [spans_assignment, List.forall_mem_append, List.forall_mem_append] at h
      -- the target is a variable, in which nothing is assigned
      have hassigns : a.AssignsVars := by
        cases a <;> first | trivial | cases hv.1
      have hcheck := check_ensures t a h.1.1 hassigns
      cases e : a.check t with
      | error f => exact .error (hcheck.bad_of_eq e)
      | ok a' =>
          obtain ⟨τ, ha⟩ := hcheck.ok_of_eq e
          refine (check_ensures t b h.1.2 hv.2).bind fun b' ⟨ρ, hb⟩ => ?_
          refine (typeOf_ensures ha).bind fun _ hτ => .pure ⟨τ, ?_⟩
          rw [hτ]
          exact ⟨rfl, isVar_of_check hv.1 e, ha, hb.convert τ⟩
  | conditional n a b c, h, hv => by
      rw [check]
      rw [spans_conditional, List.forall_mem_append, List.forall_mem_append,
        List.forall_mem_append] at h
      refine (check_ensures t a h.1.1.1 hv.1).bind fun a' ⟨σ, ha⟩ => ?_
      refine (check_ensures t b h.1.1.2 hv.2.1).bind fun b' ⟨ρ, hb⟩ => ?_
      refine (check_ensures t c h.1.2 hv.2.2).bind fun c' ⟨ρ', hc⟩ => ?_
      refine (typeOf_ensures ha).bind fun _ _ => ?_
      refine (typeOf_ensures hb).bind fun τ _ => ?_
      refine (typeOf_ensures hc).bind fun τ' _ => .pure ⟨τ.common τ', ?_⟩
      exact ⟨rfl, ⟨σ, ha⟩, hb.convert _, hc.convert _⟩
  | call n f es, h, hv => by
      rw [check]
      rw [spans_call, List.forall_mem_append] at h
      have hn : p n.span := h.2 _ (by simp)
      refine (checkAll_ensures t es h.1 hv).bind fun es' hes => ?_
      split
      · refine .error (.of ?_ hn)
        simp
      · refine .error (.of ?_ hn)
        simp
      · rename_i params result a hf
        split
        · refine .error (.of ?_ hn)
          simp
        · rename_i hlen
          refine .pure ⟨result, rfl, params, by simp [SymbolTable.typeOf?, hf], ?_⟩
          exact HasTypes.zipWith_convert hes (Decidable.not_not.1 hlen)
termination_by structural e => e

theorem checkAll_ensures (t : SymbolTable) :
    (es : List Expr) → (∀ q ∈ spansAll es, p q) → AllAssignVars es →
      Ensures (checkAll t es) (Fault.At p) (fun es' => ∀ e ∈ es', ∃ τ, e.HasType t τ)
  | [], _, _ => by
      rw [checkAll]
      exact .pure (by simp)
  | e :: es, h, hv => by
      rw [checkAll]
      rw [spansAll_cons, List.forall_mem_append] at h
      refine (check_ensures t e h.1 hv.1).bind fun e' he => ?_
      refine (checkAll_ensures t es h.2 hv.2).bind fun es' hes => .pure ?_
      exact List.forall_mem_cons.2 ⟨he, hes⟩
termination_by structural es => es
end

end Expr

end IntegerC
