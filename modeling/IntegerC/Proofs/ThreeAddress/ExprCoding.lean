import IntegerC.Proofs.Sequencing
import IntegerC.Proofs.ThreeAddress.Supply
import IntegerC.Proofs.ThreeAddress.WellTyped

set_option autoImplicit false

/-! # What making code for an expression ensures

Code is made for every typed expression. It is well typed in the symbol table with its temporaries,
its labels are new, and the value that it names is a constant, a variable of the expression, or a
temporary that was not known before.
-/

namespace IntegerC.ThreeAddress

/-- The words that labels begin with, other than those of loops. -/
def coderWords : List String :=
  ["and_false", "and_end", "or_true", "or_end", "cond_else", "cond_end", "if_end", "if_else"]

/-- Labels made with the numbers from `lo` up to but not including `hi`. -/
abbrev LabelsMade (lo hi : Nat) (code : List Instr) : Prop :=
  Numbered (· ∈ coderWords) lo hi (labelsOf code)

/-! ## Pieces of code -/

/-- How a supply `s` becomes `s'` and gives the code `out` of an expression of type `τ`, which reads
and assigns the variables `vars`. -/
structure ExprCode.Made (s s' : Supply) (vars : List String) (τ : IntType) (out : ExprCode) :
    Prop where
  grows : s.Grows s'
  type : out.type = τ
  value : out.value.HasType s'.symbols τ
  named : ∀ x, out.value = .var x → x ∈ vars ∨ ¬ s.symbols.Knows x
  typed : CodeTyped s'.symbols out.code
  labels : LabelsMade s.labels s'.labels out.code

abbrev exprVars (e : Expr) : List String := e.reads ++ e.assigned

namespace ExprCode.Made

variable {s s₁ s' : Supply} {vars vars' : List String} {τ σ : IntType} {out : ExprCode}

/-- Whatever is known of code stays true when the supply grows. -/
theorem value_mono (h : out.Made s s₁ vars τ) (h' : s₁.Grows s') :
    out.value.HasType s'.symbols τ :=
  h.value.mono h'.symbols

theorem typed_mono (h : out.Made s s₁ vars τ) (h' : s₁.Grows s') :
    CodeTyped s'.symbols out.code :=
  h.typed.mono h'.symbols

/-- Code that ends in a new temporary of type `τ`. -/
theorem temporary {x : String} {code : List Instr} (hg : s.Grows s')
    (hnew : ¬ s.symbols.Knows x) (hx : s'.symbols.typeOf? x = some (.integer τ))
    (ht : CodeTyped s'.symbols code) (hl : LabelsMade s.labels s'.labels code) :
    ExprCode.Made s s' vars τ ⟨.var x, τ, code⟩ where
  grows := hg
  type := rfl
  value := hx
  named := fun y hy => .inr (by cases hy; exact hnew)
  typed := ht
  labels := hl

end ExprCode.Made

/-- The conversion between two types is well typed. -/
theorem wellTyped_conversion {t : SymbolTable} {σ τ : IntType} {src dst : Value}
    (hs : src.HasType t σ) (hd : dst.Receives t τ) : (conversion σ τ src dst).WellTyped t := by
  unfold conversion
  split
  · rename_i h
    exact ⟨σ, τ, hs, hd, h.symm⟩
  split
  · rename_i h
    exact ⟨σ, τ, hs, hd, by cases σ <;> cases τ <;> simp_all [IntType.size]⟩
  split
  · -- what is made longer was a longword
    obtain rfl : σ = .int := by cases σ <;> cases τ <;> simp_all [IntType.size, IntType.signed]
    exact ⟨τ, hs, hd, by cases τ <;> simp_all [IntType.size]⟩
  · obtain rfl : σ = .unsignedInt := by
      cases σ <;> cases τ <;> simp_all [IntType.size, IntType.signed]
    exact ⟨τ, hs, hd, by cases τ <;> simp_all [IntType.size]⟩

@[simp] theorem label?_conversion (σ τ : IntType) (src dst : Value) :
    (conversion σ τ src dst).label? = none := by
  unfold conversion
  split
  · rfl
  split
  · rfl
  split <;> rfl

namespace Coder

variable {s : Supply}

/-- The type of a typed expression is at hand. -/
theorem run_typeOf {α : Type} {t : SymbolTable} {e : Expr} {τ : IntType} {g : IntType → Coder α}
    {ok : α × Supply → Prop} (h : e.HasType t τ) (hg : Succeeds ((g τ).run s) ok) :
    Succeeds ((liftM e.typeOf >>= g : Coder α).run s) ok := by
  rw [h.typeOf_eq]
  exact hg

/-- Code whose last instruction writes to a new temporary. -/
theorem temporary_made {s₁ : Supply} {τ : IntType} {vars : List String} {code : List Instr}
    {i : Value → Instr} (hg : s.Grows s₁) (ht : CodeTyped s₁.symbols code)
    (hl : LabelsMade s.labels s₁.labels code)
    (hi : ∀ t dst, s₁.symbols.Extends t → dst.Receives t τ → (i dst).WellTyped t)
    (hlabel : ∀ dst, (i dst).label? = none) :
    Succeeds ((do
      let dst ← temporary τ
      return ⟨dst, τ, code ++ [i dst]⟩ : Coder ExprCode).run s₁)
      (fun o => o.1.Made s o.2 vars τ) := by
  refine (temporary_ensures τ s₁).run_bind fun dst s₂ ⟨x, hdst, hnew, hx, hg', hlabels⟩ => ?_
  dsimp only at hdst hx hg' hlabels
  subst hdst
  refine .run_pure (.temporary (hg.trans hg') (fun hk => hnew (hg.symbols.knows hk)) hx ?_ ?_)
  · have hlast := hi s₂.symbols (.var x) hg'.symbols ⟨x, rfl, hx⟩
    simpa using ⟨ht.mono hg'.symbols, hlast⟩
  · rw [hlabels]
    simpa only [LabelsMade, labelsOf_append, labelsOf_cons, hlabel, labelsOf_nil,
      Option.toList_none, List.append_nil] using hl

/-- An operator with two operands, of an operator whose instruction is well typed. -/
theorem plain_made {s₁ s₂ : Supply} {op : Operator} {σ ρ τ : IntType}
    {vars vars₁ vars₂ : List String} {left right : ExprCode} (hl : left.Made s s₁ vars₁ σ)
    (hr : right.Made s₁ s₂ vars₂ ρ)
    (hop : ∀ t dst, left.value.HasType t σ → right.value.HasType t ρ → dst.Receives t τ →
      (Instr.binary op left.value right.value dst).WellTyped t) :
    Succeeds ((do
      let dst ← temporary τ
      return ⟨dst, τ, left.code ++ right.code ++ [.binary op left.value right.value dst]⟩ :
        Coder ExprCode).run s₂) (fun o => o.1.Made s o.2 vars τ) := by
  have ht := codeTyped_append.2 ⟨hl.typed_mono hr.grows, hr.typed⟩
  have hlabels : LabelsMade s.labels s₂.labels (left.code ++ right.code) := by
    simpa [LabelsMade] using hl.labels.append hr.labels
  refine temporary_made (hl.grows.trans hr.grows) ht hlabels (fun t dst hext hd => ?_) fun _ => rfl
  exact hop t dst ((hl.value_mono hr.grows).mono hext) (hr.value.mono hext) hd

theorem mem_coderWords_connective (op : LogicOp) :
    (connectiveWords op).1 ∈ coderWords ∧ (connectiveWords op).2 ∈ coderWords := by
  cases op <;> decide

/-- The code of `&&` and `||` is typed, whatever the types of its operands. -/
theorem codeTyped_connective {t : SymbolTable} {op : LogicOp} {left right : ExprCode}
    {σ ρ : IntType} {dst : Value} {short finish : String} (hl : CodeTyped t left.code)
    (hr : CodeTyped t right.code) (hlv : left.value.HasType t σ) (hrv : right.value.HasType t ρ)
    (hd : dst.Receives t .int) : CodeTyped t (connectiveCode op left right dst short finish) := by
  have hcopy : ∀ n, (Instr.copy (intValue n) dst).WellTyped t := fun n => ⟨.int, .int, rfl, hd, rfl⟩
  simp only [connectiveCode, codeTyped_append, codeTyped_cons, codeTyped_nil, and_true]
  refine ⟨⟨⟨⟨hl, ?_⟩, hr⟩, ?_⟩, hcopy _, trivial, trivial, hcopy _, trivial⟩
  · cases op <;> exact ⟨σ, hlv⟩
  · cases op <;> exact ⟨ρ, hrv⟩

theorem labelsOf_connective (op : LogicOp) (left right : ExprCode) (dst : Value)
    (short finish : String) : labelsOf (connectiveCode op left right dst short finish) =
      labelsOf left.code ++ labelsOf right.code ++ [short, finish] := by
  cases op <;> simp [connectiveCode]

/-- A connective has labels of its own behind those of its operands. Another operator has a new
temporary and no label. -/
theorem binary_made {s₁ s₂ : Supply} {op : BinaryOp} {σ ρ τ : IntType}
    {vars vars₁ vars₂ : List String} {left right : ExprCode} (hl : left.Made s s₁ vars₁ σ)
    (hr : right.Made s₁ s₂ vars₂ ρ) (hop : op.Meets σ ρ τ) :
    Succeeds ((binary op τ left right).run s₂) (fun o => o.1.Made s o.2 vars τ) := by
  cases op with
  | arith op =>
      obtain ⟨rfl, rfl⟩ := hop
      exact plain_made hl hr fun t dst h₁ h₂ hd => ⟨_, h₁, h₂, hd⟩
  | shift op =>
      obtain rfl : σ = τ := hop
      exact plain_made hl hr fun t dst h₁ h₂ hd => ⟨σ, ρ, h₁, h₂, hd⟩
  | compare op =>
      obtain ⟨rfl, rfl⟩ := hop
      exact plain_made hl hr fun t dst h₁ h₂ hd => ⟨_, h₁, h₂, hd⟩
  | logic op =>
      obtain rfl : τ = .int := hop
      refine (temporary_ensures .int s₂).run_bind fun dst s₃ ⟨x, hdst, hnew, hx, hg, hlabels⟩ => ?_
      refine (label_ensures _ s₃).run_bind fun short s₄ ⟨hshort, hs₄, hl₄⟩ => ?_
      refine (label_ensures _ s₄).run_bind fun finish s₅ ⟨hfinish, hs₅, hl₅⟩ => ?_
      dsimp only at hdst hx hg hlabels hshort hs₄ hl₄ hfinish hs₅ hl₅
      subst hdst
      -- only the temporary is new in the table, and the labels use up two numbers
      have hg₅ : s₃.Grows s₅ := .of_symbols_eq (hs₅.trans hs₄) (by omega)
      have hg₂ := hg.trans hg₅
      have hg₁ := hr.grows.trans hg₂
      have hx₅ := hg₅.symbols _ _ hx
      refine .run_pure (.temporary (hl.grows.trans hg₁) (fun hk => hnew ?_) hx₅ ?_ ?_)
      · exact (hl.grows.trans hr.grows).symbols.knows hk
      · exact codeTyped_connective (hl.typed_mono hg₁) (hr.typed_mono hg₂) (hl.value_mono hg₁)
          (hr.value_mono hg₂) ⟨x, rfl, hx₅⟩
      · have hwords := mem_coderWords_connective op
        rw [LabelsMade, labelsOf_connective, hshort, hfinish, hl₅, hl₄, hlabels]
        exact (hl.labels.append hr.labels).append
          ((Numbered.single _ hwords.1 _).append (Numbered.single _ hwords.2 _))

/-- The code of a conditional is typed: both branches give the value of the common type. -/
theorem codeTyped_conditional {t : SymbolTable} {condition yes no : ExprCode} {σ τ : IntType}
    {dst : Value} {other finish : String} (hc : CodeTyped t condition.code)
    (hy : CodeTyped t yes.code) (hn : CodeTyped t no.code) (hcv : condition.value.HasType t σ)
    (hyv : yes.value.HasType t τ) (hnv : no.value.HasType t τ) (hd : dst.Receives t τ) :
    CodeTyped t (conditionalCode condition yes no dst other finish) := by
  simp only [conditionalCode, codeTyped_append, codeTyped_cons, codeTyped_nil, and_true]
  exact ⟨⟨⟨⟨⟨hc, σ, hcv⟩, hy⟩, ⟨τ, τ, hyv, hd, rfl⟩, trivial, trivial⟩, hn⟩,
    ⟨τ, τ, hnv, hd, rfl⟩, trivial⟩

theorem labelsOf_conditional (condition yes no : ExprCode) (dst : Value) (other finish : String) :
    labelsOf (conditionalCode condition yes no dst other finish) =
      labelsOf condition.code ++ labelsOf yes.code ++ [other] ++ labelsOf no.code ++ [finish] := by
  simp [conditionalCode]

/-- The three pieces of code stand apart by two labels, which are new. -/
theorem conditional_made {s₁ s₂ s₃ : Supply} {σ τ : IntType} {vars vars₁ vars₂ vars₃ : List String}
    {condition yes no : ExprCode} (hc : condition.Made s s₁ vars₁ σ) (hy : yes.Made s₁ s₂ vars₂ τ)
    (hn : no.Made s₂ s₃ vars₃ τ) :
    Succeeds ((do
      let dst ← temporary τ
      let other ← label "cond_else"
      let finish ← label "cond_end"
      return ⟨dst, τ, conditionalCode condition yes no dst other finish⟩ : Coder ExprCode).run s₃)
      (fun o => o.1.Made s o.2 vars τ) := by
  refine (temporary_ensures τ s₃).run_bind fun dst s₄ ⟨x, hdst, hnew, hx, hg, hlabels⟩ => ?_
  refine (label_ensures _ s₄).run_bind fun other s₅ ⟨hother, hs₅, hl₅⟩ => ?_
  refine (label_ensures _ s₅).run_bind fun finish s₆ ⟨hfinish, hs₆, hl₆⟩ => ?_
  dsimp only at hdst hx hg hlabels hother hs₅ hl₅ hfinish hs₆ hl₆
  subst hdst
  have hg₆ : s₄.Grows s₆ := .of_symbols_eq (hs₆.trans hs₅) (by omega)
  have hg₃ := hg.trans hg₆
  have hg₂ := hn.grows.trans hg₃
  have hg₁ := hy.grows.trans hg₂
  refine .run_pure (.temporary (hc.grows.trans hg₁) (fun hk => hnew ?_) (hg₆.symbols _ _ hx) ?_ ?_)
  · exact ((hc.grows.trans hy.grows).trans hn.grows).symbols.knows hk
  · exact codeTyped_conditional (hc.typed_mono hg₁) (hy.typed_mono hg₂) (hn.typed_mono hg₃)
      (hc.value_mono hg₁) (hy.value_mono hg₂) (hn.value_mono hg₃) ⟨x, rfl, hg₆.symbols _ _ hx⟩
  · -- the labels of the arms are numbered before the two of the conditional itself
    have hmade := ((hc.labels.append hy.labels).append hn.labels).append
      ((Numbered.single "cond_else" (by decide) s₃.labels).append
        (Numbered.single "cond_end" (by decide) (s₃.labels + 1)))
    rw [LabelsMade, labelsOf_conditional, hother, hfinish, hl₆, hl₅, hlabels]
    refine hmade.perm ?_
    simp only [List.append_assoc]
    refine .append_left _ (.append_left _ ?_)
    rw [← List.append_assoc, ← List.append_assoc [_] (labelsOf no.code)]
    exact List.Perm.append_right _ List.perm_append_comm

theorem expr_var {n : Note} {x : String} {τ : IntType} (h : (Expr.var n x).HasType s.symbols τ) :
    Succeeds ((expr (.var n x)).run s) (fun o => o = (⟨.var x, τ, []⟩, s)) := by
  rw [expr]
  exact run_typeOf h (.run_pure rfl)

/-- The code of a list of expressions of the types in a list. -/
structure AllMade (s s' : Supply) (es : List Expr) (τs : List IntType) (outs : List ExprCode) :
    Prop where
  grows : s.Grows s'
  values : List.Forall₂ (Value.HasType s'.symbols) (outs.map ExprCode.value) τs
  named : List.Forall₂ (fun e out => ∀ x, out.value = .var x → x ∈ exprVars e ∨ ¬ s.symbols.Knows x)
    es outs
  typed : CodeTyped s'.symbols (outs.flatMap ExprCode.code)
  labels : LabelsMade s.labels s'.labels (outs.flatMap ExprCode.code)

mutual
/-- Coding a typed expression succeeds: every variable in it has a type in the table, and every
temporary is added with its type. -/
theorem expr_made :
    (e : Expr) → ∀ (s : Supply) (τ : IntType), e.HasType s.symbols τ →
      Succeeds ((expr e).run s) (fun o => o.1.Made s o.2 (exprVars e) τ)
  | .constant n c, s, τ, h => by
      rw [expr]
      refine run_typeOf h (.run_pure ⟨.refl s, rfl, h.2, ?_, codeTyped_nil, .nil (Nat.le_refl _)⟩)
      intro x hx
      cases hx
  | .var n x, s, τ, h => by
      rw [expr]
      refine run_typeOf h (.run_pure ⟨.refl s, rfl, h.2, ?_, codeTyped_nil, .nil (Nat.le_refl _)⟩)
      intro y hy
      cases hy
      exact .inl List.mem_cons_self
  | .cast n target a, s, τ, h => by
      obtain ⟨-, rfl, σ, ha⟩ := id h
      rw [expr]
      refine (expr_made a s σ ha).run_bind fun inner s₁ hi => ?_
      refine run_typeOf h ?_
      split
      · rename_i he
        obtain rfl : σ = target := hi.type.symm.trans he
        exact .run_pure hi
      · refine temporary_made hi.grows hi.typed hi.labels (fun t dst hext hd => ?_) fun dst => ?_
        · rw [hi.type]
          exact wellTyped_conversion (hi.value.mono hext) hd
        · exact label?_conversion _ _ _ _
  | .unary n op a, s, τ, h => by
      obtain ⟨-, σ, ha, hop⟩ := id h
      rw [expr]
      refine (expr_made a s σ ha).run_bind fun inner s₁ hi => ?_
      refine run_typeOf h ?_
      refine temporary_made hi.grows hi.typed hi.labels (fun t dst hext hd => ?_) fun _ => rfl
      exact ⟨σ, hi.value.mono hext, by rwa [hop]⟩
  | .binary n op a b, s, τ, h => by
      obtain ⟨-, σ, ρ, ha, hb, hop⟩ := id h
      rw [expr]
      refine (expr_made a s σ ha).run_bind fun left s₁ hl => ?_
      refine (expr_made b s₁ ρ (.mono hl.grows.symbols b ρ hb)).run_bind fun right s₂ hr => ?_
      refine run_typeOf h ?_
      exact binary_made hl hr hop
  | .assignment n a b, s, τ, h => by
      obtain ⟨-, hv, ha, hb⟩ := id h
      -- the target has no code of its own
      obtain ⟨m, x, rfl⟩ := Expr.exists_of_isVar hv
      rw [expr]
      refine (expr_var ha).run_bind ?_
      rintro _ _ ⟨⟩
      refine (expr_made b s τ hb).run_bind fun value s₁ hval => ?_
      have hx := hval.grows.symbols _ _ ha.2
      refine run_typeOf h (.run_pure ⟨hval.grows, rfl, hx, ?_, ?_, ?_⟩)
      · intro y hy
        cases hy
        exact .inl (by simp [Expr.assigned, Expr.target?])
      · have hcopy : (Instr.copy value.value (.var x)).WellTyped s₁.symbols :=
          ⟨τ, τ, hval.value, ⟨x, rfl, hx⟩, rfl⟩
        simpa using ⟨hval.typed, hcopy⟩
      · simpa [LabelsMade] using hval.labels
  | .conditional n a b c, s, τ, h => by
      obtain ⟨-, ⟨σ, ha⟩, hb, hc⟩ := id h
      rw [expr]
      refine (expr_made a s σ ha).run_bind fun condition s₁ h₁ => ?_
      refine (expr_made b s₁ τ (.mono h₁.grows.symbols b τ hb)).run_bind fun yes s₂ h₂ => ?_
      have hc' := Expr.HasType.mono (h₁.grows.trans h₂.grows).symbols c τ hc
      refine (expr_made c s₂ τ hc').run_bind fun no s₃ h₃ => ?_
      refine run_typeOf h ?_
      exact conditional_made h₁ h₂ h₃
  | .call n f es, s, τ, h => by
      obtain ⟨-, params, hf, hes⟩ := id h
      rw [expr]
      refine (exprs_made es s params hes).run_bind fun outs s₁ ho => ?_
      refine run_typeOf h ?_
      refine temporary_made ho.grows ho.typed ho.labels (fun t dst hext hd => ?_) fun _ => rfl
      have hvalues := ho.values.imp fun _ _ hv => hv.mono hext
      exact ⟨params, _, hext _ _ (ho.grows.symbols _ _ hf), hvalues, hd⟩
termination_by structural e => e

/-- Arguments are coded one after the other, and the names known before stay known. -/
theorem exprs_made :
    (es : List Expr) → ∀ (s : Supply) (τs : List IntType), Expr.HasTypes s.symbols es τs →
      Succeeds ((exprs es).run s) (fun o => AllMade s o.2 es τs o.1)
  | [], s, [], _ => .run_pure ⟨.refl s, .nil, .nil, codeTyped_nil, .nil (Nat.le_refl _)⟩
  | e :: es, s, τ :: τs, h => by
      rw [exprs]
      refine (expr_made e s τ h.1).run_bind fun out s₁ ho => ?_
      refine (exprs_made es s₁ τs (.mono ho.grows.symbols es τs h.2)).run_bind fun outs s₂ hos =>
        .run_pure ⟨ho.grows.trans hos.grows, .cons (ho.value_mono hos.grows) hos.values, ?_, ?_, ?_⟩
      · refine .cons ho.named (hos.named.imp fun e' out' hx x hv => (hx x hv).imp_right ?_)
        exact fun hnew hk => hnew (ho.grows.symbols.knows hk)
      · simpa using ⟨ho.typed_mono hos.grows, hos.typed⟩
      · simpa [LabelsMade] using ho.labels.append hos.labels
termination_by structural es => es
end

end Coder

end IntegerC.ThreeAddress
