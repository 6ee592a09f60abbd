import IntegerC.Proofs.Evaluation
import IntegerC.Proofs.ThreeAddress.ExprCoding
import IntegerC.Proofs.ThreeAddress.Steps

set_option autoImplicit false

/-! # Running the code of an expression

The code of a typed expression runs to its end wherever it stands, and then the value that it names
is the value of the expression. The store of the source and that of the code agree on the variables
of the source on the way. Operands are named, not copied: they keep their values because what is
computed after them assigns other variables.
-/

namespace IntegerC

/-! ## Variables of typed expressions -/

mutual
/-- Every name that a typed expression reads or assigns is in the table. -/
theorem Expr.HasType.knows {t : SymbolTable} :
    (e : Expr) → ∀ τ, e.HasType t τ → ∀ x, x ∈ e.reads ∨ x ∈ e.assigned → t.Knows x
  | .constant _ _, _, _, x, hx => by simp [Expr.reads, Expr.assigned] at hx
  | .var _ y, _, h, x, hx => by
      obtain rfl : x = y := by simpa [Expr.reads, Expr.assigned] using hx
      exact SymbolTable.knows_of_typeOf? h.2
  | .cast _ _ a, _, ⟨_, _, σ, ha⟩, x, hx => Expr.HasType.knows a σ ha x hx
  | .unary _ _ a, _, ⟨_, σ, ha, _⟩, x, hx => Expr.HasType.knows a σ ha x hx
  | .binary _ _ a b, _, ⟨_, σ, ρ, ha, hb, _⟩, x, hx => by
      simp only [Expr.reads, Expr.assigned, List.mem_append] at hx
      have hxa := Expr.HasType.knows a σ ha x
      have hxb := Expr.HasType.knows b ρ hb x
      tauto
  | .assignment _ a b, τ, ⟨_, hv, ha, hb⟩, x, hx => by
      obtain ⟨m, y, rfl⟩ := Expr.exists_of_isVar hv
      have hxb := Expr.HasType.knows b τ hb x
      simp only [Expr.reads, Expr.assigned, Expr.target?, Option.toList_some, List.mem_append,
        List.mem_singleton] at hx
      rcases hx with hx | rfl | hx
      · exact hxb (.inl hx)
      · exact SymbolTable.knows_of_typeOf? ha.2
      · exact hxb (.inr hx)
  | .conditional _ a b c, τ, ⟨_, ⟨σ, ha⟩, hb, hc⟩, x, hx => by
      simp only [Expr.reads, Expr.assigned, List.mem_append] at hx
      have hxa := Expr.HasType.knows a σ ha x
      have hxb := Expr.HasType.knows b τ hb x
      have hxc := Expr.HasType.knows c τ hc x
      tauto
  | .call _ _ es, _, ⟨_, params, _, hes⟩, x, hx => Expr.HasTypes.knows es params hes x hx
termination_by structural e => e

/-- Whatever arguments read or assign, the table knows. -/
theorem Expr.HasTypes.knows {t : SymbolTable} :
    (es : List Expr) → ∀ τs, Expr.HasTypes t es τs →
      ∀ x, x ∈ Expr.readsAll es ∨ x ∈ Expr.assignedAll es → t.Knows x
  | [], _, _, x, hx => by simp [Expr.readsAll, Expr.assignedAll] at hx
  | e :: es, τ :: τs, ⟨h, hs⟩, x, hx => by
      simp only [Expr.readsAll, Expr.assignedAll, List.mem_append] at hx
      have hxe := Expr.HasType.knows e τ h x
      have hxs := Expr.HasTypes.knows es τs hs x
      tauto
termination_by structural es => es
end

namespace ThreeAddress

variable {types : VarTypes} {w : World} {code : List Instr} {names : String → Prop}

/-! ## Conversions -/

/-- A conversion writes the number of its source, which the type of its destination then wraps. -/
theorem effect_conversion {σ τ : IntType} {src : Value} {T : Store types} (x : String)
    (h : src.type types = σ) :
    (conversion σ τ src (.var x)).effect w T = some (.next (T.set x (src.eval T))) := by
  have hsrc : σ.Holds (src.eval T) := h ▸ src.holds_eval T
  -- a copy and a truncation hand the number on; an extension wraps a number that its type holds
  unfold conversion
  split
  · rfl
  split
  · rfl
  split
  · obtain rfl : σ = .int := by cases σ <;> cases τ <;> simp_all [IntType.size, IntType.signed]
    rw [Instr.effect, IntType.wrap_of_holds hsrc]
    rfl
  · obtain rfl : σ = .unsignedInt := by
      cases σ <;> cases τ <;> simp_all [IntType.size, IntType.signed]
    rw [Instr.effect, IntType.wrap_of_holds hsrc]
    rfl

/-! ## Places for code -/

/-- Code that is made from `s` to `s'` for an expression typed in `t` may run on stores of the types
`types`: they agree with the table, and the temporaries that are made are none of the variables with
`names`, unlike the names of `t`. -/
structure Fits (t : SymbolTable) (names : String → Prop) (types : VarTypes) (s s' : Supply) :
    Prop where
  base : t.Extends s.symbols
  counts : ∀ x, t.Knows x → names x
  fresh : ∀ x, names x → s'.symbols.Knows x → s.symbols.Knows x
  types : ∀ x τ, s'.symbols.typeOf? x = some (.integer τ) → types x = τ

namespace Fits

variable {t : SymbolTable} {s s₁ s' : Supply}

theorem left (h : Fits t names types s s') (hg : s₁.Grows s') : Fits t names types s s₁ :=
  ⟨h.base, h.counts, fun x hx hk => h.fresh x hx (hg.symbols.knows hk),
    fun x τ hx => h.types x τ (hg.symbols x _ hx)⟩

theorem right (h : Fits t names types s s') (hg : s.Grows s₁) : Fits t names types s₁ s' :=
  ⟨h.base.trans hg.symbols, h.counts, fun x hx hk => hg.symbols.knows (h.fresh x hx hk), h.types⟩

theorem value_type (h : Fits t names types s s') {v : Value} {τ : IntType}
    (hv : v.HasType s'.symbols τ) : v.type types = τ := by
  cases v with
  | constant c => exact hv
  | var x => exact h.types x τ hv

/-- A new temporary does not count. -/
theorem not_counts (h : Fits t names types s s') {x : String} (hx : ¬ s.symbols.Knows x)
    (hx' : s'.symbols.Knows x) : ¬ names x :=
  fun hn => hx (h.fresh x hn hx')

end Fits

/-! ## What the code of an expression does -/

/-- The code `out` at `pc` takes the store `T` to `T'` and computes the value of `e` for the store
`S`. Of the variables known before, only those that `e` assigns change. -/
structure Evaluates (w : World) (code : List Instr) (names known : String → Prop) (e : Expr)
    (out : ExprCode) (pc : Nat) (S T T' : Store types) : Prop where
  runs : Runs w code (.running pc T) (.running (pc + out.code.length) T')
  value : out.value.eval T' = (e.eval w S).1
  agree : (e.eval w S).2.Agree names T'
  frame : ∀ x, known x → x ∉ e.assigned → T'.get x = T.get x

/-- The same for expressions that are computed one after the other. -/
structure EvaluatesAll (w : World) (code : List Instr) (names known : String → Prop)
    (es : List Expr) (outs : List ExprCode) (pc : Nat) (S T T' : Store types) : Prop where
  runs : Runs w code (.running pc T) (.running (pc + (outs.flatMap ExprCode.code).length) T')
  values : outs.map (·.value.eval T') = (Expr.evalAll w es S).1
  agree : (Expr.evalAll w es S).2.Agree names T'
  frame : ∀ x, known x → x ∉ Expr.assignedAll es → T'.get x = T.get x

/-- A named operand keeps its value while code runs that changes none of the variables of the
operand and none of the temporaries made for it. -/
theorem ExprCode.Made.eval_eq {t : SymbolTable} {s s₁ : Supply} {a : Expr} {σ : IntType}
    {out : ExprCode} (h : out.Made s s₁ (exprVars a) σ) {changed : List String} {T T' : Store types}
    (hframe : ∀ x, s₁.symbols.Knows x → x ∉ changed → T'.get x = T.get x)
    (hknown : ∀ x ∈ changed, t.Knows x) (hext : t.Extends s.symbols)
    (hapart : ∀ x ∈ changed, x ∉ a.reads ∧ x ∉ a.assigned) :
    out.value.eval T' = out.value.eval T := by
  cases hv : out.value with
  | constant c => rfl
  | var x =>
      have hx : s₁.symbols.Knows x := by
        have hval := h.value
        rw [hv] at hval
        exact SymbolTable.knows_of_typeOf? hval
      refine hframe x hx fun hc => ?_
      rcases h.named x hv with hmem | hnew
      · rcases List.mem_append.1 hmem with hr | ha
        · exact (hapart x hc).1 hr
        · exact (hapart x hc).2 ha
      · exact hnew (hext.knows (hknown x hc))

/-- An operand and the operands behind it run one after the other. The first one keeps its value,
since those behind it assign none of its variables. -/
theorem EvaluatesAll.cons {t : SymbolTable} {s s₁ : Supply} {e : Expr} {es : List Expr}
    {τ : IntType} {out : ExprCode} {outs : List ExprCode} {pc : Nat} {S T T₁ T₂ : Store types}
    (ho : out.Made s s₁ (exprVars e) τ)
    (h : Evaluates w code names s.symbols.Knows e out pc S T T₁)
    (hs : EvaluatesAll w code names s₁.symbols.Knows es outs (pc + out.code.length) (e.eval w S).2
      T₁ T₂)
    (hext : t.Extends s.symbols) (hknown : ∀ x ∈ Expr.assignedAll es, t.Knows x)
    (hapart : ∀ e' ∈ es, e.Apart e') :
    EvaluatesAll w code names s.symbols.Knows (e :: es) (out :: outs) pc S T T₂ where
  runs := by
    rw [List.flatMap_cons, List.length_append, ← Nat.add_assoc]
    exact h.runs.trans hs.runs
  values := by
    have hvalue : out.value.eval T₂ = out.value.eval T₁ := by
      refine ho.eval_eq hs.frame hknown hext fun x hx => ?_
      obtain ⟨e', he', hx⟩ := Expr.mem_assignedAll.1 hx
      exact (hapart e' he').2 x hx
    rw [List.map_cons, hs.values, hvalue, h.value]
    rfl
  agree := hs.agree
  frame := by
    intro x hx hxa
    rw [Expr.assignedAll, List.mem_append, not_or] at hxa
    exact (hs.frame x (ho.grows.symbols.knows hx) hxa.2).trans (h.frame x hx hxa.1)

theorem EvaluatesAll.nil (known : String → Prop) (pc : Nat) {S T : Store types}
    (hagree : S.Agree names T) : EvaluatesAll w code names known [] [] pc S T T :=
  ⟨.refl _, rfl, hagree, fun _ _ _ => rfl⟩

/-- Code whose last effect on the store is to set a new temporary. -/
theorem Evaluates.of_set {known : String → Prop} {e : Expr} {part : List Instr} {x : String}
    {τ : IntType} {n : Int} {pc : Nat} {S S₁ T T₁ : Store types}
    (hruns : Runs w code (.running pc T) (.running (pc + part.length) (T₁.set x n)))
    (hagree : S₁.Agree names T₁) (hframe : ∀ y, known y → y ∉ e.assigned → T₁.get y = T.get y)
    (hx : ¬ names x) (hx' : ¬ known x) (he : e.eval w S = ((types x).wrap n, S₁)) :
    Evaluates w code names known e ⟨.var x, τ, part⟩ pc S T (T₁.set x n) where
  runs := hruns
  value := by rw [he, Value.eval, Store.get_set_self]
  agree := by
    rw [he]
    exact hagree.set_right hx n
  frame := by
    intro y hy ha
    have hne : y ≠ x := by
      rintro rfl
      exact hx' hy
    rw [Store.get_set_of_ne hne]
    exact hframe y hy ha

/-- Code that ends in an instruction for a new temporary. -/
theorem Evaluates.temporary {known : String → Prop} {e : Expr} {part : List Instr} {i : Instr}
    {x : String} {τ : IntType} {n : Int} {pc : Nat} {S S₁ T T₁ : Store types}
    (hat : CodeAt code pc (part ++ [i]))
    (hruns : Runs w code (.running pc T) (.running (pc + part.length) T₁))
    (hagree : S₁.Agree names T₁) (hframe : ∀ y, known y → y ∉ e.assigned → T₁.get y = T.get y)
    (hx : ¬ names x) (hx' : ¬ known x) (hi : i.effect w T₁ = some (.next (T₁.set x n)))
    (he : e.eval w S = ((types x).wrap n, S₁)) :
    Evaluates w code names known e ⟨.var x, τ, part ++ [i]⟩ pc S T (T₁.set x n) := by
  refine .of_set ?_ hagree hframe hx hx' he
  rw [List.length_append, ← Nat.add_assoc]
  exact hruns.trans (.head (hat.right.step_next hi) (.refl _))

/-! ## Jumps -/

/-- The jump to `short` if an operand decides the connective. -/
def connectiveTest (op : LogicOp) (v : Value) (short : String) : Instr :=
  match op with
  | .and => .jumpIfZero v short
  | .or => .jumpIfNotZero v short

theorem connectiveCode_eq (op : LogicOp) (left right : ExprCode) (dst : Value)
    (short finish : String) : connectiveCode op left right dst short finish =
      left.code ++ [connectiveTest op left.value short] ++ right.code ++
        [connectiveTest op right.value short] ++
        [.copy (intValue (1 - op.decided)) dst, .jump finish, .label short,
          .copy (intValue op.decided) dst, .label finish] := by
  cases op <;> rfl

theorem effect_connectiveTest (op : LogicOp) (v : Value) (short : String) (T : Store types) :
    (connectiveTest op v short).effect w T =
      some (if op.Decides (v.eval T) then .jump short else .next T) := by
  cases op <;> rfl

theorem wrap_decided (op : LogicOp) :
    IntType.int.wrap op.decided = op.decided ∧
      IntType.int.wrap (1 - op.decided) = 1 - op.decided := by
  cases op <;> decide

/-- The end of the code of a connective: an operand that does not decide is followed by the opposite
answer, and the label `short` by the answer of an operand that does. -/
theorem connective_end {op : LogicOp} {x short finish : String} {pc : Nat} {T : Store types}
    (hn : (labelsOf code).Nodup)
    (hat : CodeAt code pc [.copy (intValue (1 - op.decided)) (.var x), .jump finish, .label short,
      .copy (intValue op.decided) (.var x), .label finish]) :
    Runs w code (.running pc T) (.running (pc + 5) (T.set x (1 - op.decided))) ∧
      Runs w code (.running (pc + 2) T) (.running (pc + 5) (T.set x op.decided)) := by
  obtain ⟨hd, hd'⟩ := wrap_decided op
  have hend : ∀ T' : Store types, Runs w code (.running (pc + 4) T') (.running (pc + 5) T') :=
    fun T' => .head (hat.tail.tail.tail.tail.step_next rfl) (.refl _)
  constructor
  · refine .head (hat.step_next rfl) (.head (hat.tail.step_jump rfl hat.tail.tail.tail.tail hn) ?_)
    simpa only [intValue, Value.eval, Value.assign, Constant.number, hd'] using hend _
  · refine .head (hat.tail.tail.step_next rfl) (.head (hat.tail.tail.tail.step_next rfl) ?_)
    simpa only [intValue, Value.eval, Value.assign, Constant.number, hd] using hend _

/-- The operands of a connective run one after the other, unless the left one decides it. -/
theorem connective_evaluates {op : LogicOp} {n : Note} {a b : Expr} {left right : ExprCode}
    {x short finish : String} {known known' : String → Prop} {pc : Nat} {S T T₁ : Store types}
    (hn : (labelsOf code).Nodup)
    (hat : CodeAt code pc (connectiveCode op left right (.var x) short finish))
    (ha : Evaluates w code names known a left pc S T T₁)
    (hb : ∃ T₂,
      Evaluates w code names known' b right (pc + left.code.length + 1) (a.eval w S).2 T₁ T₂)
    (hknown : ∀ y, known y → known' y) (hx : ¬ names x) (hx' : ¬ known x) (hτ : types x = .int) :
    ∃ T', Evaluates w code names known (.binary n (.logic op) a b)
      ⟨.var x, .int, connectiveCode op left right (.var x) short finish⟩ pc S T T' := by
  obtain ⟨T₂, hb⟩ := hb
  obtain ⟨hd, hd'⟩ := wrap_decided op
  have hlen : (connectiveCode op left right (.var x) short finish).length =
      left.code.length + 1 + right.code.length + 1 + 5 := by
    simp [connectiveCode_eq]
    omega
  rw [connectiveCode_eq] at hat
  have hleft := hat.left.left.left.right
  have hright : CodeAt code (pc + left.code.length + 1 + right.code.length)
      [connectiveTest op right.value short] := hat.left.behind (by simp; omega)
  have hlast : CodeAt code (pc + left.code.length + 1 + right.code.length + 1)
      [.copy (intValue (1 - op.decided)) (.var x), .jump finish, .label short,
        .copy (intValue op.decided) (.var x), .label finish] := hat.behind (by simp; omega)
  have hshort := hlast.tail.tail
  have hend : pc + (connectiveCode op left right (.var x) short finish).length =
      pc + left.code.length + 1 + right.code.length + 1 + 5 := by
    rw [hlen]
    omega
  have hframe : ∀ y, known y → y ∉ (Expr.binary n (.logic op) a b).assigned →
      T₁.get y = T.get y ∧ T₂.get y = T.get y := by
    intro y hy hya
    rw [Expr.assigned, List.mem_append, not_or] at hya
    have h₁ := ha.frame y hy hya.1
    exact ⟨h₁, (hb.frame y (hknown y hy) hya.2).trans h₁⟩
  -- an operand that decides jumps to `short`; the right one runs only if the left one does not
  by_cases hdec : op.Decides (a.eval w S).1
  · have htest : (connectiveTest op left.value short).effect w T₁ = some (.jump short) := by
      rw [effect_connectiveTest, ha.value, if_pos hdec]
    refine ⟨T₁.set x op.decided, .of_set ?_ ha.agree (fun y hy hya => (hframe y hy hya).1)
      hx hx' ?_⟩
    · rw [hend]
      exact ha.runs.trans (.head (hleft.step_jump htest hshort hn) (connective_end hn hlast).2)
    · rw [Expr.eval_logic, if_pos hdec, hτ, hd]
  · have htest : (connectiveTest op left.value short).effect w T₁ = some (.next T₁) := by
      rw [effect_connectiveTest, ha.value, if_neg hdec]
    have hruns := (ha.runs.trans (.head (hleft.step_next htest) (.refl _))).trans hb.runs
    by_cases hdec' : op.Decides (b.eval w (a.eval w S).2).1
    · have htest' : (connectiveTest op right.value short).effect w T₂ = some (.jump short) := by
        rw [effect_connectiveTest, hb.value, if_pos hdec']
      refine ⟨T₂.set x op.decided, .of_set ?_ hb.agree (fun y hy hya => (hframe y hy hya).2)
        hx hx' ?_⟩
      · rw [hend]
        exact hruns.trans (.head (hright.step_jump htest' hshort hn) (connective_end hn hlast).2)
      · rw [Expr.eval_logic, if_neg hdec, if_pos hdec', hτ, hd]
    · have htest' : (connectiveTest op right.value short).effect w T₂ = some (.next T₂) := by
        rw [effect_connectiveTest, hb.value, if_neg hdec']
      refine ⟨T₂.set x (1 - op.decided), .of_set ?_ hb.agree (fun y hy hya => (hframe y hy hya).2)
        hx hx' ?_⟩
      · rw [hend]
        exact hruns.trans (.head (hright.step_next htest') (connective_end hn hlast).1)
      · rw [Expr.eval_logic, if_neg hdec, if_neg hdec', hτ, hd']

/-- One arm of a conditional runs, and its value is copied. -/
theorem conditional_evaluates {n : Note} {a b c : Expr} {condition yes no : ExprCode} {τ : IntType}
    {x other finish : String} {known knownYes knownNo : String → Prop} {pc : Nat}
    {S T T₁ : Store types} (hn : (labelsOf code).Nodup)
    (hat : CodeAt code pc (conditionalCode condition yes no (.var x) other finish))
    (ha : Evaluates w code names known a condition pc S T T₁)
    (hb : ∃ T₂, Evaluates w code names knownYes b yes (pc + condition.code.length + 1)
      (a.eval w S).2 T₁ T₂)
    (hc : ∃ T₃, Evaluates w code names knownNo c no
      (pc + condition.code.length + 1 + yes.code.length + 3) (a.eval w S).2 T₁ T₃)
    (hyes : ∀ y, known y → knownYes y) (hno : ∀ y, known y → knownNo y)
    (hx : ¬ names x) (hx' : ¬ known x) (hτ : types x = τ)
    (hyτ : yes.value.type types = τ) (hnτ : no.value.type types = τ) :
    ∃ T', Evaluates w code names known (.conditional n a b c)
      ⟨.var x, τ, conditionalCode condition yes no (.var x) other finish⟩ pc S T T' := by
  obtain ⟨T₂, hb⟩ := hb
  obtain ⟨T₃, hc⟩ := hc
  have hend : pc + (conditionalCode condition yes no (.var x) other finish).length =
      pc + condition.code.length + 1 + yes.code.length + 3 + no.code.length + 2 := by
    simp [conditionalCode]
    omega
  have htest : CodeAt code (pc + condition.code.length) [.jumpIfZero condition.value other] :=
    hat.left.left.left.left.right
  have hcopy : CodeAt code (pc + condition.code.length + 1 + yes.code.length)
      [.copy yes.value (.var x), .jump finish, .label other] :=
    hat.left.left.behind (by simp; omega)
  have hlast : CodeAt code
      (pc + condition.code.length + 1 + yes.code.length + 3 + no.code.length)
      [.copy no.value (.var x), .label finish] := hat.behind (by simp; omega)
  have hfinish : ∀ T' : Store types, Runs w code
      (.running (pc + condition.code.length + 1 + yes.code.length + 3 + no.code.length + 1) T')
      (.running (pc + (conditionalCode condition yes no (.var x) other finish).length) T') := by
    intro T'
    rw [hend]
    exact .head (hlast.tail.step_next rfl) (.refl _)
  have hframe : ∀ y, known y → y ∉ (Expr.conditional n a b c).assigned →
      T₂.get y = T.get y ∧ T₃.get y = T.get y := by
    intro y hy hya
    simp only [Expr.assigned, List.mem_append, not_or] at hya
    have h₁ := ha.frame y hy hya.1.1
    exact ⟨(hb.frame y (hyes y hy) hya.1.2).trans h₁, (hc.frame y (hno y hy) hya.2).trans h₁⟩
  -- the value of the arm that runs is in the range of the type, so the copy keeps it
  by_cases hzero : (a.eval w S).1 = 0
  · have hjump : (Instr.jumpIfZero condition.value other).effect w T₁ = some (.jump other) := by
      rw [Instr.effect, ha.value, if_pos hzero]
    have hrange : τ.Holds (c.eval w (a.eval w S).2).1 := by
      rw [← hc.value, ← hnτ]
      exact no.value.holds_eval T₃
    refine ⟨T₃.set x (no.value.eval T₃), .of_set ?_ hc.agree (fun y hy hya => (hframe y hy hya).2)
      hx hx' ?_⟩
    · refine ha.runs.trans (.head (htest.step_jump hjump hcopy.tail.tail hn) ?_)
      refine .head (hcopy.tail.tail.step_next rfl) (hc.runs.trans ?_)
      exact .head (hlast.step_next rfl) (hfinish _)
    · rw [hτ, hc.value, IntType.wrap_of_holds hrange]
      simp [Expr.eval, hzero]
  · have hnext : (Instr.jumpIfZero condition.value other).effect w T₁ = some (.next T₁) := by
      rw [Instr.effect, ha.value, if_neg hzero]
    have hrange : τ.Holds (b.eval w (a.eval w S).2).1 := by
      rw [← hb.value, ← hyτ]
      exact yes.value.holds_eval T₂
    refine ⟨T₂.set x (yes.value.eval T₂), .of_set ?_ hb.agree
      (fun y hy hya => (hframe y hy hya).1) hx hx' ?_⟩
    · refine ha.runs.trans (.head (htest.step_next hnext) (hb.runs.trans ?_))
      refine .head (hcopy.step_next rfl) (.head (hcopy.tail.step_jump rfl hlast.tail hn) ?_)
      exact hfinish _
    · rw [hτ, hb.value, IntType.wrap_of_holds hrange]
      simp [Expr.eval, hzero]

namespace Coder

/-- The type of a typed expression is at hand. -/
theorem run_typeOf_eq {α : Type} {t : SymbolTable} {e : Expr} {τ : IntType} {g : IntType → Coder α}
    {s : Supply} (h : e.HasType t τ) : (liftM e.typeOf >>= g : Coder α).run s = (g τ).run s := by
  rw [h.typeOf_eq]
  rfl

/-- Code whose last instruction sets a new temporary. -/
theorem temporary_evaluates {e : Expr} {part : List Instr} {i : Value → Instr} {τ : IntType}
    {k : Int} {t : SymbolTable} {s s₁ : Supply} {o : ExprCode × Supply} {pc : Nat}
    {S R T : Store types}
    (hrun : (do
      let dst ← temporary τ
      return ⟨dst, τ, part ++ [i dst]⟩ : Coder ExprCode).run s₁ = .ok o)
    (hg : s.Grows s₁) (hfits : Fits t names types s₁ o.2) (hat : CodeAt code pc o.1.code)
    (hpart : s₁.Grows o.2 → CodeAt code pc part → ∃ T₁,
      Runs w code (.running pc T) (.running (pc + part.length) T₁) ∧ R.Agree names T₁ ∧
      (∀ y, s.symbols.Knows y → y ∉ e.assigned → T₁.get y = T.get y) ∧
      ∀ x, (i (.var x)).effect w T₁ = some (.next (T₁.set x k)))
    (he : e.eval w S = (τ.wrap k, R)) :
    ∃ T', Evaluates w code names s.symbols.Knows e o.1 pc S T T' := by
  obtain ⟨⟨dst, s₂⟩, h₂, hrun⟩ := run_bind_eq_ok.1 hrun
  obtain ⟨x, rfl, hnew, hx, hg', -⟩ := (temporary_ensures τ s₁).ok_of_eq h₂
  cases hrun
  obtain ⟨T₁, hruns, hagree, hframe, hi⟩ := hpart hg' hat.left
  -- the temporary is none of the variables known before, so all of them keep their values
  refine ⟨T₁.set x k, .temporary hat hruns hagree hframe ?_ ?_ (hi x) ?_⟩
  · exact hfits.not_counts hnew (SymbolTable.knows_of_typeOf? hx)
  · exact fun hk => hnew (hg.symbols.knows hk)
  · rw [hfits.types x τ hx]
    exact he

/-- An operator with two operands that run one after the other. -/
theorem plain_evaluates {n : Note} {plain : BinaryOp} {a b : Expr} {op : Operator} {τ : IntType}
    {k : Int} {left right : ExprCode} {t : SymbolTable} {s s₂ : Supply} {o : ExprCode × Supply}
    {pc : Nat} {S T : Store types}
    (hrun : (do
      let dst ← temporary τ
      return ⟨dst, τ, left.code ++ right.code ++ [.binary op left.value right.value dst]⟩ :
        Coder ExprCode).run s₂ = .ok o)
    (hg : s.Grows s₂) (hfits : Fits t names types s₂ o.2) (hat : CodeAt code pc o.1.code)
    (hoperands : CodeAt code pc (left.code ++ right.code) → ∃ T₂,
      EvaluatesAll w code names s.symbols.Knows [a, b] [left, right] pc S T T₂)
    (hvalue : op.value w (left.value.type types) (a.eval w S).1 (b.eval w (a.eval w S).2).1 =
      some k)
    (he : (Expr.binary n plain a b).eval w S = (τ.wrap k, (b.eval w (a.eval w S).2).2)) :
    ∃ T', Evaluates w code names s.symbols.Knows (.binary n plain a b) o.1 pc S T T' := by
  refine temporary_evaluates hrun hg hfits hat (fun _ hat => ?_) he
  obtain ⟨T₂, h⟩ := hoperands hat
  have hvalues : [left.value.eval T₂, right.value.eval T₂] =
      [(a.eval w S).1, (b.eval w (a.eval w S).2).1] := h.values
  obtain ⟨hl, hr⟩ : left.value.eval T₂ = (a.eval w S).1 ∧
      right.value.eval T₂ = (b.eval w (a.eval w S).2).1 := by simpa using hvalues
  refine ⟨T₂, by simpa using h.runs, h.agree, fun y hy hya => ?_, fun x => ?_⟩
  · exact h.frame y hy (by simpa [Expr.assigned, Expr.assignedAll] using hya)
  · simp [Instr.effect, hl, hr, hvalue, Value.assign]

/-- The code of an operator adds one temporary, and two labels at most. -/
theorem binary_grows {op : BinaryOp} {τ : IntType} {left right : ExprCode} {s : Supply} :
    Succeeds ((binary op τ left right).run s) (fun o => s.Grows o.2) := by
  have hplain : ∀ op : Operator, Succeeds ((do
      let dst ← temporary τ
      return ⟨dst, τ, left.code ++ right.code ++ [.binary op left.value right.value dst]⟩ :
        Coder ExprCode).run s) (fun o => s.Grows o.2) := by
    intro op
    exact (temporary_ensures τ s).run_bind fun _ _ ⟨_, _, _, _, hg, _⟩ => .run_pure hg
  cases op with
  | arith op => exact hplain (.arith op)
  | shift op => exact hplain (.shift op)
  | compare op => exact hplain (.compare op)
  | logic op =>
      refine (temporary_ensures .int s).run_bind fun _ s₁ ⟨_, _, _, _, hg, _⟩ => ?_
      refine (label_ensures _ s₁).run_bind fun _ s₂ ⟨_, h₂, hl₂⟩ => ?_
      refine (label_ensures _ s₂).run_bind fun _ s₃ ⟨_, h₃, hl₃⟩ => .run_pure ?_
      dsimp only at hg h₂ hl₂ h₃ hl₃ ⊢
      exact hg.trans (.of_symbols_eq (h₃.trans h₂) (by omega))

/-! ## Expressions -/

/-- The code that is made of an expression computes it wherever it stands. -/
def Faithful (types : VarTypes) (w : World) (code : List Instr) (names : String → Prop)
    (t : SymbolTable) (e : Expr) : Prop :=
  ∀ (τ : IntType) (s : Supply) (o : ExprCode × Supply), e.HasType t τ → e.Sequenced →
    (expr e).run s = .ok o → Fits t names types s o.2 →
    ∀ pc, CodeAt code pc o.1.code → ∀ S T : Store types, S.Agree names T →
      ∃ T', Evaluates w code names s.symbols.Knows e o.1 pc S T T'

def FaithfulAll (types : VarTypes) (w : World) (code : List Instr) (names : String → Prop)
    (t : SymbolTable) (es : List Expr) : Prop :=
  ∀ (τs : List IntType) (s : Supply) (o : List ExprCode × Supply), Expr.HasTypes t es τs →
    Expr.AllSequenced es → es.Pairwise Expr.Apart → (exprs es).run s = .ok o →
    Fits t names types s o.2 →
    ∀ pc, CodeAt code pc (o.1.flatMap ExprCode.code) → ∀ S T : Store types, S.Agree names T →
      ∃ T', EvaluatesAll w code names s.symbols.Knows es o.1 pc S T T'

namespace Faithful

variable {t : SymbolTable} {n : Note} {a b c : Expr}

theorem constant (c : Constant) : Faithful types w code names t (.constant n c) := by
  intro τ s o h _ hrun hfits pc hat S T hagree
  rw [expr, run_typeOf_eq h] at hrun
  cases hrun
  exact ⟨T, .refl _, rfl, hagree, fun _ _ _ => rfl⟩

theorem var (x : String) : Faithful types w code names t (.var n x) := by
  intro τ s o h _ hrun hfits pc hat S T hagree
  rw [expr, run_typeOf_eq h] at hrun
  cases hrun
  have hx := hfits.counts x (SymbolTable.knows_of_typeOf? h.2)
  exact ⟨T, .refl _, (hagree x hx).symm, hagree, fun _ _ _ => rfl⟩

/-- A cast to the type of its operand has no code, since the value is in range already. Any other
one has the effect of the conversion. -/
theorem cast {target : IntType} (hcoded : Faithful types w code names t a) :
    Faithful types w code names t (.cast n target a) := by
  intro τ s o h hs hrun hfits pc hat S T hagree
  obtain ⟨-, rfl, σ, ha⟩ := id h
  rw [expr] at hrun
  obtain ⟨⟨inner, s₁⟩, h₁, hrun⟩ := run_bind_eq_ok.1 hrun
  rw [run_typeOf_eq h] at hrun
  have hi := (expr_made a s σ (.mono hfits.base a σ ha)).ok_of_eq h₁
  dsimp only at hi hrun
  -- a cast to the type of its operand makes no code
  split at hrun
  · rename_i he
    cases hrun
    obtain ⟨T₁, h₁'⟩ := hcoded σ s _ ha hs h₁ hfits pc hat S T hagree
    obtain rfl : σ = target := hi.type.symm.trans he
    have hrange : σ.Holds (a.eval w S).1 := by
      rw [← h₁'.value, ← hfits.value_type hi.value]
      exact inner.value.holds_eval T₁
    refine ⟨T₁, h₁'.runs, ?_, h₁'.agree, h₁'.frame⟩
    show _ = σ.wrap (a.eval w S).1
    rw [IntType.wrap_of_holds hrange]
    exact h₁'.value
  · refine temporary_evaluates (i := conversion inner.type target inner.value) hrun hi.grows
      (hfits.right hi.grows) hat (fun hg hat => ?_) rfl
    have hfits₁ := hfits.left hg
    obtain ⟨T₁, h₁'⟩ := hcoded σ s _ ha hs h₁ hfits₁ pc hat S T hagree
    refine ⟨T₁, h₁'.runs, h₁'.agree, h₁'.frame, fun x => ?_⟩
    rw [← h₁'.value]
    exact effect_conversion x ((hfits₁.value_type hi.value).trans hi.type.symm)

theorem unary {op : UnaryOp} (hcoded : Faithful types w code names t a) :
    Faithful types w code names t (.unary n op a) := by
  intro τ s o h hs hrun hfits pc hat S T hagree
  obtain ⟨hnote, σ, ha, hop⟩ := id h
  rw [expr] at hrun
  obtain ⟨⟨inner, s₁⟩, h₁, hrun⟩ := run_bind_eq_ok.1 hrun
  rw [run_typeOf_eq h] at hrun
  have hi := (expr_made a s σ (.mono hfits.base a σ ha)).ok_of_eq h₁
  refine temporary_evaluates (i := Instr.unary op inner.value) (k := op.eval σ (a.eval w S).1)
    (R := (a.eval w S).2) hrun hi.grows (hfits.right hi.grows) hat (fun hg hat => ?_) ?_
  · have hfits₁ := hfits.left hg
    obtain ⟨T₁, h₁'⟩ := hcoded σ s _ ha hs h₁ hfits₁ pc hat S T hagree
    refine ⟨T₁, h₁'.runs, h₁'.agree, h₁'.frame, fun x => ?_⟩
    rw [← h₁'.value, ← hfits₁.value_type hi.value]
    rfl
  · have hrange := op.holds_eval σ (a.eval w S).1
    rw [hop] at hrange
    have hnote' : n.intType = τ := by rw [Note.intType, hnote, Option.getD_some]
    rw [IntType.wrap_of_holds hrange]
    simp only [Expr.eval, hnote', ← hop, UnaryOp.eval_resultType]

/-- The right operand leaves alone what the left one has computed, as neither assigns what the other
one mentions. A connective jumps over its right operand where evaluation skips it. -/
theorem binary {op : BinaryOp} (hn : (labelsOf code).Nodup)
    (hcodedA : Faithful types w code names t a) (hcodedB : Faithful types w code names t b) :
    Faithful types w code names t (.binary n op a b) := by
  intro τ s o h hs hrun hfits pc hat S T hagree
  obtain ⟨hnote, σ, ρ, ha, hb, hop⟩ := id h
  obtain ⟨hsa, hsb, hapart⟩ := hs
  rw [expr] at hrun
  obtain ⟨⟨left, s₁⟩, h₁, hrun⟩ := run_bind_eq_ok.1 hrun
  obtain ⟨⟨right, s₂⟩, h₂, hrun⟩ := run_bind_eq_ok.1 hrun
  rw [run_typeOf_eq h] at hrun
  dsimp only at h₂ hrun
  have hl := (expr_made a s σ (.mono hfits.base a σ ha)).ok_of_eq h₁
  have hb₁ := Expr.HasType.mono (hfits.right hl.grows).base b ρ hb
  have hr := (expr_made b s₁ ρ hb₁).ok_of_eq h₂
  have hg := binary_grows.ok_of_eq hrun
  -- the operands and the result are coded with the supply of the one before
  have hfits₁ := hfits.left (hr.grows.trans hg)
  have hfits₂ := (hfits.right hl.grows).left hg
  have hfits₃ := hfits.right (hl.grows.trans hr.grows)
  have hnote' : n.intType = τ := by rw [Note.intType, hnote, Option.getD_some]
  -- the operands of all operators but the connectives run as a list does
  have operands : Expr.ordersOperands op = false → CodeAt code pc (left.code ++ right.code) →
      ∃ T₂, EvaluatesAll w code names s.symbols.Knows [a, b] [left, right] pc S T T₂ := by
    intro horder hat
    obtain ⟨T₁, h₁'⟩ := hcodedA σ s _ ha hsa h₁ hfits₁ pc hat.left S T hagree
    obtain ⟨T₂, h₂'⟩ := hcodedB ρ s₁ _ hb hsb h₂ hfits₂ _ hat.right _ T₁ h₁'.agree
    have hright : EvaluatesAll w code names s₁.symbols.Knows [b] [right] _ _ T₁ T₂ :=
      .cons hr h₂' (.nil _ _ h₂'.agree) hfits₂.base (by simp [Expr.assignedAll]) (by simp)
    refine ⟨T₂, .cons hl h₁' hright hfits.base (fun x hx => ?_) ?_⟩
    · exact hb.knows b ρ x (.inr (by simpa [Expr.assignedAll] using hx))
    · simpa using hapart horder
  cases op with
  | arith op =>
      obtain ⟨rfl, rfl⟩ := hop
      refine plain_evaluates hrun (hl.grows.trans hr.grows) hfits₃ hat (operands rfl)
        (k := op.value w ρ (a.eval w S).1 (b.eval w (a.eval w S).2).1) ?_ ?_
      · rw [hfits₁.value_type hl.value]
        rfl
      · rw [IntType.wrap_of_holds (op.holds_value w ρ _ _)]
        simp only [Expr.eval, hnote']
  | shift op =>
      obtain rfl : σ = τ := hop
      refine plain_evaluates hrun (hl.grows.trans hr.grows) hfits₃ hat (operands rfl)
        (k := op.eval σ (a.eval w S).1 (b.eval w (a.eval w S).2).1) ?_ ?_
      · rw [hfits₁.value_type hl.value]
        rfl
      · rw [IntType.wrap_of_holds (op.holds_eval σ _ _)]
        simp only [Expr.eval, hnote']
  | compare op =>
      obtain ⟨rfl, rfl⟩ := hop
      refine plain_evaluates hrun (hl.grows.trans hr.grows) hfits₃ hat (operands rfl)
        (k := truth (op.holds (a.eval w S).1 (b.eval w (a.eval w S).2).1)) rfl ?_
      rw [IntType.wrap_of_holds (IntType.holds_int_truth _)]
      rfl
  | logic op =>
      obtain rfl : τ = .int := hop
      obtain ⟨⟨dst, s₃⟩, h₃, hrun⟩ := run_bind_eq_ok.1 hrun
      obtain ⟨⟨short, s₄⟩, h₄, hrun⟩ := run_bind_eq_ok.1 hrun
      obtain ⟨⟨finish, s₅⟩, h₅, hrun⟩ := run_bind_eq_ok.1 hrun
      obtain ⟨x, rfl, hnew, hx, -, -⟩ := (temporary_ensures .int s₂).ok_of_eq h₃
      obtain ⟨-, hs₄, -⟩ := (label_ensures _ s₃).ok_of_eq h₄
      obtain ⟨-, hs₅, -⟩ := (label_ensures _ s₄).ok_of_eq h₅
      cases hrun
      have hat' := hat
      rw [connectiveCode_eq] at hat'
      have hatleft := hat'.left.left.left.left
      have hatright : CodeAt code (pc + left.code.length + 1) right.code :=
        hat'.left.left.behind (by simp; omega)
      have hx₅ : s₅.symbols.typeOf? x = some (.integer .int) := by rwa [hs₅, hs₄]
      obtain ⟨T₁, h₁'⟩ := hcodedA σ s _ ha hsa h₁ hfits₁ pc hatleft S T hagree
      refine connective_evaluates hn hat h₁' ?_ (fun y => hl.grows.symbols.knows) ?_ ?_
        (hfits.types x .int hx₅)
      · exact hcodedB ρ s₁ _ hb hsb h₂ hfits₂ _ hatright _ T₁ h₁'.agree
      · exact hfits₃.not_counts hnew (SymbolTable.knows_of_typeOf? hx₅)
      · exact fun hk => hnew ((hl.grows.trans hr.grows).symbols.knows hk)

/-- The assignment is made last and its value is read from the variable that was assigned. -/
theorem assignment (hcoded : Faithful types w code names t b) :
    Faithful types w code names t (.assignment n a b) := by
  intro τ s o h hs hrun hfits pc hat S T hagree
  obtain ⟨-, hv, ha, hb⟩ := id h
  obtain ⟨m, x, rfl⟩ := Expr.exists_of_isVar hv
  rw [expr, expr] at hrun
  obtain ⟨⟨target, s₁⟩, h₁, hrun⟩ := run_bind_eq_ok.1 hrun
  rw [run_typeOf_eq ha] at h₁
  cases h₁
  obtain ⟨⟨value, s₂⟩, h₂, hrun⟩ := run_bind_eq_ok.1 hrun
  rw [run_typeOf_eq h] at hrun
  cases hrun
  have hval := (expr_made b s τ (.mono hfits.base b τ hb)).ok_of_eq h₂
  dsimp only [List.nil_append] at hat h₂
  obtain ⟨T₁, h₁'⟩ := hcoded τ s _ hb hs h₂ hfits pc hat.left S T hagree
  -- the stores know the variable with its type in the table
  have hx : types x = τ := hfits.types x τ (hval.grows.symbols _ _ (hfits.base _ _ ha.2))
  have he : (Expr.assignment n (.var m x) b).eval w S =
      ((types x).wrap (b.eval w S).1, (b.eval w S).2.set x (b.eval w S).1) := rfl
  refine ⟨T₁.set x (value.value.eval T₁), ?_, ?_, ?_, ?_⟩
  · show Runs w code _ (.running (pc + (value.code ++ [_]).length) _)
    rw [List.length_append, ← Nat.add_assoc]
    exact h₁'.runs.trans (.head (hat.right.step_next rfl) (.refl _))
  · rw [he, Value.eval, Store.get_set_self, h₁'.value]
  · rw [he, h₁'.value]
    exact h₁'.agree.set x _
  · intro y hy hya
    simp only [Expr.assigned, Expr.target?, Option.toList_some, List.mem_append,
      List.mem_singleton, not_or] at hya
    rw [Store.get_set_of_ne hya.1]
    exact h₁'.frame y hy hya.2

/-- One of the branches is run. Both end behind the code, with the value in the same temporary. -/
theorem conditional (hn : (labelsOf code).Nodup) (hcodedA : Faithful types w code names t a)
    (hcodedB : Faithful types w code names t b) (hcodedC : Faithful types w code names t c) :
    Faithful types w code names t (.conditional n a b c) := by
  intro τ s o h hs hrun hfits pc hat S T hagree
  obtain ⟨-, ⟨σ, ha⟩, hb, hc⟩ := id h
  obtain ⟨hsa, hsb, hsc⟩ := hs
  rw [expr] at hrun
  obtain ⟨⟨condition, s₁⟩, h₁, hrun⟩ := run_bind_eq_ok.1 hrun
  obtain ⟨⟨yes, s₂⟩, h₂, hrun⟩ := run_bind_eq_ok.1 hrun
  obtain ⟨⟨no, s₃⟩, h₃, hrun⟩ := run_bind_eq_ok.1 hrun
  rw [run_typeOf_eq h] at hrun
  dsimp only at h₂ h₃ hrun
  obtain ⟨⟨dst, s₄⟩, h₄, hrun⟩ := run_bind_eq_ok.1 hrun
  obtain ⟨⟨other, s₅⟩, h₅, hrun⟩ := run_bind_eq_ok.1 hrun
  obtain ⟨⟨finish, s₆⟩, h₆, hrun⟩ := run_bind_eq_ok.1 hrun
  obtain ⟨x, rfl, hnew, hx, hg, -⟩ := (temporary_ensures τ s₃).ok_of_eq h₄
  obtain ⟨-, hs₅, hl₅⟩ := (label_ensures _ s₄).ok_of_eq h₅
  obtain ⟨-, hs₆, hl₆⟩ := (label_ensures _ s₅).ok_of_eq h₆
  cases hrun
  dsimp only at hs₅ hl₅ hs₆ hl₆ hx hg hfits hat ⊢
  -- the supply grows from the condition over both arms to the temporary and the labels
  have hg₄ : s₃.Grows s₆ := hg.trans (.of_symbols_eq (hs₆.trans hs₅) (by omega))
  have h₁m := (expr_made a s σ (.mono hfits.base a σ ha)).ok_of_eq h₁
  have hb₁ := Expr.HasType.mono (hfits.right h₁m.grows).base b τ hb
  have h₂m := (expr_made b s₁ τ hb₁).ok_of_eq h₂
  have hg₂ := h₁m.grows.trans h₂m.grows
  have hc₂ := Expr.HasType.mono (hfits.right hg₂).base c τ hc
  have h₃m := (expr_made c s₂ τ hc₂).ok_of_eq h₃
  have hg₃ := hg₂.trans h₃m.grows
  have hfits₁ := hfits.left (h₂m.grows.trans (h₃m.grows.trans hg₄))
  have hfits₂ := (hfits.right h₁m.grows).left (h₃m.grows.trans hg₄)
  have hfits₃ := (hfits.right hg₂).left hg₄
  have hatcondition := hat.left.left.left.left.left
  -- the arms stand behind the test, and behind the copy and the jump of the first arm
  have hatyes : CodeAt code (pc + condition.code.length + 1) yes.code :=
    hat.left.left.left.behind (by simp; omega)
  have hatno : CodeAt code (pc + condition.code.length + 1 + yes.code.length + 3) no.code :=
    hat.left.behind (by simp; omega)
  have hx₆ : s₆.symbols.typeOf? x = some (.integer τ) := by rwa [hs₆, hs₅]
  obtain ⟨T₁, h₁'⟩ := hcodedA σ s _ ha hsa h₁ hfits₁ pc hatcondition S T hagree
  have hyes := hcodedB τ s₁ _ hb hsb h₂ hfits₂ _ hatyes _ T₁ h₁'.agree
  have hno := hcodedC τ s₂ _ hc hsc h₃ hfits₃ _ hatno _ T₁ h₁'.agree
  refine conditional_evaluates hn hat h₁' hyes hno (fun y => h₁m.grows.symbols.knows)
    (fun y => hg₂.symbols.knows) ?_ ?_ (hfits.types x τ hx₆) (hfits₂.value_type h₂m.value)
    (hfits₃.value_type h₃m.value)
  · exact (hfits.right hg₃).not_counts hnew (SymbolTable.knows_of_typeOf? hx₆)
  · exact fun hk => hnew (hg₃.symbols.knows hk)

/-- The arguments are in places that the code of later arguments leaves alone, so the call reads the
values that evaluation gives. -/
theorem call {f : String} {es : List Expr} (hcoded : FaithfulAll types w code names t es) :
    Faithful types w code names t (.call n f es) := by
  intro τ s o h hs hrun hfits pc hat S T hagree
  obtain ⟨hnote, params, hf, hes⟩ := id h
  rw [expr] at hrun
  obtain ⟨⟨outs, s₁⟩, h₁, hrun⟩ := run_bind_eq_ok.1 hrun
  rw [run_typeOf_eq h] at hrun
  have ho := (exprs_made es s params (.mono hfits.base es params hes)).ok_of_eq h₁
  refine temporary_evaluates (i := Instr.call f (outs.map ExprCode.value))
    (k := w.call f (Expr.evalAll w es S).1) (R := (Expr.evalAll w es S).2) hrun ho.grows
    (hfits.right ho.grows) hat (fun hg hat => ?_) ?_
  · obtain ⟨T₁, h₁'⟩ := hcoded params s _ hes hs.1 hs.2 h₁ (hfits.left hg) pc hat S T hagree
    refine ⟨T₁, h₁'.runs, h₁'.agree, h₁'.frame, fun x => ?_⟩
    rw [← h₁'.values, Instr.effect, List.map_map]
    rfl
  · have hnote' : n.intType = τ := by rw [Note.intType, hnote, Option.getD_some]
    rw [← hnote']
    rfl

end Faithful

namespace FaithfulAll

variable {t : SymbolTable}

theorem nil : FaithfulAll types w code names t [] := by
  intro _ s o _ _ _ hrun _ pc _ S T hagree
  rw [exprs] at hrun
  cases hrun
  exact ⟨T, .nil _ pc hagree⟩

/-- The values of the first argument survive the code of the others, which assigns no variable that
it reads. -/
theorem cons {e : Expr} {es : List Expr} (hcoded : Faithful types w code names t e)
    (hcodeds : FaithfulAll types w code names t es) :
    FaithfulAll types w code names t (e :: es) := by
  intro τs s o hτs ⟨hs, hss⟩ hapart hrun hfits pc hat S T hagree
  cases τs with
  | nil => exact hτs.elim
  | cons τ τs =>
      obtain ⟨h, hts⟩ := hτs
      -- no expression behind this one assigns what it reads or assigns, nor the other way round
      obtain ⟨hae, haes⟩ := List.pairwise_cons.1 hapart
      rw [exprs] at hrun
      obtain ⟨⟨out, s₁⟩, h₁, hrun⟩ := run_bind_eq_ok.1 hrun
      obtain ⟨⟨outs, s₂⟩, h₂, hrun⟩ := run_bind_eq_ok.1 hrun
      cases hrun
      dsimp only at h₂
      have ho := (expr_made e s τ (.mono hfits.base e τ h)).ok_of_eq h₁
      have hfits₁ := hfits.right ho.grows
      have hos := (exprs_made es s₁ τs (.mono hfits₁.base es τs hts)).ok_of_eq h₂
      obtain ⟨T₁, h₁'⟩ := hcoded τ s _ h hs h₁ (hfits.left hos.grows) pc hat.left S T hagree
      obtain ⟨T₂, h₂'⟩ := hcodeds τs s₁ _ hts hss haes h₂ hfits₁ _ hat.right _ T₁ h₁'.agree
      exact ⟨T₂, .cons ho h₁' h₂' hfits.base (fun x hx => hts.knows es τs x (.inr hx)) hae⟩

end FaithfulAll

mutual
/-- By induction on the expression, from the cases above. -/
theorem expr_faithful (hn : (labelsOf code).Nodup) (t : SymbolTable) :
    (e : Expr) → Faithful types w code names t e
  | .constant _ c => .constant c
  | .var _ x => .var x
  | .cast _ _ a => .cast (expr_faithful hn t a)
  | .unary _ _ a => .unary (expr_faithful hn t a)
  | .binary _ _ a b => .binary hn (expr_faithful hn t a) (expr_faithful hn t b)
  | .assignment _ _ b => .assignment (expr_faithful hn t b)
  | .conditional _ a b c =>
      .conditional hn (expr_faithful hn t a) (expr_faithful hn t b) (expr_faithful hn t c)
  | .call _ _ es => .call (exprs_faithful hn t es)
termination_by structural e => e

theorem exprs_faithful (hn : (labelsOf code).Nodup) (t : SymbolTable) :
    (es : List Expr) → FaithfulAll types w code names t es
  | [] => .nil
  | e :: es => .cons (expr_faithful hn t e) (exprs_faithful hn t es)
termination_by structural es => es
end

end Coder

/-! ## Checked expressions -/

/-- The code of a checked expression computes its value, and leaves in every variable that is no new
temporary what the evaluation of the expression leaves in it. -/
theorem code_of_checked_expr {symbols : SymbolTable} {e₀ e : Expr} {supply : Supply}
    (hassigns : e₀.AssignsVars) (hcheck : e₀.check symbols = .ok e) (hseq : e.Sequenced)
    (hext : symbols.Extends supply.symbols) :
    ∃ out supply', (Coder.expr e).run supply = .ok (out, supply') ∧
      ∀ (w : World) (S : Store supply'.symbols.varTypes), ∃ T,
        Runs w out.code (.running 0 S) (.running out.code.length T) ∧
        out.value.eval T = (e.eval w S).1 ∧
        ∀ x, (supply'.symbols.Knows x → supply.symbols.Knows x) →
          T.get x = (e.eval w S).2.get x := by
  obtain ⟨τ, hτ⟩ := (Expr.check_ensures (p := fun _ => True) symbols e₀ (by simp) hassigns).ok_of_eq
    hcheck
  have hmade := Coder.expr_made e supply τ (.mono hext e τ hτ)
  obtain ⟨⟨out, supply'⟩, hrun, hout⟩ := hmade.exists_ok
  refine ⟨out, supply', hrun, fun w S => ?_⟩
  have hfits : Fits symbols (fun x => supply'.symbols.Knows x → supply.symbols.Knows x)
      supply'.symbols.varTypes supply supply' :=
    ⟨hext, fun x hx _ => hext.knows hx, fun x hx => hx, fun x τ => SymbolTable.varTypes_eq⟩
  obtain ⟨T, h⟩ := Coder.expr_faithful (w := w) hout.labels.nodup symbols e τ supply _ hτ hseq hrun
    hfits 0 (.whole _) S S (.refl S)
  refine ⟨T, ?_, h.value, fun x hx => (h.agree x hx).symm⟩
  rw [← Nat.zero_add out.code.length]
  exact h.runs

/-- The expression `x && (y = 2)` of variables of types `int` and `long`. -/
theorem code_of_checked_connective :
    let n : Note := ⟨default, none⟩
    let symbols : SymbolTable := [("x", .automatic .int), ("y", .automatic .long)]
    let e₀ : Expr := .binary n (.logic .and) (.var n "x")
      (.assignment n (.var n "y") (.constant n ⟨.int, 2⟩))
    e₀.AssignsVars ∧ ∃ e, e₀.check symbols = .ok e ∧ e.Sequenced ∧
      ∃ out supply', (Coder.expr e).run ⟨symbols, 0, 0⟩ = .ok (out, supply') ∧
        ∀ (w : World) (S : Store supply'.symbols.varTypes), ∃ T,
          Runs w out.code (.running 0 S) (.running out.code.length T) ∧
          out.value.eval T = (e.eval w S).1 ∧
          ∀ x, (supply'.symbols.Knows x → SymbolTable.Knows symbols x) →
            T.get x = (e.eval w S).2.get x := by
  intro n symbols e₀
  have hassigns : e₀.AssignsVars := ⟨trivial, rfl, trivial⟩
  exact ⟨hassigns, _, rfl, by decide, code_of_checked_expr hassigns rfl (by decide) (.refl _)⟩

end ThreeAddress

end IntegerC
