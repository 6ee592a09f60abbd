import IntegerC.Proofs.Compilation
import IntegerC.Proofs.Folding
import IntegerC.Proofs.ThreeAddress.StmtRuns

set_option autoImplicit false

/-! # Constants at compile time and at run time

The value of a constant expression is found on its tree where a static variable is initialized, and
by running code where an automatic one is. Both are the same number of the same type.
-/

namespace IntegerC.ThreeAddress

/-! ## Code for constant expressions -/

/-- The code of a checked expression computes the number `n`, from whatever is known before and from
every store. -/
def Yields (e : Expr) (n : Int) : Prop :=
  ∀ supply, ∃ out supply', (Coder.expr e).run supply = .ok (out, supply') ∧
    ∀ (w : World) (S : Store supply'.symbols.varTypes), ∃ T,
      Runs w out.code (.running 0 S) (.running out.code.length T) ∧ out.value.eval T = n

/-- What was folded is what checking and running give, by the agreement of the two. -/
theorem yields_of_agrees {f : Folded} {e : Expr} {n : Int} (hf : f.Agrees e)
    (hn : f.value = .ok n) : Yields e n := by
  intro supply
  have htype := hf.hasType supply.symbols
  obtain ⟨⟨out, supply'⟩, hrun, hout⟩ := (Coder.expr_made e supply f.type htype).exists_ok
  refine ⟨out, supply', hrun, fun w S => ?_⟩
  have hfits : Fits supply.symbols supply.symbols.Knows supply'.symbols.varTypes supply supply' :=
    ⟨.refl _, fun x hx => hx, fun x hx _ => hx, fun x τ => SymbolTable.varTypes_eq⟩
  obtain ⟨T, h⟩ := Coder.expr_faithful (w := w) hout.labels.nodup supply.symbols e f.type supply _
    htype hf.sequenced hrun hfits 0 (.whole _) S S (.refl S)
  refine ⟨T, ?_, ?_⟩
  · rw [← Nat.zero_add out.code.length]
    exact h.runs
  · rw [h.value, ((hf.value n hn).2 _ w S)]

/-! ## Variables of a block -/

/-- As a static variable of a block, the variable starts with the number `n` of its type. -/
def StartsWith (symbols : SymbolTable) (d : VarDecl) (n : Int) : Prop :=
  ∃ d' symbols', (Checker.localVar { d with storage := some .static }).run symbols =
      .ok (d', symbols') ∧
    symbols'.find? d.name = some ⟨.integer d.type, .static (.initial ⟨d.type, n⟩) false⟩

/-- As an automatic variable of a block, the variable holds the number `n` when the code of its
declaration has run. -/
def IsGiven (symbols : SymbolTable) (d : VarDecl) (n : Int) : Prop :=
  ∃ d' symbols', (Checker.localVar { d with storage := none }).run symbols = .ok (d', symbols') ∧
    ∀ supply : Supply, symbols'.Extends supply.symbols →
      ∃ code supply', (Coder.localVar d').run supply = .ok (code, supply') ∧
        ∀ (w : World) (S : Store supply'.symbols.varTypes), ∃ T,
          Runs w code (.running 0 S) (.running code.length T) ∧ T.get d.name = n

variable {symbols : SymbolTable} {d : VarDecl} {e : Expr} {f : Folded} {c : Constant}

/-- An initializer that is constant starts a static variable with its value, converted to the
variable's type. -/
theorem startsWith_of_constant (hd : d.init = some e) (hc : e.constant? = .ok (some c)) :
    StartsWith symbols d (d.type.wrap c.value) := by
  let static : VarDecl := { d with storage := some .static }
  have hvalue : static.staticValue? = .ok (some (c.convert d.type)) := by
    simp only [VarDecl.staticValue?, static, hd, VarDecl.staticValue, hc]
    rfl
  refine ⟨static.withValue (some (c.convert d.type)), _, ?_,
    Table.find?_put_self symbols d.name _⟩
  show (liftM static.staticValue? >>= _ : Checker VarDecl).run symbols = _
  rw [hvalue]
  rfl

/-- The variable is in the table when its initializer is checked. -/
theorem isGiven_of_agrees {e' : Expr} {n : Int} (hd : d.init = some e)
    (hcheck : e.check (symbols.put d.name (.automatic d.type)) = .ok e') (hf : f.Agrees e')
    (hn : f.value = .ok n) : IsGiven symbols d (d.type.wrap n) := by
  let t : SymbolTable := symbols.put d.name (.automatic d.type)
  let d' : VarDecl := { d with storage := none, init := some (e'.convert d.type) }
  have hagrees := hf.convert d.type
  have hvalue : f.convert d.type = .ok (d.type.wrap n) := map_eq_ok.2 ⟨n, hn, rfl⟩
  -- the declaration is checked, then coded, then its code is run
  have hrun : (Checker.localVar { d with storage := none }).run symbols = .ok (d', t) := by
    have hexpr : (Checker.expr e).run t = .ok (e', t) := by
      refine run_bind_eq_ok.2 ⟨(t, t), rfl, ?_⟩
      show (liftM (e.check t) : Checker Expr).run t = _
      rw [hcheck]
      rfl
    have has : (Checker.exprAs d.type e).run t = .ok (e'.convert d.type, t) :=
      run_bind_eq_ok.2 ⟨(e', t), hexpr, rfl⟩
    simp only [Checker.localVar, hd]
    exact run_bind_eq_ok.2 ⟨((), t), rfl, run_bind_eq_ok.2 ⟨_, has, rfl⟩⟩
  have hname : t.typeOf? d.name = some (.integer d.type) := by
    rw [SymbolTable.typeOf?_put, if_pos rfl]
    rfl
  refine ⟨d', t, hrun, fun supply hext => ?_⟩
  have htyped : d'.Typed t := fun _ => ⟨hname, fun e₁ he₁ => by cases he₁; exact hagrees.hasType t⟩
  obtain ⟨⟨code, supply'⟩, hcode, hmade⟩ := (Coder.localVar_made (.mono hext htyped)).exists_ok
  refine ⟨code, supply', hcode, fun w S => ?_⟩
  have hfits : Fits t t.Knows supply'.symbols.varTypes supply supply' :=
    ⟨hext, fun x hx => hx, fun x hx _ => hext.knows hx, fun x τ => SymbolTable.varTypes_eq⟩
  have hnodup : (labelsOf code).Nodup := hmade.labels.nodup (.nil (Nat.le_refl 0))
  have hsequenced : ∀ e₁ ∈ d'.running, e₁.Sequenced := by
    intro e₁ he₁
    obtain rfl := List.mem_singleton.1 he₁
    exact hagrees.sequenced
  obtain ⟨T, hagree, hruns⟩ := Coder.localVar_changes (w := w) hnodup htyped hsequenced hcode hfits
    0 (.whole code) S S (.refl S)
  refine ⟨T, by simpa using hruns, ?_⟩
  -- the declaration stores the value, which its type holds already
  have hstored : (d'.exec w S).get d.name = d.type.wrap n := by
    have htype : supply'.symbols.varTypes d.name = d.type :=
      SymbolTable.varTypes_eq (hmade.grows.symbols _ _ (hext _ _ hname))
    show (((e'.convert d.type).eval w S).2.set d.name
      ((e'.convert d.type).eval w S).1).get d.name = _
    rw [(hagrees.value _ hvalue).2, Store.get_set_self, htype, IntType.wrap_wrap]
  rw [← hagree d.name (SymbolTable.knows_of_typeOf? hname), hstored]

/-! ## Expressions of a text -/

/-- A constant expression of a text has one type and one value at compile time and at run time. A
variable of a block that it initializes gets the same number whether it is static or not. -/
theorem constant_of_text {text : String} {ts : List Token} {tree : IntegerC.Program}
    (hts : tokens text = .ok ts) (htree : Program.ofTokens ts = .ok tree) (he : e ∈ tree.exprs)
    (hc : e.constant? = .ok (some c)) (symbols : SymbolTable) :
    (∃ e', e.check symbols = .ok e' ∧ e'.type = some c.type ∧ Yields e' c.value) ∧
      ∀ d : VarDecl, d.init = some e →
        ∃ n, StartsWith symbols d n ∧ IsGiven symbols d n := by
  have hproper := Program.proper_of_mem_exprs (Program.written_of_text hts htree) he
  have hrange : e.InRange := by
    rintro a ha n k rfl
    exact hproper _ ha
  obtain ⟨f, hfold, hn, hctype⟩ :
      ∃ f, e.fold = some f ∧ f.value = .ok c.value ∧ c.type = f.type := by
    unfold Expr.constant? at hc
    split at hc
    · cases hc
    · rename_i f hfold
      obtain ⟨n, hn, hc⟩ := map_eq_ok.1 hc
      cases hc
      exact ⟨f, hfold, hn, rfl⟩
  constructor
  · obtain ⟨e', hcheck, hagrees⟩ := Expr.check_of_fold_eq symbols f hrange hfold
    refine ⟨e', hcheck, ?_, yields_of_agrees hagrees hn⟩
    rw [(hagrees.hasType symbols).type_eq, hctype]
  · intro d hd
    obtain ⟨e', hcheck, hagrees⟩ :=
      Expr.check_of_fold_eq (symbols.put d.name (.automatic d.type)) f hrange hfold
    exact ⟨d.type.wrap c.value, startsWith_of_constant hd hc,
      isGiven_of_agrees hd hcheck hagrees hn⟩

/-- The text of a function with a conditional of which only one arm can be evaluated. -/
def conditionalText : String :=
  "int f(void) \x7b long x = -1 > 0u ? 7 % 4 : 1 / 0; return x; \x7d"

theorem constant_of_conditionalText :
    ∃ ts tree e, tokens conditionalText = .ok ts ∧ Program.ofTokens ts = .ok tree ∧
      e ∈ tree.exprs ∧ e.constant? = .ok (some ⟨.int, 3⟩) ∧
      ∀ symbols : SymbolTable,
        (∃ e', e.check symbols = .ok e' ∧ e'.type = some .int ∧ Yields e' 3) ∧
          ∀ d : VarDecl, d.init = some e →
            ∃ n, StartsWith symbols d n ∧ IsGiven symbols d n := by
  have h : ((tokens conditionalText).toOption.bind fun ts =>
      (Program.ofTokens ts).toOption.bind fun tree =>
        some (tree.exprs.any fun e => e.constant?.toOption = some (some ⟨.int, 3⟩))) =
      some true := by
    decide +kernel
  obtain ⟨ts, hts, h⟩ := toOption_bind_eq_some.1 h
  obtain ⟨tree, htree, h⟩ := toOption_bind_eq_some.1 h
  obtain ⟨e, he, hc⟩ := List.any_eq_true.1 (Option.some.inj h)
  have hconst : e.constant? = .ok (some ⟨.int, 3⟩) := by
    have hsome := of_decide_eq_true hc
    cases hcase : e.constant? with
    | error f =>
        rw [hcase] at hsome
        cases hsome
    | ok c =>
        rw [hcase] at hsome
        cases hsome
        rfl
  exact ⟨ts, tree, e, hts, htree, he, hconst, constant_of_text hts htree he hconst⟩

end IntegerC.ThreeAddress
