import IntegerC.Proofs.Machine.Choice
import IntegerC.Proofs.Machine.Slots

set_option autoImplicit false

/-! # Machine code does what three-address code does

The instructions that are chosen for a well typed instruction leave in its destination the bits of
its result, leave all other variables alone, and jump exactly if it does. Where a division has no
result it is left open what they do.
-/

namespace IntegerC.Machine

open ThreeAddress (Value Effect)

/-! ## Pieces of code -/

variable {types : VarTypes} {m : State (Slots types)} {s : Store types} {x : String} {n : Int}

/-- The code runs to its end, and the variables then hold the numbers of `s'`. -/
def Leaves (m : State (Slots types)) (code : List Instr) (s' : Store types) : Prop :=
  ∃ m', run m code = some (.next, m') ∧ m'.memory.Represents s'

namespace Leaves

theorem nil (h : m.memory.Represents s) : Leaves m [] s := ⟨m, rfl, h⟩

theorem cons {m' : State (Slots types)} {i : Instr} {is : List Instr}
    (hi : i.effect m = some (.next, m')) (h : Leaves m' is s) : Leaves m (i :: is) s := by
  obtain ⟨m'', hrun, hm''⟩ := h
  exact ⟨m'', (run_cons hi).trans hrun, hm''⟩

end Leaves

theorem effect_mov {w : Width} {src : Operand} (hw : w = .ofType (types x))
    (hs : m.read w.bits src = some (BitVec.ofInt w.bits n)) :
    (Instr.mov w src (.pseudo x)).effect m = some (.next, m.put x n) := by
  subst hw
  simp [Instr.effect, hs, State.write_pseudo]

/-- A move loads the value into the register and leaves memory alone. -/
theorem effect_load {τ : IntType} {src : Operand}
    (hs : m.read (Width.ofType τ).bits src = some (BitVec.ofInt _ n)) (r : Reg) :
    ∃ m' : State (Slots types), (Instr.mov (.ofType τ) src (.reg r)).effect m = some (.next, m') ∧
      m'.memory = m.memory ∧
      m'.read (Width.ofType τ).bits (.reg r) = some (BitVec.ofInt _ n) := by
  obtain ⟨hlow, hhigh⟩ := (Width.ofType τ).bits_bounds
  refine ⟨m.setReg r (BitVec.ofInt (Width.ofType τ).bits n), ?_, rfl, ?_⟩
  · simp [Instr.effect, hs, State.write]
  · rw [State.read_setReg hlow hhigh (Nat.le_refl _), BitVec.setWidth_eq]

theorem effect_cmp {w : Width} {left right : Operand} {a b : BitVec w.bits}
    (hl : m.read w.bits left = some a) (hr : m.read w.bits right = some b) :
    (Instr.cmp w right left).effect m =
      some (.next, m.setFlags (some (.ofDifference a b))) := by
  simp [Instr.effect, hl, hr]

/-- An operation in place of its left operand. -/
theorem plainCode_leaves {op : BinaryOp} {a : Int} {left right : Operand}
    {b : BitVec (Width.ofType (types x)).bits} (h : m.memory.Represents s)
    (hl : m.read (Width.ofType (types x)).bits left = some (BitVec.ofInt _ a))
    (hr : (m.put x a).readSource op _ right = some b)
    (hvalue : op.value (BitVec.ofInt _ a) b = BitVec.ofInt _ n) :
    Leaves m (plainCode op (.ofType (types x)) left right (.pseudo x)) (s.set x n) := by
  have hop : (Instr.binary op (.ofType (types x)) right (.pseudo x)).effect (m.put x a) =
      some (.next, (m.put x n).setFlags none) := by
    simp [Instr.effect, State.read_put, hr, hvalue, State.write_pseudo]
  exact .cons (effect_mov rfl hl) (.cons hop (.nil (State.represents_put h)))

/-- A unary operator leaves its value in the destination, for a source that holds its operand. -/
theorem unaryCode_leaves {op : UnaryOp} {a : Int} {src : Operand} (h : m.memory.Represents s)
    (hs : m.read (Width.ofType (types x)).bits src = some (BitVec.ofInt _ a))
    (hvalue : op.value (BitVec.ofInt _ a) = BitVec.ofInt (Width.ofType (types x)).bits n) :
    Leaves m (unaryCode op (.ofType (types x)) src (.pseudo x)) (s.set x n) := by
  have hop : (Instr.unary op (.ofType (types x)) (.pseudo x)).effect (m.put x a) =
      some (.next, if op = .not then m.put x n else (m.put x n).setFlags none) := by
    simp [Instr.effect, State.read_put, hvalue, State.write_pseudo]
  refine .cons (effect_mov rfl hs) (.cons hop (.nil ?_))
  split
  · exact State.represents_put h
  · exact State.represents_put h

/-- A truth value made of the flags of a comparison. -/
theorem truthCode_leaves {w w' : Width} {left right : Operand} {a b : BitVec w.bits} (c : Cond)
    (h : m.memory.Represents s) (hl : m.read w.bits left = some a)
    (hr : m.read w.bits right = some b) (hw : w' = .ofType (types x)) :
    Leaves m [.cmp w right left, .mov w' (.imm 0) (.pseudo x), .setCC c (.pseudo x)]
      (s.set x (truth (c.holds (.ofDifference a b)))) := by
  let m₁ := m.setFlags (some (.ofDifference a b))
  have hset : (Instr.setCC c (.pseudo x)).effect (m₁.put x 0) =
      some (.next, m₁.put x (truth (c.holds (.ofDifference a b)))) := by
    have hflags : (m₁.put x 0).flags = some (.ofDifference a b) := rfl
    simp only [Instr.effect, hflags, Option.bind_eq_bind, Option.bind_some, State.write_truth]
    rfl
  have h₁ : m₁.memory.Represents s := h
  refine .cons (effect_cmp hl hr) (.cons (effect_mov hw rfl) (.cons hset (.nil ?_)))
  exact State.represents_put h₁

/-- A jump if a comparison with zero answers so. -/
theorem run_jump {w : Width} {c : Operand} {a : BitVec w.bits} (cc : Cond) (target : String)
    (hc : m.read w.bits c = some a) :
    ∃ m', run m [.cmp w (.imm 0) c, .jmpCC cc target] =
      some (if cc.holds (.ofDifference a (BitVec.ofInt _ 0)) then .jump target else .next, m') ∧
      m'.memory = m.memory := by
  let m₁ := m.setFlags (some (.ofDifference a (BitVec.ofInt w.bits 0)))
  have hjump : (Instr.jmpCC cc target).effect m₁ = some
      (if cc.holds (.ofDifference a (BitVec.ofInt _ 0)) then .jump target else .next, m₁) := rfl
  refine ⟨m₁, ?_, rfl⟩
  rw [run_cons (effect_cmp hc rfl), run, hjump]
  split <;> simp_all [run]

/-! ## Divisions -/

/-- The dividend stands in `ax`, with its sign or zeros in front of it in `dx`. -/
def Dividend (m : State (Slots types)) (τ : IntType) (a : Int) : Prop :=
  ∃ high, m.read (Width.ofType τ).bits (.reg .dx) = some high ∧
    m.read (Width.ofType τ).bits (.reg .ax) = some (BitVec.ofInt _ a) ∧
    intOf τ.signed high <<< (Width.ofType τ).bits +
      (BitVec.ofInt (Width.ofType τ).bits a).toNat = a

/-- The sign of a dividend with one comes from the machine, and zeros are moved. -/
theorem effect_extend {τ : IntType} {a : Int} (ha : τ.Holds a)
    (hax : m.read (Width.ofType τ).bits (.reg .ax) = some (BitVec.ofInt _ a)) :
    ∃ m' : State (Slots types),
      (if τ.signed then Instr.cdq (.ofType τ) else .mov (.ofType τ) (.imm 0) (.reg .dx)).effect m =
        some (.next, m') ∧ m'.memory = m.memory ∧ Dividend m' τ a := by
  obtain ⟨hlow, hhigh⟩ := (Width.ofType τ).bits_bounds
  have hread : ∀ v : BitVec (Width.ofType τ).bits,
      (m.setReg .dx v).read (Width.ofType τ).bits (.reg .dx) = some v := by
    intro v
    rw [State.read_setReg hlow hhigh (Nat.le_refl _), BitVec.setWidth_eq]
  have hax' : ∀ v : BitVec (Width.ofType τ).bits,
      (m.setReg .dx v).read (Width.ofType τ).bits (.reg .ax) = some (BitVec.ofInt _ a) := by
    intro v
    rw [State.read_setReg_of_ne (by decide), hax]
  have hnumber := IntType.intOf_ofInt_of_holds ha
  -- the upper half is the sign of a signed dividend, and zero otherwise
  cases hsign : τ.signed with
  | true =>
      refine ⟨m.setReg .dx (signFill (BitVec.ofInt (Width.ofType τ).bits a)), ?_, rfl, _,
        hread _, hax' _, ?_⟩
      · have hax'' : (m.regs .ax).setWidth (Width.ofType τ).bits = BitVec.ofInt _ a :=
          Option.some.inj hax
        simp only [if_true, Instr.effect, hax'']
      · rw [hsign] at hnumber ⊢
        exact (toInt_signFill _).trans hnumber
  | false =>
      refine ⟨m.setReg .dx (BitVec.ofInt (Width.ofType τ).bits 0), rfl, rfl, _, hread _, hax' _, ?_⟩
      rw [hsign] at hnumber ⊢
      have hzero : intOf false (BitVec.ofInt (Width.ofType τ).bits 0) = 0 := by
        simp [intOf]
      rw [hzero, Int.zero_shiftLeft, Int.zero_add]
      exact hnumber

/-- A division leaves the quotient in `ax` and the remainder in `dx`. -/
theorem effect_divide {τ : IntType} {a b : Int} {divisor : Operand} (h : Dividend m τ a)
    (ha : τ.Holds a) (hb : τ.Holds b) (hzero : b ≠ 0) (hmin : ¬ (a = τ.min ∧ b = -1))
    (hdivisor : m.read (Width.ofType τ).bits divisor = some (BitVec.ofInt _ b)) :
    ∃ m' : State (Slots types),
      (if τ.signed then Instr.idiv (.ofType τ) divisor else .div (.ofType τ) divisor).effect m =
        some (.next, m') ∧ m'.memory = m.memory ∧
      m'.read (Width.ofType τ).bits (.reg .ax) = some (BitVec.ofInt _ (a.tdiv b)) ∧
      m'.read (Width.ofType τ).bits (.reg .dx) = some (BitVec.ofInt _ (a.tmod b)) := by
  obtain ⟨hlow, hhigh⟩ := (Width.ofType τ).bits_bounds
  obtain ⟨high, hdx, hax, hnumber⟩ := h
  refine ⟨m.divided (BitVec.ofInt (Width.ofType τ).bits (a.tdiv b)) (BitVec.ofInt _ (a.tmod b)), ?_,
    rfl, ?_, ?_⟩
  · have hdivide : m.divide τ.signed (Width.ofType τ).bits divisor =
        some (m.divided (BitVec.ofInt (Width.ofType τ).bits (a.tdiv b))
          (BitVec.ofInt _ (a.tmod b))) := by
      rw [State.divide, hdivisor, Option.some.inj hdx, Option.some.inj hax]
      simp only [Option.bind_eq_bind, Option.bind_some, divide_ofInt ha hb hzero hmin hnumber]
      rfl
    cases hsign : τ.signed <;> rw [hsign] at hdivide <;> simp [Instr.effect, hdivide]
  · rw [State.divided, State.read_setFlags, State.read_setReg_of_ne (by decide),
      State.read_setReg hlow hhigh (Nat.le_refl _), BitVec.setWidth_eq]
  · rw [State.divided, State.read_setFlags, State.read_setReg hlow hhigh (Nat.le_refl _),
      BitVec.setWidth_eq]

theorem divisionCode_eq (w : Width) (signed : Bool) (result : Reg) (left right dst : Operand) :
    divisionCode w signed result left right dst =
      [.mov w left (.reg .ax), if signed then .cdq w else .mov w (.imm 0) (.reg .dx),
        if signed then .idiv w right else .div w right, .mov w (.reg result) dst] := by
  cases signed <;> rfl

/-- A division of values, of which either the quotient or the remainder is asked for. -/
theorem divisionCode_leaves {left right : Value} {result : Reg} (h : m.memory.Represents s)
    (hl : left.type types = types x) (hr : right.type types = types x) (hzero : right.eval s ≠ 0)
    (hmin : ¬ (left.eval s = (types x).min ∧ right.eval s = -1))
    (hresult : result = .ax ∧ n = (left.eval s).tdiv (right.eval s) ∨
      result = .dx ∧ n = (left.eval s).tmod (right.eval s)) :
    Leaves m (divisionCode (.ofType (types x)) (types x).signed result (.ofValue left)
      (.ofValue right) (.pseudo x)) (s.set x n) := by
  have ha : (types x).Holds (left.eval s) := hl ▸ left.holds_eval s
  have hb : (types x).Holds (right.eval s) := hr ▸ right.holds_eval s
  obtain ⟨m₁, hload, hm₁, hax⟩ := effect_load (State.read_ofType h hl) .ax
  obtain ⟨m₂, hextend, hm₂, hdividend⟩ := effect_extend ha hax
  have h₂ : m₂.memory.Represents s := by rwa [hm₂, hm₁]
  obtain ⟨m₃, hdivide, hm₃, hquotient, hremainder⟩ :=
    effect_divide hdividend ha hb hzero hmin (State.read_ofType h₂ hr)
  -- one of the two registers is moved to the destination
  have hread : m₃.read (Width.ofType (types x)).bits (.reg result) = some (BitVec.ofInt _ n) := by
    rcases hresult with ⟨rfl, rfl⟩ | ⟨rfl, rfl⟩
    · exact hquotient
    · exact hremainder
  have h₃ : m₃.memory.Represents s := by rwa [hm₃]
  rw [divisionCode_eq]
  refine .cons hload (.cons hextend (.cons hdivide ?_))
  exact .cons (effect_mov rfl hread) (.nil (State.represents_put h₃))

/-! ## Operators -/

/-- An operation on two values of one type, in place of the left one. -/
theorem plainCode_leaves_values {op : BinaryOp} {left right : Value} (hop : op.isShift = false)
    (h : m.memory.Represents s) (hl : left.type types = types x) (hr : right.type types = types x)
    (hx : right ≠ .var x)
    (hvalue : op.value (BitVec.ofInt (Width.ofType (types x)).bits (left.eval s))
      (BitVec.ofInt _ (right.eval s)) = BitVec.ofInt _ n) :
    Leaves m (plainCode op (.ofType (types x)) (.ofValue left) (.ofValue right) (.pseudo x))
      (s.set x n) := by
  have h₁ : (m.put x (left.eval s)).memory.Represents (s.set x (left.eval s)) :=
    State.represents_put h
  have hsource : (m.put x (left.eval s)).readSource op (Width.ofType (types x)).bits
      (.ofValue right) = some (BitVec.ofInt _ (right.eval s)) := by
    rw [State.readSource, hop, if_neg Bool.false_ne_true, State.read_ofType h₁ hr,
      Value.eval_set_of_ne hx]
  exact plainCode_leaves h (State.read_ofType h hl) hsource hvalue

/-- The left operand is moved first. It may be the variable that receives the result, but the right
one is not, so it is still there when the operation reads it. -/
theorem arithCode_leaves (w : World) {op : ArithOp} {left right : Value}
    (h : m.memory.Represents s) (hl : left.type types = types x) (hr : right.type types = types x)
    (hx : right ≠ .var x)
    (hdefined : op = .divide ∨ op = .remainder →
      right.eval s ≠ 0 ∧ ¬ (left.eval s = (types x).min ∧ right.eval s = -1)) :
    Leaves m (arithCode op (.ofType (types x)) (types x).signed (.ofValue left) (.ofValue right)
      (.pseudo x)) (s.set x (op.value w (types x) (left.eval s) (right.eval s))) := by
  cases op with
  | add =>
      refine plainCode_leaves_values rfl h hl hr hx ?_
      exact (BitVec.ofInt_add _ _).symm.trans (IntType.ofInt_wrap _ _).symm
  | subtract =>
      refine plainCode_leaves_values rfl h hl hr hx ?_
      exact (ofInt_sub _ _ _).symm.trans (IntType.ofInt_wrap _ _).symm
  | multiply =>
      refine plainCode_leaves_values rfl h hl hr hx ?_
      exact (BitVec.ofInt_mul _ _).symm.trans (IntType.ofInt_wrap _ _).symm
  | bitAnd =>
      refine plainCode_leaves_values rfl h hl hr hx ?_
      exact (IntType.ofInt_bitwise _ (fun _ => BitVec.and) _ _).symm
  | bitOr =>
      refine plainCode_leaves_values rfl h hl hr hx ?_
      exact (IntType.ofInt_bitwise _ (fun _ => BitVec.or) _ _).symm
  | bitXor =>
      refine plainCode_leaves_values rfl h hl hr hx ?_
      exact (IntType.ofInt_bitwise _ (fun _ => BitVec.xor) _ _).symm
  | divide =>
      obtain ⟨hzero, hmin⟩ := hdefined (.inl rfl)
      -- as the divisor is not zero, the value is a quotient
      have hvalue : ArithOp.divide.value w (types x) (left.eval s) (right.eval s) =
          (types x).wrap ((left.eval s).tdiv (right.eval s)) := by
        simp [ArithOp.value, ArithOp.eval, hzero]
      rw [hvalue, Store.set_wrap]
      exact divisionCode_leaves h hl hr hzero hmin (.inl ⟨rfl, rfl⟩)
  | remainder =>
      obtain ⟨hzero, hmin⟩ := hdefined (.inr rfl)
      have hvalue : ArithOp.remainder.value w (types x) (left.eval s) (right.eval s) =
          (types x).wrap ((left.eval s).tmod (right.eval s)) := by
        simp [ArithOp.value, ArithOp.eval, hzero]
      rw [hvalue, Store.set_wrap]
      exact divisionCode_leaves h hl hr hzero hmin (.inr ⟨rfl, rfl⟩)

/-- A shift reads the low byte of its count, which may be of any type. -/
theorem shiftCode_leaves {t : SymbolTable} {m : State (Slots t.varTypes)} {s : Store t.varTypes}
    {op : ShiftOp} {left right : Value} {σ : IntType} {code : List Instr}
    (h : m.memory.Represents s) (hl : left.type t.varTypes = t.varTypes x) (hr : right.HasType t σ)
    (hx : right ≠ .var x)
    (hcode : shiftCode t (.ofShift op (t.varTypes x).signed) (.ofType (t.varTypes x)) left right
      (.var x) = .ok code) :
    Leaves m code (s.set x (op.eval (t.varTypes x) (left.eval s) (right.eval s))) := by
  have ha : (t.varTypes x).Holds (left.eval s) := hl ▸ left.holds_eval s
  have hshift : (BinaryOp.ofShift op (t.varTypes x).signed).isShift = true := by
    cases op <;> cases (t.varTypes x).signed <;> rfl
  have hvalue := BinaryOp.value_ofShift ha op (right.eval s)
  cases right with
  -- the count is cut when the code is chosen
  | constant c =>
      cases hcode
      have hsource : (m.put x (left.eval s)).readSource (.ofShift op (t.varTypes x).signed)
          (Width.ofType (t.varTypes x)).bits (.imm (c.value % 256)) =
            some ((BitVec.ofInt 8 c.number).setWidth _) := by
        have hbits : 8 ≤ (Width.ofType c.type).bits :=
          Nat.le_trans (by decide) (Width.ofType c.type).bits_bounds.1
        have hbyte : BitVec.ofInt 8 c.value = BitVec.ofInt 8 c.number :=
          Option.some.inj (State.read_ofValue (v := .constant c) h hbits)
        rw [State.readSource, if_pos hshift, State.readCount, ofInt_byte, hbyte, Option.map_some]
      exact plainCode_leaves h (State.read_ofType h hl) hsource hvalue
  -- the count goes through `cx`, of which the shift reads the low byte
  | var y =>
      rw [shiftCode, valueWidth_eq hr] at hcode
      cases hcode
      have h₁ : (m.put x (left.eval s)).memory.Represents (s.set x (left.eval s)) :=
        State.represents_put h
      obtain ⟨m₂, hload, hm₂, hcx⟩ := effect_load (State.read_ofType h₁ hr.type_eq) .cx
      have hdst : m₂.read (Width.ofType (t.varTypes x)).bits (.pseudo x) =
          some (BitVec.ofInt _ (left.eval s)) := by
        rw [← State.read_put (m := m)]
        show Memory.load m₂.memory _ _ = Memory.load (m.put x _).memory _ _
        rw [hm₂]
      have hsource : m₂.readSource (.ofShift op (t.varTypes x).signed)
          (Width.ofType (t.varTypes x)).bits (.reg .cx) =
            some ((BitVec.ofInt 8 (Value.eval s (.var y))).setWidth _) := by
        have hbits : 8 ≤ (Width.ofType σ).bits :=
          Nat.le_trans (by decide) (Width.ofType σ).bits_bounds.1
        have hbyte : (m₂.regs .cx).setWidth 8 = BitVec.ofInt 8 (Value.eval s (.var y)) := by
          rw [← BitVec.setWidth_setWidth_of_le _ hbits, Option.some.inj hcx, setWidth_ofInt hbits,
            Value.eval_set_of_ne hx]
        rw [State.readSource, if_pos hshift, State.readCount, hbyte, Option.map_some]
      have hop : (Instr.binary (.ofShift op (t.varTypes x).signed) (.ofType (t.varTypes x))
          (.reg .cx) (.pseudo x)).effect m₂ = some (.next, (m₂.put x
            (op.eval (t.varTypes x) (left.eval s) (Value.eval s (.var y)))).setFlags none) := by
        simp [Instr.effect, hdst, hsource, hvalue, State.write_pseudo]
      refine .cons (effect_mov rfl (State.read_ofType h hl)) (.cons hload (.cons hop (.nil ?_)))
      rw [← Store.set_set s x (left.eval s)]
      exact State.represents_put (hm₂ ▸ h₁)

/-! ## Instructions -/

theorem ofType_eq_of_size_eq {σ τ : IntType} (h : σ.size = τ.size) :
    Width.ofType σ = Width.ofType τ := by
  rw [Width.ofType, h, Width.ofType]

theorem ofType_eq_quadword {τ : IntType} (h : τ.size = 8) : Width.ofType τ = .quadword := by
  rw [Width.ofType, h]
  rfl

/-- The extensions fill a quadword from a longword. -/
theorem extension_leaves {τ : IntType} {src : Value} {i : Instr}
    {f : BitVec 32 → BitVec 64} (h : m.memory.Represents s) (hs : src.type types = τ)
    (hτ : Width.ofType τ = .longword) (hx : Width.ofType (types x) = .quadword)
    (hi : i.effect m = do return (.next, ← m.write (f (← m.read 32 (.ofValue src))) (.pseudo x)))
    (hf : ∀ n, f (BitVec.ofInt 32 n) = BitVec.ofInt 64 (τ.wrap n)) :
    Leaves m [i] (s.set x (τ.wrap (src.eval s))) := by
  have hbits : 32 ≤ (Width.ofType (src.type types)).bits := by
    rw [hs, hτ]
    exact Nat.le_refl 32
  have hwrite : m.write (BitVec.ofInt 64 (τ.wrap (src.eval s))) (.pseudo x) =
      some (m.put x (τ.wrap (src.eval s))) := by
    have hwrite := State.write_pseudo (m := m) (x := x) (n := τ.wrap (src.eval s))
    rwa [hx] at hwrite
  have heffect : i.effect m = some (.next, m.put x (τ.wrap (src.eval s))) := by
    rw [hi, State.read_ofValue h hbits]
    simp only [Option.bind_eq_bind, Option.bind_some, hf, hwrite]
    rfl
  exact .cons heffect (.nil (State.represents_put h))

/-- A comparison of two values of one type. -/
theorem compareCode_leaves {τ : IntType} {w' : Width} {left right : Operand} {a b : Int}
    (op : CompareOp) (h : m.memory.Represents s) (ha : τ.Holds a) (hb : τ.Holds b)
    (hl : m.read (Width.ofType τ).bits left = some (BitVec.ofInt _ a))
    (hr : m.read (Width.ofType τ).bits right = some (BitVec.ofInt _ b))
    (hw : w' = .ofType (types x)) :
    Leaves m [.cmp (.ofType τ) right left, .mov w' (.imm 0) (.pseudo x),
      .setCC (.ofCompare op τ.signed) (.pseudo x)] (s.set x (truth (op.holds a b))) := by
  have hcode := truthCode_leaves (.ofCompare op τ.signed) h hl hr hw
  rwa [Cond.holds_ofInt ha hb] at hcode

/-- The negation of a value asks whether it is zero. -/
theorem notCode_leaves {τ : IntType} {w' : Width} {src : Operand} {a : Int}
    (h : m.memory.Represents s) (ha : τ.Holds a)
    (hs : m.read (Width.ofType τ).bits src = some (BitVec.ofInt _ a))
    (hw : w' = .ofType (types x)) :
    Leaves m [.cmp (.ofType τ) (.imm 0) src, .mov w' (.imm 0) (.pseudo x), .setCC .e (.pseudo x)]
      (s.set x (IntegerC.UnaryOp.not.eval τ a)) := by
  have hvalue : IntegerC.UnaryOp.not.eval τ a = truth (CompareOp.equal.holds a 0) := by
    by_cases hzero : a = 0 <;> simp [IntegerC.UnaryOp.eval, CompareOp.holds, truth, hzero]
  rw [hvalue]
  exact compareCode_leaves .equal h ha τ.holds_zero hs rfl hw

/-- A jump if a value compares with zero. -/
theorem jumpCode_run {c : Value} {τ : IntType} (op : CompareOp) (target : String)
    (h : m.memory.Represents s) (hc : c.type types = τ) :
    ∃ m', run m [.cmp (.ofType τ) (.imm 0) (.ofValue c), .jmpCC (.ofCompare op τ.signed) target] =
      some (if op.holds (c.eval s) 0 then .jump target else .next, m') ∧
      m'.memory.Represents s := by
  have ha : τ.Holds (c.eval s) := hc ▸ c.holds_eval s
  obtain ⟨m', hrun, hm'⟩ := run_jump (.ofCompare op τ.signed) target (State.read_ofType h hc)
  rw [Cond.holds_ofInt ha τ.holds_zero] at hrun
  exact ⟨m', hrun, hm' ▸ h⟩

/-- Running the code for the instruction `i` on a store `s` had its effect: the variables hold the
numbers of the store behind it, it jumped if the instruction does, and a number that is returned
stands in `ax`. -/
def Achieves (i : ThreeAddress.Instr) (s : Store types) (r : Option (Exit × State (Slots types))) :
    Effect types → Prop
  | .next s' => ∃ m, r = some (.next, m) ∧ m.memory.Represents s'
  | .jump l => ∃ m, r = some (.jump l, m) ∧ m.memory.Represents s
  | .finish n => ∃ m, r = some (.ret, m) ∧ m.memory.Represents s ∧ ∀ v, i = .ret v →
      m.read (Width.ofType (v.type types)).bits (.reg .ax) = some (BitVec.ofInt _ n)

/-- A jump is taken exactly if the instruction takes it. -/
theorem achieves_jump {i : ThreeAddress.Instr} {m' : State (Slots types)}
    {r : Option (Exit × State (Slots types))} {l : String} {p : Prop} [Decidable p] {taken : Bool}
    (htaken : taken = decide p) (hrun : r = some (if taken then .jump l else .next, m'))
    (hm' : m'.memory.Represents s) : Achieves i s r (if p then .jump l else .next s) := by
  rw [htaken] at hrun
  by_cases hp : p
  · simp only [hp, decide_true, if_true] at hrun ⊢
    exact ⟨m', hrun, hm'⟩
  · simp only [hp, decide_false, if_false, Bool.false_eq_true] at hrun ⊢
    exact ⟨m', hrun, hm'⟩

/-- The code has the effect of the instruction on every store on which that one is defined. -/
def Simulates (t : SymbolTable) (i : ThreeAddress.Instr) (code : List Instr) : Prop :=
  ∀ (w : World) (s : Store t.varTypes), i.Defined s → ∃ e, i.effect w s = some e ∧
    ∀ m : State (Slots t.varTypes), m.memory.Represents s → Achieves i s (run m code) e

namespace Simulates

variable {t : SymbolTable} {code : List Instr}

/-- A value that is returned stands in `ax`, with the bits of its type. -/
theorem ret {v : Value} (hi : (ThreeAddress.Instr.ret v).WellTyped t)
    (hcode : instrCode t (.ret v) = .ok code) : Simulates t (.ret v) code := by
  intro w s _
  obtain ⟨τ, hv⟩ := hi
  rw [instrCode, valueWidth_eq hv] at hcode
  cases hcode
  refine ⟨_, rfl, fun m h => ?_⟩
  obtain ⟨m', hload, hm', hax⟩ := effect_load (State.read_ofType h hv.type_eq) .ax
  refine ⟨m', ?_, hm' ▸ h, ?_⟩
  · rw [run_cons hload]
    rfl
  · rintro v' e
    cases e
    rwa [hv.type_eq]

theorem copy {src dst : Value} (hi : (ThreeAddress.Instr.copy src dst).WellTyped t)
    (hcode : instrCode t (.copy src dst) = .ok code) : Simulates t (.copy src dst) code := by
  intro w s _
  obtain ⟨σ, τ, hs, ⟨x, rfl, hx⟩, he⟩ := hi
  obtain rfl := SymbolTable.varTypes_eq hx
  rw [instrCode, valueWidth_eq hs] at hcode
  cases hcode
  refine ⟨_, rfl, fun m h => ?_⟩
  have hmov := effect_mov (ofType_eq_of_size_eq he) (State.read_ofType h hs.type_eq)
  exact Leaves.cons hmov (.nil (State.represents_put h))

theorem signExtend {src dst : Value} (hi : (ThreeAddress.Instr.signExtend src dst).WellTyped t)
    (hcode : instrCode t (.signExtend src dst) = .ok code) :
    Simulates t (.signExtend src dst) code := by
  intro w s _
  obtain ⟨τ, hs, ⟨x, rfl, hx⟩, hsize⟩ := hi
  obtain rfl := SymbolTable.varTypes_eq hx
  cases hcode
  refine ⟨_, rfl, fun m h => ?_⟩
  exact extension_leaves h hs.type_eq rfl (ofType_eq_quadword hsize) rfl signExtend_ofInt

theorem zeroExtend {src dst : Value} (hi : (ThreeAddress.Instr.zeroExtend src dst).WellTyped t)
    (hcode : instrCode t (.zeroExtend src dst) = .ok code) :
    Simulates t (.zeroExtend src dst) code := by
  intro w s _
  obtain ⟨τ, hs, ⟨x, rfl, hx⟩, hsize⟩ := hi
  obtain rfl := SymbolTable.varTypes_eq hx
  cases hcode
  refine ⟨_, rfl, fun m h => ?_⟩
  exact extension_leaves h hs.type_eq rfl (ofType_eq_quadword hsize) rfl zeroExtend_ofInt

/-- Cutting off the upper half of a number is conversion to the narrower type. -/
theorem truncate {src dst : Value} (hi : (ThreeAddress.Instr.truncate src dst).WellTyped t)
    (hcode : instrCode t (.truncate src dst) = .ok code) :
    Simulates t (.truncate src dst) code := by
  intro w s _
  obtain ⟨σ, τ, hs, ⟨x, rfl, hx⟩, hsize, hsize'⟩ := hi
  obtain rfl := SymbolTable.varTypes_eq hx
  cases hcode
  refine ⟨_, rfl, fun m h => ?_⟩
  have hlow : Width.longword.bits ≤ (Width.ofType (src.type t.varTypes)).bits :=
    (Width.ofType _).bits_bounds.1
  have hwidth : Width.longword = .ofType (t.varTypes x) := by
    rw [Width.ofType, if_pos hsize']
  have hmov := effect_mov hwidth (State.read_ofValue h hlow)
  exact Leaves.cons hmov (.nil (State.represents_put h))

/-- The logical negation compares with zero and sets a byte. Other operators work in place on a copy
of their operand. -/
theorem unary {op : IntegerC.UnaryOp} {src dst : Value}
    (hi : (ThreeAddress.Instr.unary op src dst).WellTyped t)
    (hcode : instrCode t (.unary op src dst) = .ok code) :
    Simulates t (.unary op src dst) code := by
  intro w s _
  obtain ⟨τ, hs, ⟨x, rfl, hx⟩⟩ := hi
  have hτ := SymbolTable.varTypes_eq hx
  refine ⟨_, rfl, fun m h => ?_⟩
  have hread := State.read_ofType h hs.type_eq
  show Leaves m code (s.set x (op.eval (src.type t.varTypes) (src.eval s)))
  rw [hs.type_eq]
  cases op with
  | not =>
      rw [instrCode, valueWidth_eq hs, valueWidth_eq (v := .var x) hx] at hcode
      cases hcode
      have ha : τ.Holds (src.eval s) := hs.type_eq ▸ src.holds_eval s
      exact notCode_leaves h ha hread (congrArg Width.ofType hτ.symm)
  | negate =>
      obtain rfl : t.varTypes x = τ := hτ
      rw [instrCode, valueWidth_eq hs] at hcode
      cases hcode
      refine unaryCode_leaves h hread ?_
      rw [IntegerC.UnaryOp.eval, IntType.ofInt_wrap, BitVec.ofInt_neg]
      rfl
  | complement =>
      obtain rfl : t.varTypes x = τ := hτ
      rw [instrCode, valueWidth_eq hs] at hcode
      cases hcode
      refine unaryCode_leaves h hread ?_
      rw [IntegerC.UnaryOp.eval, IntType.ofInt_wrap, ofInt_complement]
      rfl

/-- Of the divisions only those without a result are left out, as in the definition of what the
instruction does. -/
theorem arith {op : ArithOp} {left right dst : Value}
    (hi : (ThreeAddress.Instr.binary (.arith op) left right dst).WellTyped t)
    (hdst : (ThreeAddress.Instr.binary (.arith op) left right dst).DstApart)
    (hcode : instrCode t (.binary (.arith op) left right dst) = .ok code) :
    Simulates t (.binary (.arith op) left right dst) code := by
  intro w s hdefined
  obtain ⟨τ, hl, hr, ⟨x, rfl, hx⟩⟩ := hi
  obtain rfl := SymbolTable.varTypes_eq hx
  rw [instrCode, valueType_eq hl] at hcode
  cases hcode
  refine ⟨_, rfl, fun m h => ?_⟩
  rw [ThreeAddress.Instr.Defined, hl.type_eq] at hdefined
  show Leaves m _ (s.set x (op.value w (left.type t.varTypes) (left.eval s) (right.eval s)))
  rw [hl.type_eq]
  exact arithCode_leaves w h hl.type_eq hr.type_eq hdst.symm hdefined

/-- The count is taken modulo the width by the source and by the hardware alike. -/
theorem shift {op : ShiftOp} {left right dst : Value}
    (hi : (ThreeAddress.Instr.binary (.shift op) left right dst).WellTyped t)
    (hdst : (ThreeAddress.Instr.binary (.shift op) left right dst).DstApart)
    (hcode : instrCode t (.binary (.shift op) left right dst) = .ok code) :
    Simulates t (.binary (.shift op) left right dst) code := by
  intro w s _
  obtain ⟨τ, σ, hl, hr, ⟨x, rfl, hx⟩⟩ := hi
  obtain rfl := SymbolTable.varTypes_eq hx
  rw [instrCode, valueType_eq hl] at hcode
  refine ⟨_, rfl, fun m h => ?_⟩
  show Leaves m code (s.set x (op.eval (left.type t.varTypes) (left.eval s) (right.eval s)))
  rw [hl.type_eq]
  exact shiftCode_leaves h hl.type_eq hr hdst.symm hcode

/-- The flags of the comparison are those of a difference in the type of the operands, with its sign
or without one. -/
theorem compare {op : CompareOp} {left right dst : Value}
    (hi : (ThreeAddress.Instr.binary (.compare op) left right dst).WellTyped t)
    (hcode : instrCode t (.binary (.compare op) left right dst) = .ok code) :
    Simulates t (.binary (.compare op) left right dst) code := by
  intro w s _
  obtain ⟨τ, hl, hr, ⟨x, rfl, hx⟩⟩ := hi
  rw [instrCode, valueType_eq hl, valueWidth_eq (v := .var x) hx] at hcode
  cases hcode
  refine ⟨_, rfl, fun m h => ?_⟩
  have ha : τ.Holds (left.eval s) := hl.type_eq ▸ left.holds_eval s
  have hb : τ.Holds (right.eval s) := hr.type_eq ▸ right.holds_eval s
  have hw := congrArg Width.ofType (SymbolTable.varTypes_eq hx).symm
  exact compareCode_leaves op h ha hb (State.read_ofType h hl.type_eq)
    (State.read_ofType h hr.type_eq) hw

theorem jump {target : String} (hcode : instrCode t (.jump target) = .ok code) :
    Simulates t (.jump target) code := by
  intro w s _
  cases hcode
  exact ⟨_, rfl, fun m h => ⟨m, rfl, h⟩⟩

theorem label {name : String} (hcode : instrCode t (.label name) = .ok code) :
    Simulates t (.label name) code := by
  intro w s _
  cases hcode
  exact ⟨_, rfl, fun m h => ⟨m, rfl, h⟩⟩

theorem jumpIfZero {c : Value} {target : String}
    (hi : (ThreeAddress.Instr.jumpIfZero c target).WellTyped t)
    (hcode : instrCode t (.jumpIfZero c target) = .ok code) :
    Simulates t (.jumpIfZero c target) code := by
  intro w s _
  obtain ⟨τ, hv⟩ := hi
  rw [instrCode, valueWidth_eq hv] at hcode
  cases hcode
  refine ⟨_, rfl, fun m h => ?_⟩
  obtain ⟨m', hrun, hm'⟩ := jumpCode_run .equal target h hv.type_eq
  exact achieves_jump rfl hrun hm'

theorem jumpIfNotZero {c : Value} {target : String}
    (hi : (ThreeAddress.Instr.jumpIfNotZero c target).WellTyped t)
    (hcode : instrCode t (.jumpIfNotZero c target) = .ok code) :
    Simulates t (.jumpIfNotZero c target) code := by
  intro w s _
  obtain ⟨τ, hv⟩ := hi
  rw [instrCode, valueWidth_eq hv] at hcode
  cases hcode
  refine ⟨_, rfl, fun m h => ?_⟩
  obtain ⟨m', hrun, hm'⟩ := jumpCode_run .notEqual target h hv.type_eq
  exact achieves_jump rfl hrun hm'

end Simulates

/-- The machine instructions for a well typed instruction other than a call have its effect on every
machine whose variables hold the numbers of a store on which the instruction is defined. -/
theorem instrCode_achieves {t : SymbolTable} {i : ThreeAddress.Instr} (hi : i.WellTyped t)
    (hcall : ∀ f args dst, i ≠ .call f args dst) (hdst : i.DstApart) :
    ∃ code, instrCode t i = .ok code ∧
      ∀ (w : World) (s : Store t.varTypes), i.Defined s → ∃ e, i.effect w s = some e ∧
        ∀ m : State (Slots t.varTypes), m.memory.Represents s → Achieves i s (run m code) e := by
  -- code is chosen for every well typed instruction; what it does is said one kind at a time
  obtain ⟨code, hcode, -⟩ := (instrCode_known hi).exists_ok
  refine ⟨code, hcode, ?_⟩
  cases i with
  | ret v => exact Simulates.ret hi hcode
  | copy src dst => exact Simulates.copy hi hcode
  | signExtend src dst => exact Simulates.signExtend hi hcode
  | zeroExtend src dst => exact Simulates.zeroExtend hi hcode
  | truncate src dst => exact Simulates.truncate hi hcode
  | unary op src dst => exact Simulates.unary hi hcode
  | binary op left right dst =>
      cases op with
      | arith op => exact Simulates.arith hi hdst hcode
      | shift op => exact Simulates.shift hi hdst hcode
      | compare op => exact Simulates.compare hi hcode
      | other name => exact hi.elim
  | jump target => exact Simulates.jump hcode
  | label name => exact Simulates.label hcode
  | jumpIfZero c target => exact Simulates.jumpIfZero hi hcode
  | jumpIfNotZero c target => exact Simulates.jumpIfNotZero hi hcode
  | call name args dst => exact (hcall name args dst rfl).elim

/-- The quotient of -7 by 2. -/
theorem instrCode_achieves_quotient :
    let t : SymbolTable := [("a", .automatic .int), ("q", .automatic .int)]
    let i : ThreeAddress.Instr :=
      .binary (.arith .divide) (.var "a") (.constant ⟨.int, 2⟩) (.var "q")
    let s : Store t.varTypes := (Store.zero _).set "a" (-7)
    let m : State (Slots t.varTypes) := ⟨fun _ => 0, none, ⟨fun x => BitVec.ofInt _ (s.get x)⟩⟩
    i.WellTyped t ∧ i.DstApart ∧ i.Defined s ∧ ∃ code m', instrCode t i = .ok code ∧
      run m code = some (.next, m') ∧ m'.memory.get "a" = BitVec.ofInt _ (-7) ∧
      m'.memory.get "q" = BitVec.ofInt _ (-3) := by
  intro t i s m
  have hi : i.WellTyped t := ⟨.int, rfl, rfl, "q", rfl, rfl⟩
  have hcall : ∀ f args dst, i ≠ .call f args dst := by
    intro f args dst
    simp [i]
  have hdst : i.DstApart := by
    rintro ⟨⟩
  have hdefined : i.Defined s := fun _ => by decide
  obtain ⟨code, hcode, h⟩ := instrCode_achieves hi hcall hdst
  obtain ⟨e, he, h⟩ := h ⟨fun _ _ => 0, fun _ _ => 0⟩ s hdefined
  cases he
  obtain ⟨m', hrun, hm'⟩ := h m fun _ => rfl
  refine ⟨hi, hdst, hdefined, code, m', hcode, hrun, ?_, ?_⟩
  · rw [hm']
    decide
  · rw [hm']
    decide

end IntegerC.Machine
