import IntegerC.Proofs.Machine.MendedRuns
import IntegerC.Proofs.Machine.Passes

set_option autoImplicit false

/-! # What the passes read and write

Chosen code reads whatever operands it likes, other than the stack pointer, and writes registers and
the destinations of three-address code. Placing variables keeps the kinds of operands, and mending
adds no more than the two registers it has for itself.
-/

namespace IntegerC.Machine

open ThreeAddress (Value)

/-- An instruction that writes operands with `q` and otherwise reads operands with `p`. If it shifts,
it does so by a count. -/
def Instr.Uses (p q : Operand → Prop) : Instr → Prop
  | .mov _ src dst | .movsx src dst | .movZeroExtend src dst => p src ∧ q dst
  | .binary op _ src dst => p src ∧ q dst ∧ (op.isShift = true → src.Count)
  | .cmp _ src dst => p src ∧ p dst
  | .unary _ _ a | .setCC _ a => q a
  | .idiv _ a | .div _ a | .push a => p a
  | _ => True

def destination? : ThreeAddress.Instr → Option Value
  | .copy _ dst | .signExtend _ dst | .zeroExtend _ dst | .truncate _ dst | .unary _ _ dst
  | .binary _ _ _ dst | .call _ _ dst => some dst
  | _ => none

/-- Everything but the stack pointer may be read, and every register but that one may be written. -/
structure Admits (p q : Operand → Prop) : Prop where
  reads : ∀ a, a ≠ .reg .sp → p a
  writes : ∀ r, r ≠ .sp → q (.reg r)

variable {t : SymbolTable} {p q p' q' : Operand → Prop}

/-! ## Choosing instructions -/

section

variable (h : Admits p q)

include h

theorem Admits.value (v : Value) : p (.ofValue v) := by
  cases v <;> exact h.reads _ Operand.noConfusion

/-- Arguments are moved into registers other than the stack pointer. -/
theorem registerArguments_uses (vs : List Value) :
    ∀ rs, .sp ∉ rs → Answers (registerArguments t vs rs) (fun out => ∀ i ∈ out, i.Uses p q) := by
  induction vs with
  | nil => exact fun rs _ => .pure (by simp)
  | cons v vs ih =>
      intro rs hrs
      cases rs with
      | nil => exact .pure (by simp)
      | cons r rs =>
          obtain ⟨hr, hrs⟩ := not_or.1 (mt List.mem_cons.2 hrs)
          exact (Ensures.self (valueWidth t v)).bind fun _ _ => (ih rs hrs).bind fun _ ho =>
            .pure (List.forall_mem_cons.2 ⟨⟨h.value v, h.writes r (Ne.symm hr)⟩, ho⟩)

/-- Pushes read the arguments, by way of `ax` where they are longwords. -/
theorem pushArguments_uses (vs : List Value) :
    Answers (pushArguments t vs) (fun out => ∀ i ∈ out, i.Uses p q) := by
  have hax : p (.reg .ax) := h.reads _ (by decide)
  have hpush : ∀ v, Answers (pushArgument t v) (fun out => ∀ i ∈ out, i.Uses p q) := by
    intro v
    have hv := h.value v
    cases v with
    | constant c => exact .pure (List.forall_mem_singleton.2 hv)
    | var x =>
        refine (Ensures.self (valueWidth t (.var x))).bind fun w _ => ?_
        cases w with
        | quadword => exact .pure (List.forall_mem_singleton.2 hv)
        | longword =>
            exact .pure (List.forall_mem_cons.2 ⟨⟨hv, h.writes .ax (by decide)⟩,
              List.forall_mem_singleton.2 hax⟩)
  induction vs with
  | nil => exact .pure (by simp)
  | cons v vs ih =>
      exact (hpush v).bind fun out ho => ih.bind fun outs hos =>
        .pure (List.forall_mem_append.2 ⟨ho, hos⟩)

/-- The result of a call is written where it is asked for, and all else is read. -/
theorem callCode_uses {name : String} {args : List Value} {dst : Value} (hdst : q (.ofValue dst)) :
    Answers (callCode t name args dst) (fun out => ∀ i ∈ out, i.Uses p q) := by
  rw [callCode]
  refine (registerArguments_uses h args argumentRegs (by decide)).bind fun moves hm => ?_
  refine (pushArguments_uses h _).bind fun pushes hp => ?_
  refine (Ensures.self (valueWidth t dst)).bind fun w _ => .pure ?_
  have hallocate : ∀ n, ∀ i ∈ allocate n, i.Uses p q := by
    intro n
    unfold allocate
    split <;> simp [Instr.Uses]
  have hdeallocate : ∀ n, ∀ i ∈ deallocate n, i.Uses p q := by
    intro n
    unfold deallocate
    split <;> simp [Instr.Uses]
  simp only [List.forall_mem_append, List.forall_mem_singleton]
  exact ⟨⟨⟨⟨⟨hallocate _, hm⟩, hp⟩, trivial⟩, hdeallocate _⟩, h.reads _ (by decide), hdst⟩

/-- The later of two values put under one name is the one that stays. -/
theorem uses_arithCode {op : ArithOp} {w : Width} {signed : Bool} {left right dst : Operand}
    (hl : p left) (hr : p right) (hd : q dst) :
    ∀ i ∈ arithCode op w signed left right dst, i.Uses p q := by
  have hzero : p (.imm 0) := h.reads _ Operand.noConfusion
  have hax : p (.reg .ax) ∧ q (.reg .ax) := ⟨h.reads _ (by decide), h.writes _ (by decide)⟩
  have hdx : p (.reg .dx) ∧ q (.reg .dx) := ⟨h.reads _ (by decide), h.writes _ (by decide)⟩
  cases op <;> cases signed <;>
  simp [arithCode, plainCode, divisionCode, Instr.Uses, BinaryOp.isShift, *]

/-- The count of a shift goes through `cx`, unless it is an immediate. -/
theorem shiftCode_uses {op : BinaryOp} {w : Width} {left right dst : Value}
    (hd : q (.ofValue dst)) :
    Answers (shiftCode t op w left right dst) (fun out => ∀ i ∈ out, i.Uses p q) := by
  have hl := h.value left
  cases right with
  | constant c =>
      have himm : p (.imm (c.value % 256)) := h.reads _ Operand.noConfusion
      have hcount : (Operand.imm (c.value % 256)).Count := .inr ⟨_, by omega, by omega, rfl⟩
      exact .pure (by simp [plainCode, Instr.Uses, *])
  | var x =>
      have hx : p (.pseudo x) := h.reads _ Operand.noConfusion
      have hcx : p (.reg .cx) ∧ q (.reg .cx) := ⟨h.reads _ (by decide), h.writes _ (by decide)⟩
      have hcount : (Operand.reg .cx).Count := .inl rfl
      exact (Ensures.self (valueWidth t (.var x))).bind fun _ _ =>
        .pure (by simp [Instr.Uses, *])

/-- What is chosen for an instruction writes registers and the destination. -/
theorem instrCode_uses {i : ThreeAddress.Instr} (hd : ∀ v ∈ destination? i, q (.ofValue v)) :
    Answers (instrCode t i) (fun out => ∀ j ∈ out, j.Uses p q) := by
  have hwidth : ∀ (v : Value) {g : Width → Except Fault (List Instr)} {q : List Instr → Prop},
      (∀ w, Answers (g w) q) → Answers (valueWidth t v >>= g) q :=
    fun v _ _ h => (Ensures.self (valueWidth t v)).bind fun w _ => h w
  have hv := h.value
  have hzero : p (.imm 0) := h.reads _ Operand.noConfusion
  have hax : q (.reg .ax) := h.writes _ (by decide)
  cases i with
  | ret v => exact hwidth v fun _ => .pure (by simp [Instr.Uses, *])
  | jump _ | label _ => exact .pure (by simp [Instr.Uses])
  | jumpIfZero c _ | jumpIfNotZero c _ => exact hwidth c fun _ => .pure (by simp [Instr.Uses, *])
  | copy src dst =>
      have hdst := hd dst rfl
      exact hwidth src fun _ => .pure (by simp [Instr.Uses, *])
  | signExtend _ dst | zeroExtend _ dst | truncate _ dst =>
      have hdst := hd dst rfl
      exact .pure (by simp [Instr.Uses, *])
  | unary op src dst =>
      have hdst := hd dst rfl
      cases op with
      | not => exact hwidth src fun _ => hwidth dst fun _ => .pure (by simp [Instr.Uses, *])
      | negate | complement =>
          exact hwidth src fun _ => .pure (by simp [unaryCode, Instr.Uses, *])
  | binary op left right dst =>
      have hdst := hd dst rfl
      refine (Ensures.self (valueType t left)).bind fun τ _ => ?_
      cases op with
      | arith op => exact .pure (uses_arithCode h (hv left) (hv right) hdst)
      | shift op => exact shiftCode_uses h hdst
      | compare op => exact hwidth dst fun _ => .pure (by simp [Instr.Uses, *])
      | other name => exact .error trivial
  | call f args dst => exact callCode_uses h (hd dst rfl)

theorem instrsCode_uses (code : List ThreeAddress.Instr)
    (hd : ∀ i ∈ code, ∀ v ∈ destination? i, q (.ofValue v)) :
    Answers (instrsCode t code) (fun out => ∀ j ∈ out, j.Uses p q) := by
  induction code with
  | nil => exact .pure (by simp)
  | cons i code ih =>
      obtain ⟨hi, hcode⟩ := List.forall_mem_cons.1 hd
      rw [instrsCode]
      exact (instrCode_uses h hi).bind fun out ho => (ih hcode).bind fun outs hos =>
        .pure (List.forall_mem_append.2 ⟨ho, hos⟩)

/-- Each parameter is written once. -/
theorem parameterMoves_uses (names : List String) (hd : ∀ x ∈ names, q (.pseudo x)) :
    ∀ i, Answers (parameterMoves t i names) (fun out => ∀ j ∈ out, j.Uses p q) := by
  induction names with
  | nil => exact fun i => .pure (by simp)
  | cons x names ih =>
      intro i
      obtain ⟨hx, hnames⟩ := List.forall_mem_cons.1 hd
      have hplace : p (parameterPlace i) := by
        unfold parameterPlace
        split
        · rename_i r hr
          have hmem := List.mem_of_getElem? hr
          refine h.reads _ fun e => ?_
          cases e
          exact absurd hmem (by decide)
        · exact h.reads _ Operand.noConfusion
      exact (Ensures.self (valueWidth t (.var x))).bind fun _ _ => (ih hnames (i + 1)).bind
        fun _ ho => .pure (List.forall_mem_cons.2 ⟨⟨hplace, hx⟩, ho⟩)

theorem Function.ofCode_uses {f : ThreeAddress.Function} (hparams : ∀ x, q (.pseudo x))
    (hd : ∀ i ∈ f.body, ∀ v ∈ destination? i, q (.ofValue v)) :
    Answers (Function.ofCode t f) (fun g => ∀ i ∈ g.instrs, i.Uses p q) := by
  refine (parameterMoves_uses h f.params (fun x _ => hparams x) 0).bind fun moves hm => ?_
  exact (instrsCode_uses h f.body hd).bind fun body hb =>
    .pure (List.forall_mem_append.2 ⟨hm, hb⟩)

end

/-! ## Placing variables -/

/-- Mapping operands carries over the properties of those that an instruction reads and writes. -/
theorem Instr.Uses.mapOperands {f : Operand → Operand} {i : Instr} (h : i.Uses p q)
    (hp : ∀ a, p a → p' (f a)) (hq : ∀ a, q a → q' (f a)) (hcount : ∀ a, a.Count → (f a).Count) :
    (i.mapOperands f).Uses p' q' := by
  cases i with
  | mov _ src dst | movsx src dst | movZeroExtend src dst => exact ⟨hp _ h.1, hq _ h.2⟩
  | binary op _ src dst => exact ⟨hp _ h.1, hq _ h.2.1, fun hop => hcount _ (h.2.2 hop)⟩
  | cmp _ src dst => exact ⟨hp _ h.1, hp _ h.2⟩
  | unary _ _ a | setCC _ a => exact hq _ h
  | idiv _ a | div _ a | push a => exact hp _ h
  | _ => trivial

theorem Operand.Count.place {a : Operand} (h : a.Count) (l : Layout) : (l.place a).Count := by
  rcases h with rfl | ⟨n, hlow, hhigh, rfl⟩
  · exact .inl rfl
  · exact .inr ⟨n, hlow, hhigh, rfl⟩

/-- Placing code carries over the properties of the operands that it reads and writes. -/
theorem Layout.uses_apply {l : Layout} {code : List Instr} (h : ∀ i ∈ code, i.Uses p q)
    (hp : ∀ a, p a → p' (l.place a)) (hq : ∀ a, q a → q' (l.place a)) :
    ∀ i ∈ l.apply code, i.Uses p' q' := by
  unfold apply
  refine List.forall_mem_append.2 ⟨?_, fun i hi => ?_⟩
  · split <;> simp [Instr.Uses]
  · obtain ⟨j, hj, rfl⟩ := List.mem_map.1 hi
    exact (h j hj).mapOperands hp hq fun a ha => ha.place l

/-! ## Mending -/

/-- The rules keep what is read and written, up to the registers of mending and to immediates that are
cut to a longword. -/
theorem Rule.uses_of_mend? (hread : ∀ a, q a → p a) (hp : ∀ a, p a → p a.asLongword)
    (hq : ∀ a, q a → q a.asLongword) (hsrc : q srcScratch) (hdst : q dstScratch)
    {r : Rule} {i : Instr} {out : List Instr} (h : r.mend? i = some out) (hi : i.Uses p q) :
    ∀ j ∈ out, j.Uses p q := by
  have hcount : ∀ a : Operand, a.Count → a.asLongword = a ∧ a.isLarge = false ∧ a.isMemory = false :=
    fun a ha => ⟨Operand.asLongword_of_isLarge_eq_false ha.isLarge, ha.isLarge, ha.isMemory⟩
  unfold Rule.mend? at h
  split at h
  all_goals try split at h
  all_goals try contradiction
  all_goals
    obtain rfl := Option.some.inj h
    simp only [List.forall_mem_cons]
    grind [Instr.Uses]

end IntegerC.Machine
