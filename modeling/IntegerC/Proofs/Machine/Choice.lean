import IntegerC.Machine.Code
import IntegerC.Proofs.ThreeAddress.StmtCoding

set_option autoImplicit false

/-! # What choosing instructions ensures

Machine instructions are chosen for all well typed three-address code, and the variables that they
name are in the symbol table.
-/

namespace IntegerC.Machine

open ThreeAddress (Value CodeTyped)

variable {t : SymbolTable}

/-! ## Choosing instructions -/

/-- An immediate, a register, a place on the stack, or a variable of the table. -/
def Operand.Known (t : SymbolTable) : Operand → Prop
  | .pseudo x => ∃ τ, t.typeOf? x = some (.integer τ)
  | .data _ => False
  | _ => True

def Instr.Known (t : SymbolTable) (i : Instr) : Prop := ∀ a ∈ i.operands, a.Known t

@[simp] theorem Operand.known_imm {n : Int} : (imm n).Known t := trivial

@[simp] theorem Operand.known_reg {r : Reg} : (reg r).Known t := trivial

@[simp] theorem Operand.known_stack {n : Int} : (stack n).Known t := trivial

theorem Operand.known_ofValue {v : Value} {τ : IntType} (h : v.HasType t τ) :
    (Operand.ofValue v).Known t := by
  cases v with
  | constant c => trivial
  | var x => exact ⟨τ, h⟩

theorem Operand.known_ofValue_receives {v : Value} {τ : IntType} (h : v.Receives t τ) :
    (Operand.ofValue v).Known t :=
  known_ofValue h.hasType

theorem valueType_eq {v : Value} {τ : IntType} (h : v.HasType t τ) : valueType t v = .ok τ := by
  cases v with
  | constant c => exact congrArg Except.ok h
  | var x =>
      obtain ⟨a, ha⟩ := SymbolTable.typeOf?_eq_some h
      rw [valueType, ha]

theorem valueWidth_eq {v : Value} {τ : IntType} (h : v.HasType t τ) :
    valueWidth t v = .ok (.ofType τ) := by
  rw [valueWidth, valueType_eq h]
  rfl

theorem known_arithCode {op : ArithOp} {w : Width} {signed : Bool} {left right dst : Operand}
    (hl : left.Known t) (hr : right.Known t) (hd : dst.Known t) :
    ∀ i ∈ arithCode op w signed left right dst, i.Known t := by
  cases op <;> cases signed <;>
  simp [arithCode, plainCode, divisionCode, Instr.Known, Instr.operands, hl, hr, hd]

/-- The code of a shift uses its operands and `cx` only. -/
theorem shiftCode_known {op : BinaryOp} {w : Width} {left right dst : Value} {τ σ : IntType}
    (hl : left.HasType t τ) (hr : right.HasType t σ) (hd : dst.Receives t τ) :
    Succeeds (shiftCode t op w left right dst) (fun out => ∀ i ∈ out, i.Known t) := by
  have hl' := Operand.known_ofValue hl
  have hd' := Operand.known_ofValue_receives hd
  cases right with
  | constant c =>
      refine .pure ?_
      simp [plainCode, Instr.Known, Instr.operands, hl', hd']
  | var x =>
      rw [shiftCode, valueWidth_eq hr]
      have hx : (Operand.pseudo x).Known t := ⟨σ, hr⟩
      refine .pure ?_
      simp [Instr.Known, Instr.operands, hl', hd', hx]

/-- Moves into registers for arguments only name the arguments. -/
theorem registerArguments_known (vs : List Value) :
    ∀ rs : List Reg, (∀ v ∈ vs, ∃ τ, v.HasType t τ) →
      Succeeds (registerArguments t vs rs) (fun out => ∀ i ∈ out, i.Known t) := by
  induction vs with
  | nil =>
      intro rs _
      exact .pure (by simp)
  | cons v vs ih =>
      intro rs h
      obtain ⟨⟨τ, hv⟩, hvs⟩ := List.forall_mem_cons.1 h
      cases rs with
      | nil => exact .pure (by simp)
      | cons r rs =>
          rw [registerArguments, valueWidth_eq hv]
          refine Ensures.bind (q := fun _ => True) (.pure trivial) fun w _ =>
            (ih rs hvs).bind fun out ho => .pure ?_
          refine List.forall_mem_cons.2 ⟨?_, ho⟩
          simp [Instr.Known, Instr.operands, Operand.known_ofValue hv]

/-- Each argument that is pushed is a variable of the table or an immediate. -/
theorem pushArguments_known (vs : List Value) (h : ∀ v ∈ vs, ∃ τ, v.HasType t τ) :
    Succeeds (pushArguments t vs) (fun out => ∀ i ∈ out, i.Known t) := by
  induction vs with
  | nil => exact .pure (by simp)
  | cons v vs ih =>
      obtain ⟨⟨τ, hv⟩, hvs⟩ := List.forall_mem_cons.1 h
      have hpush : Succeeds (pushArgument t v) (fun out => ∀ i ∈ out, i.Known t) := by
        have hk := Operand.known_ofValue hv
        cases v with
        | constant c =>
            exact .pure (by simp [Instr.Known, Instr.operands])
        | var x =>
            rw [pushArgument, valueWidth_eq hv]
            have hx : (Operand.pseudo x).Known t := hk
            cases Width.ofType τ with
            | quadword => exact .pure (by simp [Instr.Known, Instr.operands, hx])
            | longword => exact .pure (by simp [Instr.Known, Instr.operands, hx])
      rw [pushArguments]
      refine hpush.bind fun out ho => (ih hvs).bind fun outs hos => .pure ?_
      exact List.forall_mem_append.2 ⟨ho, hos⟩

theorem known_allocate (bytes : Nat) : ∀ i ∈ allocate bytes, i.Known t := by
  unfold allocate
  split <;> simp [Instr.Known, Instr.operands]

theorem known_deallocate (bytes : Nat) : ∀ i ∈ deallocate bytes, i.Known t := by
  unfold deallocate
  split <;> simp [Instr.Known, Instr.operands]

/-- The code of a call names its arguments and the variable of its result. -/
theorem callCode_known {name : String} {args : List Value} {dst : Value} {τ : IntType}
    (ha : ∀ v ∈ args, ∃ τ, v.HasType t τ) (hd : dst.Receives t τ) :
    Succeeds (callCode t name args dst) (fun out => ∀ i ∈ out, i.Known t) := by
  rw [callCode]
  refine (registerArguments_known args argumentRegs ha).bind fun moves hm => ?_
  have hstack : ∀ v ∈ (args.drop argumentRegs.length).reverse, ∃ τ, v.HasType t τ :=
    fun v hv => ha v (List.mem_of_mem_drop (List.mem_reverse.1 hv))
  refine (pushArguments_known _ hstack).bind fun pushes hp => ?_
  rw [valueWidth_eq hd.hasType]
  refine .pure ?_
  simp only [List.forall_mem_append, List.forall_mem_singleton]
  refine ⟨⟨⟨⟨⟨known_allocate _, hm⟩, hp⟩, ?_⟩, known_deallocate _⟩, ?_⟩
  · simp [Instr.Known, Instr.operands]
  · simp [Instr.Known, Instr.operands, Operand.known_ofValue_receives hd]

theorem forall_hasType_of_forall₂ {vs : List Value} {τs : List IntType}
    (h : List.Forall₂ (Value.HasType t) vs τs) : ∀ v ∈ vs, ∃ τ, v.HasType t τ := by
  induction h with
  | nil => simp
  | cons hv _ ih => exact List.forall_mem_cons.2 ⟨⟨_, hv⟩, ih⟩

/-- Instructions are chosen for every well typed instruction. -/
theorem instrCode_known {i : ThreeAddress.Instr} (h : i.WellTyped t) :
    Succeeds (instrCode t i) (fun out => ∀ j ∈ out, j.Known t) := by
  cases i with
  | ret v =>
      obtain ⟨τ, hv⟩ := h
      rw [instrCode, valueWidth_eq hv]
      exact .pure (by simp [Instr.Known, Instr.operands, Operand.known_ofValue hv])
  | copy src dst =>
      obtain ⟨σ, τ, hs, hd, -⟩ := h
      rw [instrCode, valueWidth_eq hs]
      refine .pure ?_
      simp [Instr.Known, Instr.operands, Operand.known_ofValue hs,
        Operand.known_ofValue_receives hd]
  | signExtend src dst | zeroExtend src dst =>
      obtain ⟨τ, hs, hd, -⟩ := h
      refine .pure ?_
      simp [Instr.Known, Instr.operands, Operand.known_ofValue hs,
        Operand.known_ofValue_receives hd]
  | truncate src dst =>
      obtain ⟨σ, τ, hs, hd, -⟩ := h
      refine .pure ?_
      simp [Instr.Known, Instr.operands, Operand.known_ofValue hs,
        Operand.known_ofValue_receives hd]
  | unary op src dst =>
      obtain ⟨τ, hs, hd⟩ := h
      have hs' := Operand.known_ofValue hs
      have hd' := Operand.known_ofValue_receives hd
      cases op with
      | not =>
          rw [instrCode, valueWidth_eq hs, valueWidth_eq hd.hasType]
          exact .pure (by simp [Instr.Known, Instr.operands, hs', hd'])
      | negate | complement =>
          rw [instrCode, valueWidth_eq hs]
          exact .pure (by simp [unaryCode, Instr.Known, Instr.operands, hs', hd'])
  | binary op left right dst =>
      cases op with
      | arith op =>
          obtain ⟨τ, hl, hr, hd⟩ := h
          rw [instrCode, valueType_eq hl]
          exact .pure (known_arithCode (Operand.known_ofValue hl) (Operand.known_ofValue hr)
            (Operand.known_ofValue_receives hd))
      | shift op =>
          obtain ⟨τ, σ, hl, hr, hd⟩ := h
          rw [instrCode, valueType_eq hl]
          exact shiftCode_known hl hr hd
      | compare op =>
          obtain ⟨τ, hl, hr, hd⟩ := h
          rw [instrCode, valueType_eq hl, valueWidth_eq hd.hasType]
          refine .pure ?_
          simp [Instr.Known, Instr.operands, Operand.known_ofValue hl, Operand.known_ofValue hr,
            Operand.known_ofValue_receives hd]
      | other name => exact h.elim
  | jump target | label name => exact .pure (by simp [Instr.Known, Instr.operands])
  | jumpIfZero c target | jumpIfNotZero c target =>
      obtain ⟨τ, hv⟩ := h
      rw [instrCode, valueWidth_eq hv]
      exact .pure (by simp [Instr.Known, Instr.operands, Operand.known_ofValue hv])
  | call name args dst =>
      obtain ⟨params, τ, -, hargs, hd⟩ := h
      exact callCode_known (forall_hasType_of_forall₂ hargs) hd

/-- Choosing instructions cannot fail on typed code, and every name in what it gives is one of the
table. -/
theorem instrsCode_known (code : List ThreeAddress.Instr) (h : CodeTyped t code) :
    Succeeds (instrsCode t code) (fun out => ∀ j ∈ out, j.Known t) := by
  induction code with
  | nil => exact .pure (by simp)
  | cons i code ih =>
      obtain ⟨hi, hcode⟩ := ThreeAddress.codeTyped_cons.1 h
      rw [instrsCode]
      refine (instrCode_known hi).bind fun out ho => (ih hcode).bind fun outs hos => .pure ?_
      exact List.forall_mem_append.2 ⟨ho, hos⟩

/-- The moves at the beginning of a function name its parameters. -/
theorem parameterMoves_known (names : List String) :
    ∀ i, (∀ x ∈ names, ∃ τ, t.typeOf? x = some (.integer τ)) →
      Succeeds (parameterMoves t i names) (fun out => ∀ j ∈ out, j.Known t) := by
  induction names with
  | nil =>
      intro i _
      exact .pure (by simp)
  | cons x names ih =>
      intro i h
      obtain ⟨⟨τ, hx⟩, hnames⟩ := List.forall_mem_cons.1 h
      have hv : (Value.var x).HasType t τ := hx
      rw [parameterMoves, valueWidth_eq hv]
      refine Ensures.bind (q := fun _ => True) (.pure trivial) fun w _ =>
        (ih (i + 1) hnames).bind fun out ho => .pure (List.forall_mem_cons.2 ⟨?_, ho⟩)
      have hplace : (parameterPlace i).Known t := by
        unfold parameterPlace
        split <;> simp
      simpa [Instr.Known, Instr.operands, hplace] using ⟨τ, hx⟩

def Program.Known (t : SymbolTable) (p : Program) : Prop :=
  ∀ f, .function f ∈ p.topLevels → ∀ i ∈ f.instrs, i.Known t

theorem Function.ofCode_known {f : ThreeAddress.Function} (h : f.Made t) :
    Succeeds (Function.ofCode t f) (fun g => ∀ i ∈ g.instrs, i.Known t) := by
  refine (parameterMoves_known f.params 0 h.params).bind fun moves hm => ?_
  refine (instrsCode_known f.body h.typed).bind fun body hb => .pure ?_
  exact List.forall_mem_append.2 ⟨hm, hb⟩

/-- All operands of a program are known, function by function. -/
theorem topLevelsCode_known (tops : List ThreeAddress.TopLevel)
    (h : ∀ f, .function f ∈ tops → f.Made t) :
    Succeeds (topLevelsCode t tops)
      (fun out => ∀ f, .function f ∈ out → ∀ i ∈ f.instrs, i.Known t) := by
  induction tops with
  | nil => exact .pure (by simp)
  | cons top tops ih =>
      have htops := ih fun f hf => h f (List.mem_cons_of_mem _ hf)
      cases top with
      | function f =>
          rw [topLevelsCode]
          refine (Function.ofCode_known (h f List.mem_cons_self)).bind fun g hg =>
            htops.bind fun out ho => .pure fun g' hg' => ?_
          rcases List.mem_cons.1 hg' with e | hg'
          · cases e
            exact hg
          · exact ho g' hg'
      | static v =>
          rw [topLevelsCode]
          refine htops.bind fun out ho => .pure fun f hf => ?_
          rcases List.mem_cons.1 hf with e | hf
          · cases e
          · exact ho f hf

theorem Program.ofCode_known {p : ThreeAddress.Program} (h : p.Made t) :
    Succeeds (Program.ofCode t p) (Program.Known t) :=
  (topLevelsCode_known p.topLevels h.functions).bind fun _ ho => .pure ho

end IntegerC.Machine
