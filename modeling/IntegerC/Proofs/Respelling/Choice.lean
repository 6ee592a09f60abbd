import IntegerC.Machine.Code
import IntegerC.Proofs.Agreement
import IntegerC.Proofs.Respelling.Renaming

set_option autoImplicit false

/-! # Machine code under other names

The machine code of renamed three-address code is the renamed machine code, as long as the names of
the symbol table are changed in the same way. A renaming is a permutation of all names, so a name is
in the one table exactly if its new name is in the other.
-/

namespace IntegerC.Machine

open ThreeAddress (Value)

/-! ## Renaming -/

section

variable (f : String → String)

def Operand.rename : Operand → Operand
  | .pseudo x => .pseudo (f x)
  | a => a

abbrev Instr.rename (i : Instr) : Instr := i.mapOperands (Operand.rename f)

def Function.rename (g : Function) : Function := { g with instrs := g.instrs.map (Instr.rename f) }

def TopLevel.rename : TopLevel → TopLevel
  | .function g => .function (g.rename f)
  | .static v => .static v

def Program.rename (p : Program) : Program := ⟨p.topLevels.map (TopLevel.rename f)⟩

@[simp] theorem Operand.ofValue_rename (v : Value) :
    ofValue (v.rename f) = (ofValue v).rename f := by
  cases v <;> rfl

end

/-! ## Values -/

variable {π : Equiv.Perm String} (t : SymbolTable)

/-- The type of a variable is found under its new name in the renamed table. -/
theorem valueType_rename (v : Value) :
    Agree (valueType t v) (valueType (t.rename π) (v.rename π)) (fun i i' => i' = i) := by
  cases v with
  | constant c => exact .pure rfl
  | var x =>
      rw [Value.rename, valueType, valueType, Table.find?_rename π.injective]
      cases t.find? x with
      | none => exact .error _ _
      | some s =>
          obtain ⟨type, attributes⟩ := s
          cases type with
          | integer i => exact .pure rfl
          | function params result => exact .error _ _

theorem valueWidth_rename (v : Value) :
    Agree (valueWidth t v) (valueWidth (t.rename π) (v.rename π)) (fun w w' => w' = w) :=
  .map ((valueType_rename t v).imp fun _ _ h => congrArg Width.ofType h)

/-! ## Instructions -/

/-- Both lists of instructions are missing, or they are the same up to names. -/
abbrev SameCode (π : Equiv.Perm String) (r r' : Except Fault (List Instr)) : Prop :=
  Agree r r' (fun is is' => is' = is.map (Instr.rename π))

theorem arithCode_rename (f : String → String) (op : ArithOp) (w : Width) (signed : Bool)
    (left right dst : Operand) :
    arithCode op w signed (left.rename f) (right.rename f) (dst.rename f) =
      (arithCode op w signed left right dst).map (Instr.rename f) := by
  cases op <;> cases signed <;> rfl

/-- A count that is no constant goes through a register, and a constant one does not. Renaming keeps
constants. -/
theorem shiftCode_rename (op : BinaryOp) (w : Width) (left right dst : Value) :
    SameCode π (shiftCode t op w left right dst)
      (shiftCode (t.rename π) op w (left.rename π) (right.rename π) (dst.rename π)) := by
  cases right with
  | constant c =>
      refine .pure ?_
      simp [plainCode, Instr.mapOperands, Operand.rename]
  | var x =>
      refine (valueWidth_rename t (.var x)).bind ?_
      rintro _ count rfl
      refine .pure ?_
      simp [Instr.mapOperands, Operand.rename]

/-- Arguments go to the same registers. Only the names of what is moved differ. -/
theorem registerArguments_rename (vs : List Value) :
    ∀ rs : List Reg, SameCode π (registerArguments t vs rs)
      (registerArguments (t.rename π) (vs.map (Value.rename π)) rs) := by
  induction vs with
  | nil =>
      intro rs
      cases rs <;> exact .pure rfl
  | cons v vs ih =>
      intro rs
      cases rs with
      | nil => exact .pure rfl
      | cons r rs =>
          refine (valueWidth_rename t v).bind ?_
          rintro _ w rfl
          refine (ih rs).bind ?_
          rintro is _ rfl
          refine .pure ?_
          simp [Instr.mapOperands, Operand.rename]

/-- Pushing a value commutes with renaming the table. -/
theorem pushArgument_rename (v : Value) :
    SameCode π (pushArgument t v) (pushArgument (t.rename π) (v.rename π)) := by
  cases v with
  | constant c => exact .pure rfl
  | var x =>
      refine (valueWidth_rename t (.var x)).bind ?_
      rintro _ w rfl
      cases w <;> exact .pure rfl

theorem pushArguments_rename (vs : List Value) :
    SameCode π (pushArguments t vs) (pushArguments (t.rename π) (vs.map (Value.rename π))) := by
  induction vs with
  | nil => exact .pure rfl
  | cons v vs ih =>
      refine (pushArgument_rename t v).bind ?_
      rintro i _ rfl
      refine ih.bind ?_
      rintro is _ rfl
      exact .pure List.map_append.symm

theorem map_allocate (f : String → String) (bytes : Nat) :
    (allocate bytes).map (Instr.rename f) = allocate bytes := by
  unfold allocate
  split <;> rfl

theorem map_deallocate (f : String → String) (bytes : Nat) :
    (deallocate bytes).map (Instr.rename f) = deallocate bytes := by
  unfold deallocate
  split <;> rfl

theorem callCode_rename (name : String) (args : List Value) (dst : Value) :
    SameCode π (callCode t name args dst)
      (callCode (t.rename π) name (args.map (Value.rename π)) (dst.rename π)) := by
  rw [callCode, callCode, ← List.map_drop, ← List.map_reverse, List.length_map]
  refine (registerArguments_rename t args _).bind ?_
  rintro moves _ rfl
  refine (pushArguments_rename t _).bind ?_
  rintro pushes _ rfl
  refine (valueWidth_rename t dst).bind ?_
  rintro _ w rfl
  refine .pure ?_
  simp [map_allocate, map_deallocate, Instr.mapOperands, Operand.rename]

/-- An instruction is chosen by the types of its operands, which the renamed table knows under the
new names. -/
theorem instrCode_rename (i : ThreeAddress.Instr) :
    SameCode π (instrCode t i) (instrCode (t.rename π) (i.rename π)) := by
  cases i with
  | ret v =>
      refine (valueWidth_rename t v).bind ?_
      rintro _ w rfl
      exact .pure (by simp [Instr.mapOperands, Operand.rename])
  | copy src dst =>
      refine (valueWidth_rename t src).bind ?_
      rintro _ w rfl
      exact .pure (by simp [Instr.mapOperands])
  | signExtend src dst => exact .pure (by simp [Instr.mapOperands])
  | zeroExtend src dst => exact .pure (by simp [Instr.mapOperands])
  | truncate src dst => exact .pure (by simp [Instr.mapOperands])
  | unary op src dst =>
      cases op with
      | not =>
          refine (valueWidth_rename t src).bind ?_
          rintro _ w rfl
          refine (valueWidth_rename t dst).bind ?_
          rintro _ w' rfl
          exact .pure (by simp [Instr.mapOperands, Operand.rename])
      | negate =>
          refine (valueWidth_rename t src).bind ?_
          rintro _ w rfl
          exact .pure (by simp [unaryCode, Instr.mapOperands])
      | complement =>
          refine (valueWidth_rename t src).bind ?_
          rintro _ w rfl
          exact .pure (by simp [unaryCode, Instr.mapOperands])
  | binary op left right dst =>
      refine (valueType_rename t left).bind ?_
      rintro _ i rfl
      cases op with
      | compare op =>
          refine (valueWidth_rename t dst).bind ?_
          rintro _ w rfl
          exact .pure (by simp [Instr.mapOperands, Operand.rename])
      | arith op => exact .pure (by simp [arithCode_rename])
      | shift op => exact shiftCode_rename t _ _ left right dst
      | other name => exact .error _ _
  | jump target => exact .pure rfl
  | jumpIfZero v target =>
      refine (valueWidth_rename t v).bind ?_
      rintro _ w rfl
      exact .pure (by simp [Instr.mapOperands, Operand.rename])
  | jumpIfNotZero v target =>
      refine (valueWidth_rename t v).bind ?_
      rintro _ w rfl
      exact .pure (by simp [Instr.mapOperands, Operand.rename])
  | label name => exact .pure rfl
  | call name args dst => exact callCode_rename t name args dst

/-- Choosing instructions commutes with renaming the table and the code. -/
theorem instrsCode_rename (is : List ThreeAddress.Instr) :
    SameCode π (instrsCode t is) (instrsCode (t.rename π) (is.map (.rename π))) := by
  induction is with
  | nil => exact .pure rfl
  | cons i is ih =>
      refine (instrCode_rename t i).bind ?_
      rintro code _ rfl
      refine ih.bind ?_
      rintro rest _ rfl
      exact .pure List.map_append.symm

/-! ## Programs -/

theorem parameterPlace_rename (f : String → String) (i : Nat) :
    (parameterPlace i).rename f = parameterPlace i := by
  unfold parameterPlace
  split <;> rfl

/-- Parameters are taken from the same registers and stack slots, in the same order. -/
theorem parameterMoves_rename (names : List String) :
    ∀ i : Nat, SameCode π (parameterMoves t i names)
      (parameterMoves (t.rename π) i (names.map π)) := by
  induction names with
  | nil => exact fun i => .pure rfl
  | cons x names ih =>
      intro i
      refine (valueWidth_rename t (.var x)).bind ?_
      rintro _ w rfl
      refine (ih (i + 1)).bind ?_
      rintro rest _ rfl
      refine .pure ?_
      rw [List.map_cons, Instr.rename, Instr.mapOperands, parameterPlace_rename]
      rfl

theorem Function.ofCode_rename (g : ThreeAddress.Function) :
    Agree (ofCode t g) (ofCode (t.rename π) (g.rename π)) (fun c c' => c' = c.rename π) := by
  refine (parameterMoves_rename t g.params 0).bind ?_
  rintro moves _ rfl
  refine (instrsCode_rename t g.body).bind ?_
  rintro body _ rfl
  refine .pure ?_
  rw [← List.map_append]
  rfl

/-- Functions and static variables keep their names, and the instructions of a body are renamed. -/
theorem topLevelsCode_rename (tops : List ThreeAddress.TopLevel) :
    Agree (topLevelsCode t tops) (topLevelsCode (t.rename π) (tops.map (.rename π)))
      (fun c c' => c' = c.map (TopLevel.rename π)) := by
  induction tops with
  | nil => exact .pure rfl
  | cons top tops ih =>
      cases top with
      | function g =>
          refine (Function.ofCode_rename t g).bind ?_
          rintro c _ rfl
          refine ih.bind ?_
          rintro cs _ rfl
          exact .pure rfl
      | static v =>
          refine ih.bind ?_
          rintro cs _ rfl
          exact .pure rfl

/-- The machine code of a renamed program is the renamed machine code. -/
theorem Program.ofCode_rename (p : ThreeAddress.Program) :
    Agree (ofCode t p) (ofCode (t.rename π) (p.rename π)) (fun c c' => c' = c.rename π) := by
  refine (topLevelsCode_rename t p.topLevels).bind ?_
  rintro cs _ rfl
  exact .pure rfl

end IntegerC.Machine
