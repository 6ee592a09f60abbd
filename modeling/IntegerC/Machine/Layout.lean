import IntegerC.Fault
import IntegerC.Machine

set_option autoImplicit false

/-! # Places for variables

A static variable has its place in the data section. Every other variable of a function gets a slot
in the frame of the function: below the base, aligned to its own width, and in the order in which
the instructions first name it. The size of a frame is a multiple of 16 bytes.
-/

namespace IntegerC.Machine

/-- The least multiple of `a` that is not below `n`. -/
def alignUp (n a : Nat) : Nat := (n + a - 1) / a * a

/-! ## Layouts -/

/-- The slots of a frame: how far below the base the slot of each variable begins, and how many bytes
the slots take together. -/
structure Layout where
  slots : Table Nat
  used : Nat
deriving Repr, DecidableEq

namespace Layout

def empty : Layout := ⟨[], 0⟩

/-- The frame with one more slot of width `w`. -/
def push (l : Layout) (name : String) (w : Width) : Layout :=
  let depth := alignUp (l.used + w.size) w.size
  ⟨l.slots.put name depth, depth⟩

/-- The frame with a slot for an operand, if the operand needs one that is not there yet. -/
def reserve (s : Symbols) (l : Layout) : Operand → Except Fault Layout
  | .pseudo name =>
      match s.find? name with
      | some (.object w isStatic) =>
          if isStatic || (l.slots.find? name).isSome then .ok l else .ok (l.push name w)
      | _ => .error (Cause.unplaceableName name).nowhere
  | _ => .ok l

/-- The frame with slots for all operands, from first to last. -/
def reserveAll (s : Symbols) (l : Layout) : List Operand → Except Fault Layout
  | [] => .ok l
  | a :: as => do
      let l' ← l.reserve s a
      l'.reserveAll s as

/-- The place of an operand: a variable with a slot is there, any other one in the data section. -/
def place (l : Layout) : Operand → Operand
  | .pseudo name =>
      match l.slots.find? name with
      | some depth => .stack (-(depth : Int))
      | none => .data name
  | a => a

def size (l : Layout) : Nat := alignUp l.used 16

end Layout

/-- The frame that the instructions of a function need. -/
def Layout.ofInstrs (s : Symbols) (instrs : List Instr) : Except Fault Layout :=
  Layout.empty.reserveAll s (instrs.flatMap Instr.operands)

/-- The instructions with all variables in their places, after the allocation of the frame. -/
def Layout.apply (l : Layout) (instrs : List Instr) : List Instr :=
  (if l.size = 0 then [] else [.allocateStack l.size]) ++ instrs.map (Instr.mapOperands l.place)

/-- The instructions of a function with a place for every variable. -/
def placeVariables (s : Symbols) (instrs : List Instr) : Except Fault (List Instr) := do
  return (← Layout.ofInstrs s instrs).apply instrs

def Program.placed (s : Symbols) (p : Program) : Except Fault Program :=
  p.mapFunctions (placeVariables s)

end IntegerC.Machine
