import IntegerC.Proofs.Machine.Steps
import IntegerC.Proofs.ThreeAddress.Steps

set_option autoImplicit false

/-! # Variables of a machine

Before variables have places, a machine has each of them with as many bits as its type. `Represents`
says that they hold the numbers of a store as bits; values are then read as they are in
three-address code, and a variable that is written holds the new number and leaves the others alone.
-/

namespace IntegerC.Machine

open ThreeAddress (Value)

/-! ## Slots -/

/-- Variables without places, each with the bits of its type. -/
structure Slots (types : VarTypes) where
  get : (x : String) → BitVec (Width.ofType (types x)).bits

variable {types : VarTypes}

/-- A variable may be read and written as far as it has bits. -/
instance : Memory (Slots types) where
  load p a n :=
    match a with
    | .pseudo x =>
        if n ≤ (Width.ofType (types x)).bits then some ((p.get x).setWidth n) else none
    | _ => none
  store p a n v :=
    match a with
    | .pseudo x =>
        if n ≤ (Width.ofType (types x)).bits then
          some ⟨fun y => if y = x then patch (p.get y) v else p.get y⟩
        else none
    | _ => none

def Slots.Represents (p : Slots types) (s : Store types) : Prop :=
  ∀ x, p.get x = BitVec.ofInt _ (s.get x)

namespace State

variable {m : State (Slots types)} {s : Store types} {x : String} {n : Int}

/-- The state in which the variable `x` holds the bits of `n`. -/
def put (m : State (Slots types)) (x : String) (n : Int) : State (Slots types) where
  regs := m.regs
  flags := m.flags
  memory := ⟨fun y => if y = x then BitVec.ofInt _ n else m.memory.get y⟩

/-- The value put last is the only one that counts. -/
@[simp] theorem put_put {k : Int} : (m.put x k).put x n = m.put x n := by
  unfold put
  congr 2
  funext y
  split
  · rfl
  · rename_i e
    exact if_neg e

/-- Putting a number into a slot follows the assignment to its variable. -/
theorem represents_put (h : m.memory.Represents s) : (m.put x n).memory.Represents (s.set x n) := by
  intro y
  show (if y = x then BitVec.ofInt _ n else m.memory.get y) = _
  split
  · rename_i e
    rw [e, Store.get_set_self, IntType.ofInt_wrap]
  · rename_i e
    rw [Store.get_set_of_ne e]
    exact h y

/-! ## Reading and writing -/

/-- The low bits of a value are those of its number. -/
theorem read_ofValue (h : m.memory.Represents s) {v : Value} {k : Nat}
    (hk : k ≤ (Width.ofType (v.type types)).bits) :
    m.read k (.ofValue v) = some (BitVec.ofInt k (v.eval s)) := by
  cases v with
  | constant c =>
      have hc : k ≤ (Width.ofType c.type).bits := hk
      show some (BitVec.ofInt k c.value) = some (BitVec.ofInt k (c.type.wrap c.value))
      rw [← setWidth_ofInt hc, ← setWidth_ofInt hc, IntType.ofInt_wrap]
  | var x =>
      have hx : k ≤ (Width.ofType (types x)).bits := hk
      show (if k ≤ _ then some ((m.memory.get x).setWidth k) else none) = _
      rw [if_pos hx, h x, setWidth_ofInt hx]
      rfl

/-- A value of the width of its type. -/
theorem read_ofType (h : m.memory.Represents s) {v : Value} {τ : IntType} (hv : v.type types = τ) :
    m.read (Width.ofType τ).bits (.ofValue v) =
      some (BitVec.ofInt (Width.ofType τ).bits (v.eval s)) := by
  subst hv
  exact read_ofValue h (Nat.le_refl _)

theorem read_put :
    (m.put x n).read (Width.ofType (types x)).bits (.pseudo x) =
      some (BitVec.ofInt (Width.ofType (types x)).bits n) := by
  show (if _ ≤ _ then some (BitVec.setWidth _ (if x = x then BitVec.ofInt _ n else _)) else none) =
    some _
  rw [if_pos (Nat.le_refl _), if_pos rfl, BitVec.setWidth_eq]

theorem write_pseudo :
    m.write (BitVec.ofInt (Width.ofType (types x)).bits n) (.pseudo x) = some (m.put x n) := by
  show ((if _ ≤ _ then some _ else none : Option (Slots types)).map _) = _
  rw [if_pos (Nat.le_refl _), Option.map_some]
  congr 3
  funext y
  split
  · rename_i e
    subst e
    exact patch_self _ _
  · rfl

/-- One byte is enough for a truth value in a variable that is zero. -/
theorem write_truth (b : Bool) :
    (m.put x 0).write (if b then 1#8 else 0#8) (.pseudo x) = some (m.put x (truth b)) := by
  have hbits : 8 ≤ (Width.ofType (types x)).bits := by
    rcases (Width.ofType (types x)).bits_cases with h | h <;> omega
  show ((if _ ≤ _ then some _ else none : Option (Slots types)).map _) = _
  rw [if_pos hbits, Option.map_some, ← put_put (n := truth b) (k := 0)]
  congr 3
  funext y
  split
  · rename_i e
    show patch (if y = x then BitVec.ofInt _ 0 else _) _ = _
    rw [if_pos e]
    cases b <;> cases types y <;> rfl
  · rfl

end State

end IntegerC.Machine
