set_option autoImplicit false

/-! # Types and typed constants

The four integer types, function types over them, and integer constants with a type. Conversion to
an integer type keeps the low bits of a value and reads them in two's complement when the type is
signed, so the result always lies in the range of the type.
-/

namespace IntegerC

/-! ## Integer types -/

/-- The integer types: 32 and 64 bits wide, with and without sign. -/
inductive IntType where
  | int | unsignedInt | long | unsignedLong
deriving Repr, DecidableEq, Inhabited

namespace IntType

def all : List IntType := [int, unsignedInt, long, unsignedLong]

/-- Storage size in bytes. -/
def size : IntType → Nat
  | int | unsignedInt => 4
  | long | unsignedLong => 8

def bits (t : IntType) : Nat := 8 * t.size

def signed : IntType → Bool
  | int | long => true
  | unsignedInt | unsignedLong => false

/-- How many values a type has: two to its width. -/
def card : IntType → Nat
  | int | unsignedInt => 4294967296
  | long | unsignedLong => 18446744073709551616

def min (t : IntType) : Int := if t.signed then -(t.card / 2) else 0

def max (t : IntType) : Int := if t.signed then t.card / 2 - 1 else t.card - 1

def Holds (t : IntType) (n : Int) : Prop := t.min ≤ n ∧ n ≤ t.max

instance (t : IntType) (n : Int) : Decidable (t.Holds n) :=
  inferInstanceAs (Decidable (t.min ≤ n ∧ n ≤ t.max))

/-- The value of type `t` that agrees with `n` modulo the number of values of `t`. -/
def wrap (t : IntType) (n : Int) : Int :=
  if t.signed then n.bmod t.card else n % t.card

/-- The type in which two operands meet: the wider one, and among types of one width the unsigned
one. -/
def common (a b : IntType) : IntType :=
  if a = b then a
  else if a.size = b.size then if a.signed then b else a
  else if a.size > b.size then a else b

def text : IntType → String
  | int => "int"
  | unsignedInt => "unsigned int"
  | long => "long"
  | unsignedLong => "unsigned long"

@[simp] theorem common_self (t : IntType) : t.common t = t := by simp [common]

/-- Conversion lands in the range of the type. -/
theorem holds_wrap (t : IntType) (n : Int) : t.Holds (t.wrap n) := by
  cases t <;> simp only [Holds, wrap, min, max, signed, card, if_true, Bool.false_eq_true, if_false,
    Int.bmod] <;> omega

/-- Conversion leaves the values of the type alone. -/
theorem wrap_of_holds {t : IntType} {n : Int} (h : t.Holds n) : t.wrap n = n := by
  cases t <;> simp only [Holds, wrap, min, max, signed, card, if_true, Bool.false_eq_true, if_false,
    Int.bmod] at h ⊢ <;> omega

@[simp] theorem wrap_wrap (t : IntType) (n : Int) : t.wrap (t.wrap n) = t.wrap n :=
  wrap_of_holds (t.holds_wrap n)

end IntType

/-! ## Types -/

inductive CType where
  | integer (t : IntType)
  | function (params : List IntType) (result : IntType)
deriving Repr, DecidableEq

def CType.text : CType → String
  | .integer t => t.text
  | .function [] result => result.text ++ " (void)"
  | .function params result =>
      result.text ++ " (" ++ ", ".intercalate (params.map IntType.text) ++ ")"

/-! ## Constants -/

/-- An integer with the type it has in the program. -/
structure Constant where
  type : IntType
  value : Int
deriving Repr, DecidableEq

namespace Constant

def zero (t : IntType) : Constant := ⟨t, 0⟩

def convert (c : Constant) (t : IntType) : Constant := ⟨t, t.wrap c.value⟩

def InRange (c : Constant) : Prop := c.type.Holds c.value

theorem inRange_convert (c : Constant) (t : IntType) : (c.convert t).InRange :=
  t.holds_wrap c.value

theorem convert_convert (c : Constant) (t : IntType) : (c.convert t).convert t = c.convert t := by
  simp [convert]

end Constant

end IntegerC
