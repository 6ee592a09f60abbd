import IntegerC.ConstantExpr
import IntegerC.Machine

set_option autoImplicit false

/-! # Numbers as bits

A machine holds a number of an integer type by its pattern of bits in two's complement, which are
the low bits of the number. The operators on values of a type are the operators on patterns, and
`intOf` reads a pattern back, with or without a sign as the type has one.
-/

namespace IntegerC

open Machine (Width)

/-! ## Patterns -/

def Machine.Width.bits (w : Width) : Nat := 8 * w.size

theorem Machine.Width.bits_ofType (t : IntType) : (Width.ofType t).bits = t.bits := by
  rw [bits, size_ofType, IntType.bits]

theorem Machine.Width.bits_cases (w : Width) : w.bits = 32 ∨ w.bits = 64 := by
  cases w with
  | longword => exact .inl rfl
  | quadword => exact .inr rfl

theorem Machine.Width.bits_bounds (w : Width) : 32 ≤ w.bits ∧ w.bits ≤ 64 := by
  rcases w.bits_cases with h | h <;> omega

/-- The number that a pattern of bits stands for, with a sign or without one. -/
def intOf (signed : Bool) {n : Nat} (v : BitVec n) : Int := if signed then v.toInt else v.toNat

theorem ofInt_intOf (signed : Bool) {n : Nat} (v : BitVec n) :
    BitVec.ofInt n (intOf signed v) = v := by
  cases signed with
  | true => exact BitVec.ofInt_toInt
  | false =>
      show BitVec.ofInt n (v.toNat : Int) = v
      rw [BitVec.ofInt_natCast, BitVec.ofNat_toNat, BitVec.setWidth_eq]

theorem intOf_inj {signed : Bool} {n : Nat} {v v' : BitVec n} :
    intOf signed v = intOf signed v' ↔ v = v' := by
  constructor
  · intro h
    rw [← ofInt_intOf signed v, h, ofInt_intOf]
  · rintro rfl
    rfl

/-- The low bits of the low bits of a number are those of the number. -/
theorem setWidth_ofInt {k n : Nat} (h : k ≤ n) (a : Int) :
    (BitVec.ofInt n a).setWidth k = BitVec.ofInt k a := by
  rw [← BitVec.signExtend_eq_setWidth_of_le _ h]
  apply BitVec.eq_of_toInt_eq
  rw [BitVec.toInt_signExtend, BitVec.toInt_ofInt, BitVec.toInt_ofInt, Nat.min_eq_left h,
    Int.bmod_bmod_of_dvd (Nat.pow_dvd_pow 2 h)]

namespace IntType

variable (t : IntType)

theorem holds_zero : t.Holds 0 := by
  cases t <;> decide

/-- The low bits of any number stand for its conversion. -/
theorem intOf_ofInt (n : Int) :
    intOf t.signed (BitVec.ofInt (Width.ofType t).bits n) = t.wrap n := by
  cases t with
  | int | long => exact BitVec.toInt_ofInt n
  | unsignedInt =>
      show ((BitVec.ofInt 32 n).toNat : Int) = n % 4294967296
      rw [BitVec.toNat_ofInt]
      omega
  | unsignedLong =>
      show ((BitVec.ofInt 64 n).toNat : Int) = n % 18446744073709551616
      rw [BitVec.toNat_ofInt]
      omega

/-- Conversion to a type keeps the low bits. -/
@[simp]
theorem ofInt_wrap (n : Int) :
    BitVec.ofInt (Width.ofType t).bits (t.wrap n) = BitVec.ofInt (Width.ofType t).bits n := by
  rw [← t.intOf_ofInt, ofInt_intOf]

variable {t}

theorem intOf_ofInt_of_holds {n : Int} (h : t.Holds n) :
    intOf t.signed (BitVec.ofInt (Width.ofType t).bits n) = n := by
  rw [intOf_ofInt, wrap_of_holds h]

end IntType

/-! ## Arithmetic -/

theorem ofInt_sub (n : Nat) (a b : Int) :
    BitVec.ofInt n (a - b) = BitVec.ofInt n a - BitVec.ofInt n b := by
  rw [Int.sub_eq_add_neg, BitVec.ofInt_add, BitVec.ofInt_neg, BitVec.sub_eq_add_neg]

theorem ofInt_complement (n : Nat) (a : Int) : BitVec.ofInt n (-a - 1) = ~~~BitVec.ofInt n a := by
  rw [ofInt_sub, BitVec.ofInt_neg, BitVec.not_eq_neg_add]
  rfl

theorem IntType.ofInt_bitwise (t : IntType) (f : ∀ n, BitVec n → BitVec n → BitVec n) (a b : Int) :
    BitVec.ofInt (Width.ofType t).bits (t.bitwise f a b) =
      f _ (BitVec.ofInt _ a) (BitVec.ofInt _ b) := by
  rw [bitwise, ofInt_wrap]
  cases t <;> exact BitVec.ofInt_toInt

/-- An extension by the sign. -/
theorem signExtend_ofInt (n : Int) :
    (BitVec.ofInt 32 n).signExtend 64 = BitVec.ofInt 64 (IntType.int.wrap n) := by
  rw [← IntType.int.intOf_ofInt]
  rfl

/-- An extension by zeros. -/
theorem zeroExtend_ofInt (n : Int) :
    (BitVec.ofInt 32 n).setWidth 64 = BitVec.ofInt 64 (IntType.unsignedInt.wrap n) := by
  rw [← IntType.unsignedInt.intOf_ofInt]
  show _ = BitVec.ofInt 64 ((BitVec.ofInt 32 n).toNat : Int)
  rw [BitVec.ofInt_natCast, BitVec.ofNat_toNat]

/-! ## Quotients -/

/-- A quotient is a value of the type of its operands, except for the least value divided by -1. -/
theorem IntType.holds_tdiv {t : IntType} {a b : Int} (ha : t.Holds a) (hb : t.Holds b)
    (h : ¬ (a = t.min ∧ b = -1)) : t.Holds (a.tdiv b) := by
  have hsize : (a.tdiv b).natAbs = a.natAbs / b.natAbs := Int.natAbs_tdiv a b
  have hnonneg : 0 ≤ a → 0 ≤ b → 0 ≤ a.tdiv b := Int.tdiv_nonneg
  -- the divisors 1 and -1 keep the size of the number
  by_cases h1 : b = 1
  · rwa [h1, Int.tdiv_one]
  by_cases h2 : b = -1
  · have hmin : a ≠ t.min := fun e => h ⟨e, h2⟩
    rw [h2, Int.tdiv_neg, Int.tdiv_one]
    rw [h2] at hb
    clear h hsize hnonneg
    cases t <;> simp only [Holds, min, max, signed, card, if_true, Bool.false_eq_true,
      if_false] at * <;> omega
  · -- any other divisor makes the number half as large at least
    have hhalf : (a.tdiv b).natAbs ≤ a.natAbs / 2 := by
      rw [hsize]
      rcases Nat.eq_zero_or_pos b.natAbs with h0 | h0
      · rw [h0, Nat.div_zero]
        exact Nat.zero_le _
      · exact Nat.div_le_div_left (by omega) (by omega)
    clear hsize
    generalize a.tdiv b = q at *
    cases t <;> simp only [Holds, min, max, signed, card, if_true, Bool.false_eq_true,
      if_false] at * <;> omega

/-! ## Shifts -/

theorem ofInt_shiftLeft (n : Nat) (a : Int) (k : Nat) :
    BitVec.ofInt n (a <<< k) = BitVec.ofInt n a <<< k := by
  rw [Int.shiftLeft_eq, BitVec.ofInt_mul, BitVec.shiftLeft_eq_mul_twoPow]
  have hcast : (2 : Int) ^ k = ((2 ^ k : Nat) : Int) := (Int.natCast_pow 2 k).symm
  have hpow : BitVec.ofNat n (2 ^ k) = BitVec.twoPow n k := by
    apply BitVec.eq_of_toNat_eq
    rw [BitVec.toNat_ofNat, BitVec.toNat_twoPow]
  rw [hcast, BitVec.ofInt_natCast, hpow]

/-- A shift to the right of a number with a sign copies the sign, and else zeros come in. -/
theorem ofInt_shiftRight (signed : Bool) {n : Nat} (v : BitVec n) (k : Nat) :
    BitVec.ofInt n (intOf signed v >>> k) = if signed then v.sshiftRight k else v >>> k := by
  cases signed with
  | true =>
      show BitVec.ofInt n (v.toInt >>> k) = v.sshiftRight k
      rw [← BitVec.toInt_sshiftRight, BitVec.ofInt_toInt]
  | false =>
      show BitVec.ofInt n ((v.toNat : Int) >>> k) = v >>> k
      have h : ((v.toNat : Int) >>> k) = ((v >>> k).toNat : Int) := by
        rw [BitVec.toNat_ushiftRight]
        rfl
      rw [h, BitVec.ofInt_natCast, BitVec.ofNat_toNat, BitVec.setWidth_eq]

/-- A byte of a byte. -/
theorem ofInt_byte (n : Int) : BitVec.ofInt 8 (n % 256) = BitVec.ofInt 8 n := by
  apply BitVec.eq_of_toNat_eq
  rw [BitVec.toNat_ofInt, BitVec.toNat_ofInt]
  omega

/-- The low byte of a count has the same remainder modulo the width of a type. -/
theorem IntType.mask_ofInt (t : IntType) (count : Int) :
    (BitVec.ofInt 8 count).toNat % (Width.ofType t).bits = (count % t.bits).toNat := by
  rw [BitVec.toNat_ofInt, Width.bits_ofType]
  cases t with
  | int | unsignedInt =>
      show (count % 256).toNat % 32 = (count % 32).toNat
      omega
  | long | unsignedLong =>
      show (count % 256).toNat % 64 = (count % 64).toNat
      omega

end IntegerC
