set_option autoImplicit false

/-! # Characters as the lexer sees them

Three classes of characters: the blanks that separate tokens, the indentation that may stand
before a line marker, and the letters, digits and underscores that make up words. Offsets and
columns count UTF-16 code units, so this module also says how many of them a character takes.
-/

namespace IntegerC.Text

/-- The number of UTF-16 code units that encode `c`: two above U+FFFF, one otherwise. -/
def units (c : Char) : Nat := if c.toNat < 0x10000 then 1 else 2

/-- The number of UTF-16 code units that encode a text. -/
def unitsOf : List Char → Nat
  | [] => 0
  | c :: cs => units c + unitsOf cs

theorem units_pos (c : Char) : 0 < units c := by
  unfold units
  split <;> omega

@[simp] theorem unitsOf_nil : unitsOf [] = 0 := rfl

@[simp] theorem unitsOf_cons (c : Char) (cs : List Char) :
    unitsOf (c :: cs) = units c + unitsOf cs := rfl

theorem unitsOf_append (as bs : List Char) : unitsOf (as ++ bs) = unitsOf as + unitsOf bs := by
  induction as with
  | nil => simp
  | cons c cs ih => simp only [List.cons_append, unitsOf_cons, ih]; omega

/-- The code points of the blanks above ASCII: the space separators of Unicode, the two line
separators, and the byte order mark. -/
def wideBlanks : List Nat :=
  [0xA0, 0x1680, 0x2000, 0x2001, 0x2002, 0x2003, 0x2004, 0x2005, 0x2006, 0x2007, 0x2008, 0x2009,
   0x200A, 0x2028, 0x2029, 0x202F, 0x205F, 0x3000, 0xFEFF]

/-- The blanks that may stand between two tokens. -/
def isBlank (c : Char) : Bool :=
  c = ' ' || (9 ≤ c.toNat && c.toNat ≤ 13) || wideBlanks.contains c.toNat

/-- The characters that may stand between the start of a line and a line marker. -/
def isIndent (c : Char) : Bool :=
  c = ' ' || c = '\t' || c = '\r' || c.toNat = 11 || c.toNat = 12

def isDigit (c : Char) : Bool := '0' ≤ c && c ≤ '9'

/-- The ASCII letters. -/
def isLetter (c : Char) : Bool := ('a' ≤ c && c ≤ 'z') || ('A' ≤ c && c ≤ 'Z')

/-- The characters that continue a word. -/
def isWordChar (c : Char) : Bool := isLetter c || isDigit c || c = '_'

/-- Indentation is blank, and so is the end of a line, which is no indentation. -/
theorem isBlank_of_isIndent {c : Char} (h : isIndent c = true) : isBlank c = true := by
  unfold isIndent at h
  unfold isBlank
  simp only [Bool.or_eq_true, decide_eq_true_eq, Bool.and_eq_true] at h ⊢
  rcases h with (((rfl | rfl) | rfl) | h) | h
  · exact .inl (.inl rfl)
  · exact .inl (.inr (by decide))
  · exact .inl (.inr (by decide))
  · exact .inl (.inr (by omega))
  · exact .inl (.inr (by omega))

end IntegerC.Text
