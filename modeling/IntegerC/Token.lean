import IntegerC.Position

set_option autoImplicit false

/-! # Tokens

The vocabulary of the language: keywords, punctuators, integer constants with their suffix,
identifiers, and the end of the input. A `Token` carries its kind, its exact spelling and its
place; the kind alone decides what the grammar does with it.
-/

namespace IntegerC

/-! ## Keywords -/

inductive Keyword where
  | intKw | longKw | signedKw | unsignedKw | voidKw | returnKw | ifKw | elseKw | doKw | whileKw
  | forKw | breakKw | continueKw | staticKw | externKw
deriving Repr, DecidableEq

namespace Keyword

def all : List Keyword :=
  [intKw, longKw, signedKw, unsignedKw, voidKw, returnKw, ifKw, elseKw, doKw, whileKw, forKw,
   breakKw, continueKw, staticKw, externKw]

def text : Keyword → String
  | intKw => "int"
  | longKw => "long"
  | signedKw => "signed"
  | unsignedKw => "unsigned"
  | voidKw => "void"
  | returnKw => "return"
  | ifKw => "if"
  | elseKw => "else"
  | doKw => "do"
  | whileKw => "while"
  | forKw => "for"
  | breakKw => "break"
  | continueKw => "continue"
  | staticKw => "static"
  | externKw => "extern"

def ofText? (word : String) : Option Keyword := all.find? (fun k => k.text = word)

theorem ofText?_text (k : Keyword) : ofText? k.text = some k := by cases k <;> decide

end Keyword

/-! ## Punctuators -/

inductive Punct where
  | shiftLeft | shiftRight | lessOrEqual | greaterOrEqual | equal | notEqual | andAnd | orOr
  | minusMinus | plusPlus
  | leftParen | rightParen | leftBrace | rightBrace | semicolon | comma
  | tilde | minus | plus | star | slash | percent | ampersand | bar | caret | bang
  | less | greater | assign | question | colon
deriving Repr, DecidableEq

namespace Punct

/-- Every punctuator, those of two characters first: the first one in this list that begins a text
is the longest one that does. -/
def all : List Punct :=
  [shiftLeft, shiftRight, lessOrEqual, greaterOrEqual, equal, notEqual, andAnd, orOr,
   minusMinus, plusPlus,
   leftParen, rightParen, leftBrace, rightBrace, semicolon, comma,
   tilde, minus, plus, star, slash, percent, ampersand, bar, caret, bang,
   less, greater, assign, question, colon]

def chars : Punct → List Char
  | shiftLeft => ['<', '<']
  | shiftRight => ['>', '>']
  | lessOrEqual => ['<', '=']
  | greaterOrEqual => ['>', '=']
  | equal => ['=', '=']
  | notEqual => ['!', '=']
  | andAnd => ['&', '&']
  | orOr => ['|', '|']
  | minusMinus => ['-', '-']
  | plusPlus => ['+', '+']
  | leftParen => ['(']
  | rightParen => [')']
  | leftBrace => ['\x7b']
  | rightBrace => ['\x7d']
  | semicolon => [';']
  | comma => [',']
  | tilde => ['~']
  | minus => ['-']
  | plus => ['+']
  | star => ['*']
  | slash => ['/']
  | percent => ['%']
  | ampersand => ['&']
  | bar => ['|']
  | caret => ['^']
  | bang => ['!']
  | less => ['<']
  | greater => ['>']
  | assign => ['=']
  | question => ['?']
  | colon => [':']

def text (p : Punct) : String := String.ofList p.chars

def ofText? (s : String) : Option Punct := all.find? (fun p => p.text = s)

/-- The longest punctuator that begins a text. -/
def longest? (cs : List Char) : Option Punct := all.find? (fun p => p.chars.isPrefixOf cs)

theorem mem_all (p : Punct) : p ∈ all := by cases p <;> decide

theorem ofText?_text (p : Punct) : ofText? p.text = some p := by cases p <;> decide

theorem chars_ne_nil (p : Punct) : p.chars ≠ [] := by cases p <;> decide

end Punct

/-! ## Kinds of tokens -/

/-- What the letters behind a constant ask for. -/
inductive Suffix where
  | plain | long | unsigned | unsignedLong
deriving Repr, DecidableEq

namespace Suffix

def all : List Suffix := [plain, long, unsigned, unsignedLong]

/-- The suffix that lower-case letters spell, if any. -/
def ofLetters? : List Char → Option Suffix
  | [] => some plain
  | ['l'] => some long
  | ['u'] => some unsigned
  | ['u', 'l'] => some unsignedLong
  | ['l', 'u'] => some unsignedLong
  | _ => none

end Suffix

inductive TokenKind where
  | keyword (k : Keyword)
  | punct (p : Punct)
  | constant (s : Suffix)
  | identifier
  | endOfInput
deriving Repr, DecidableEq

/-- A token: its kind, its exact spelling (empty at the end of the input), and its place. -/
structure Token where
  kind : TokenKind
  text : String
  span : Span
deriving Repr, DecidableEq

namespace Token

/-- How a message names a token that it found. -/
def describe (t : Token) : String :=
  match t.kind with
  | .endOfInput => "end of input"
  | .identifier => s!"identifier \"{t.text}\""
  | .constant _ => s!"constant {t.text}"
  | .keyword _ | .punct _ => s!"\"{t.text}\""

/-- The end of an input that ends at `p`. -/
def endAt (p : Position) : Token := ⟨.endOfInput, "", ⟨p, p⟩⟩

end Token

end IntegerC
