import IntegerC.Syntax
import IntegerC.Syntax.Cursor

set_option autoImplicit false

/-! # Specifiers and literals

A declaration begins with a run of type words and storage classes in any order. The type words
name an integer type if none of them repeats; at most one storage class may be among them. A
literal has the first type, of those that its suffix allows, that holds its value.
-/

namespace IntegerC

/-! ## Type words and storage classes -/

def Keyword.storage? : Keyword → Option Storage
  | .staticKw => some .static
  | .externKw => some .external
  | _ => none

/-- The words that make up a type. -/
def Keyword.isTypeWord (k : Keyword) : Bool :=
  k = .intKw || k = .longKw || k = .signedKw || k = .unsignedKw

def Token.specifier? (t : Token) : Option Keyword :=
  match t.kind with
  | .keyword k => if k.isTypeWord || k.storage?.isSome then some k else none
  | _ => none

/-- Whether a token begins a declaration. -/
def Token.isSpecifier (t : Token) : Bool := t.specifier?.isSome

/-- The type that type words name together. -/
def IntType.ofWords (words : List Keyword) : Except Cause IntType :=
  if words = [] then .error .missingType
  else if ¬ words.Nodup then .error (.repeatedSpecifier words)
  else if .signedKw ∈ words ∧ .unsignedKw ∈ words then .error .signedAndUnsigned
  else if .unsignedKw ∈ words then
    .ok (if .longKw ∈ words then .unsignedLong else .unsignedInt)
  else .ok (if .longKw ∈ words then .long else .int)

structure Specifiers where
  type : IntType
  storage : Option Storage
deriving Repr, DecidableEq

/-- What a run of specifiers says. The type words are judged before the storage classes. -/
def Specifiers.ofWords (words : List Keyword) : Except Cause Specifiers := do
  let type ← IntType.ofWords (words.filter Keyword.isTypeWord)
  match words.filterMap Keyword.storage? with
  | [] => return ⟨type, none⟩
  | [storage] => return ⟨type, some storage⟩
  | _ => throw .manyStorageClasses

/-- The run of specifiers at a cursor, and the cursor behind it. -/
def Cursor.passSpecifiers (c : Cursor) : List Keyword × Cursor :=
  let run := c.rest.takeWhile Token.isSpecifier
  (run.filterMap Token.specifier?,
    { c with
      rest := c.rest.dropWhile Token.isSpecifier
      reached := (run.getLast?.map (·.span.stop)).getD c.reached })

namespace Parser

/-- Takes a run of specifiers, which has to name a type. -/
def specifiers : Parser Specifiers := do
  let first := (← peek).span
  let (words, c) := (← get).passSpecifiers
  set c
  let span ← spanFrom first
  match Specifiers.ofWords words with
  | .ok s => return s
  | .error cause => fail cause span

end Parser

/-! ## Literals -/

/-- The types that a literal with a given suffix may have, the preferred one first. -/
def Suffix.types : Suffix → List IntType
  | .plain => [.int, .long]
  | .long => [.long]
  | .unsigned => [.unsignedInt, .unsignedLong]
  | .unsignedLong => [.unsignedLong]

def numberOf (digits : List Char) : Nat :=
  digits.foldl (fun n c => 10 * n + (c.toNat - '0'.toNat)) 0

/-- The constant that a spelling with a given suffix stands for: the number that its leading digits
denote, in the first type of the suffix that holds it. -/
def Suffix.constant? (s : Suffix) (text : String) : Option Constant :=
  let digits := text.toList.takeWhile Text.isDigit
  if digits = [] then none
  else
    let value : Int := numberOf digits
    (s.types.find? (fun t => decide (t.Holds value))).map (fun t => ⟨t, value⟩)

end IntegerC
