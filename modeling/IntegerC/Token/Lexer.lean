import IntegerC.Fault

set_option autoImplicit false

/-! # Reading tokens

`tokens` splits a text into tokens and ends them with exactly one end-of-input token. Blanks, both
kinds of comments, and line markers are passed over; a line marker is a `#` with nothing but
indentation before it on its line. The text is walked character by character: `Piece.at` says what
begins at a character, and `scan` then passes over the characters that the piece takes.
-/

namespace IntegerC

open Text

/-! ## What begins at a character -/

/-- What begins at a character of the text: something to pass over or a token, with the number of
further characters that belong to it, or a fault with the number of UTF-16 units it covers. -/
inductive Piece where
  | gap (more : Nat)
  | token (kind : TokenKind) (more : Nat)
  | fault (cause : Cause) (width : Nat)
deriving Repr, DecidableEq

/-- The number of characters up to and including the first `*/`. -/
def commentLength? : List Char → Option Nat
  | '*' :: '/' :: _ => some 2
  | _ :: cs => (commentLength? cs).map (· + 1)
  | [] => none

/-- The number of characters before the end of the line. -/
def lineRest (cs : List Char) : Nat := (cs.takeWhile (· ≠ '\n')).length

def wordRest (cs : List Char) : List Char := cs.takeWhile isWordChar

/-- The ASCII letter in lower case. -/
def lowerLetter (c : Char) : Char :=
  if 'A' ≤ c && c ≤ 'Z' then Char.ofNat (c.toNat + 32) else c

/-- The suffix of a constant: the letters behind its digits spell one in either case. -/
def suffixOf? (lexeme : List Char) : Option Suffix :=
  Suffix.ofLetters? ((lexeme.dropWhile isDigit).map lowerLetter)

def wordKind (lexeme : List Char) : TokenKind :=
  match Keyword.ofText? (String.ofList lexeme) with
  | some k => .keyword k
  | none => .identifier

/-- What begins at the character `c`, which `cs` follows. `fresh` tells that only indentation
stands between the start of the line and `c`. -/
def Piece.at (fresh : Bool) (c : Char) (cs : List Char) : Piece :=
  if isBlank c then .gap 0
  else if (c = '/' && cs.head? = some '/') || (c = '#' && fresh) then .gap (lineRest cs)
  else if c = '/' && cs.head? = some '*' then
    match commentLength? cs.tail with
    -- the star, and the characters behind it
    | some n => .gap (n + 1)
    | none => .fault .unterminatedComment (unitsOf (c :: cs))
  else if isLetter c || c = '_' then
    .token (wordKind (c :: wordRest cs)) (wordRest cs).length
  else if isDigit c then
    -- whatever continues a word belongs to the number, as a suffix or as a mistake
    match suffixOf? (c :: wordRest cs) with
    | some s => .token (.constant s) (wordRest cs).length
    | none =>
        .fault (.invalidLiteral (String.ofList (c :: wordRest cs))) (1 + (wordRest cs).length)
  else
    match Punct.longest? (c :: cs) with
    | some p => .token (.punct p) (p.chars.length - 1)
    | none => .fault (.unexpectedCharacter c) 1

/-! ## The walk over the text -/

/-- Whether only indentation stands before the place behind `c` on its line. -/
def freshAfter (fresh : Bool) (c : Char) : Bool := c = '\n' || (fresh && isIndent c)

/-- The tokens of a text that begins at offset `start`, of which the first `skip` characters belong
to the piece before. -/
def scan (lines : LineMap) : Nat → Bool → Nat → List Char → Except Fault (List Token)
  | start, _, _, [] => .ok [.endAt (lines.position start)]
  | start, fresh, skip + 1, c :: cs => scan lines (start + units c) (freshAfter fresh c) skip cs
  | start, fresh, 0, c :: cs =>
      match Piece.at fresh c cs with
      | .fault cause width => .error (cause.at (lines.span start ↑(start + width)))
      | .gap more => scan lines (start + units c) (freshAfter fresh c) more cs
      | .token kind more =>
          let lexeme := c :: cs.take more
          let token : Token :=
            ⟨kind, String.ofList lexeme, lines.span start ↑(start + unitsOf lexeme)⟩
          (scan lines (start + units c) (freshAfter fresh c) more cs).map (token :: ·)

def tokensOfChars (cs : List Char) : Except Fault (List Token) :=
  scan (LineMap.ofChars cs) 0 true 0 cs

/-- The tokens of a text, ended by one end-of-input token. -/
def tokens (text : String) : Except Fault (List Token) := tokensOfChars text.toList

end IntegerC
