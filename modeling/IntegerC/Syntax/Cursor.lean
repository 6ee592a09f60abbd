import IntegerC.Fault

set_option autoImplicit false

/-! # Moving over a list of tokens

A `Cursor` stands in a list of tokens; a `Parser` reads from it, moves it on, or fails. Behind the
end of the list the last token is seen again, and taking it there does not move the cursor, so a
list that ends with the end of the input is never left.
-/

namespace IntegerC

/-- A place in a list of tokens: the tokens not yet taken, the token seen behind the end of the
list, and where the token taken last ends (before the first one is taken, where it ends). -/
structure Cursor where
  rest : List Token
  last : Token
  reached : Position
deriving Repr, DecidableEq

namespace Cursor

def start (ts : List Token) : Cursor where
  rest := ts
  last := ts.getLast?.getD (.endAt .origin)
  reached := (ts.head?.getD (.endAt .origin)).span.stop

def current (c : Cursor) : Token := c.rest.head?.getD c.last

def following (c : Cursor) : Token := c.rest.tail.head?.getD c.last

def advance (c : Cursor) : Cursor :=
  match c.rest with
  | [] => c
  | t :: ts => { c with rest := ts, reached := t.span.stop }

theorem length_rest_advance (c : Cursor) :
    c.advance.rest.length = c.rest.length - 1 := by
  unfold advance
  cases h : c.rest <;> simp [h]

@[simp] theorem last_advance (c : Cursor) : c.advance.last = c.last := by
  unfold advance
  cases c.rest <;> rfl

end Cursor

/-- A reader of tokens that answers an `α` or fails. -/
abbrev Parser (α : Type) := StateT Cursor (Except Fault) α

namespace Parser

/-- The token at the cursor, which stays there. -/
def peek : Parser Token := do return (← get).current

def next : Parser Token := do
  let t ← peek
  modify Cursor.advance
  return t

def fail {α : Type} (cause : Cause) (span : Span) : Parser α := throw (cause.at span)

/-- Fails because the token at the cursor is not what the grammar asks for. -/
def unexpected {α : Type} (wanted : Expectation) : Parser α := do
  let t ← peek
  fail (.unexpectedToken wanted t) t.span

/-- The piece of the source from the start of `first` to the end of the token taken last. -/
def spanFrom (first : Span) : Parser Span := do return ⟨first.start, (← get).reached⟩

/-- Takes the token at the cursor if it has kind `k`. -/
def accept (k : TokenKind) : Parser Bool := do
  if (← peek).kind = k then
    let _ ← next
    return true
  else return false

/-- Takes the token at the cursor, which has to be the punctuator `p`. -/
def punct (p : Punct) : Parser Token := do
  if (← peek).kind = .punct p then next else unexpected (.punct p)

def keyword (k : Keyword) : Parser Token := do
  if (← peek).kind = .keyword k then next else unexpected (.keyword k)

def identifier : Parser Token := do
  if (← peek).kind = .identifier then next else unexpected .identifier

def endOfInput : Parser Token := do
  if (← peek).kind = .endOfInput then next else unexpected .endOfInput

/-- Gives up on a list of tokens without an end. -/
def endless {α : Type} : Parser α := do fail .endlessTokens (← peek).span

/-- Elements up to the punctuator `stop`, which is not taken. -/
def manyUntil {α : Type} (stop : Punct) (element : Parser α) : Nat → Parser (List α)
  | 0 => endless
  | bound + 1 => do
      let t ← peek
      if t.kind = .punct stop then return []
      else if t.kind = .endOfInput then unexpected (.punct stop)
      else
        let x ← element
        return x :: (← manyUntil stop element bound)

/-- Elements up to the end of the input, which is not taken. -/
def manyUntilEnd {α : Type} (element : Parser α) : Nat → Parser (List α)
  | 0 => endless
  | bound + 1 => do
      if (← peek).kind = .endOfInput then return []
      else
        let x ← element
        return x :: (← manyUntilEnd element bound)

/-- Elements with commas between them, up to the punctuator `stop`, which is not taken. The list
ends at the first element without a comma behind it; a comma may stand before `stop`. -/
def separatedUntil {α : Type} (stop : Punct) (element : Parser α) : Nat → Parser (List α)
  | 0 => endless
  | bound + 1 => do
      let t ← peek
      if t.kind = .punct stop then return []
      else if t.kind = .endOfInput then unexpected (.punct stop)
      else
        let x ← element
        if ← accept (.punct .comma) then return x :: (← separatedUntil stop element bound)
        else return [x]

end Parser

end IntegerC
