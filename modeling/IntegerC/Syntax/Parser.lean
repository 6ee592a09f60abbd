import IntegerC.Syntax.ExprParser

set_option autoImplicit false

/-! # Reading programs

Statements, declarations and programs. `Program.ofTokens` reads a list of tokens; it fails
at the first token that does not fit the grammar. As in `IntegerC.Syntax.ExprParser`, a first
argument bounds the depth of the recursion.
-/

namespace IntegerC

namespace Parser

/-! ## Parameters -/

def parameter : Parser Param := do
  let first := (← peek).span
  let s ← specifiers
  if s.storage.isSome then fail .storageOnParameter (← spanFrom first)
  else
    let name ← identifier
    return ⟨← spanFrom first, name.text, s.type⟩

/-- The parameters of a function with the parentheses around them: `void` or at least one. -/
def parameters (bound : Nat) : Parser (List Param) := do
  let _ ← punct .leftParen
  let c ← get
  if c.current.kind = .keyword .voidKw ∧ c.following.kind = .punct .rightParen then
    let _ ← next
    let _ ← next
    return []
  else if c.current.kind = .punct .rightParen then unexpected .parameters
  else
    let params ← separatedUntil .rightParen parameter bound
    let _ ← punct .rightParen
    return params

/-! ## Statements and declarations -/

def parenthesized (bound : Nat) : Parser Expr := do
  let _ ← punct .leftParen
  let e ← expression bound 0
  let _ ← punct .rightParen
  return e

mutual
def statement : Nat → Parser Stmt
  | 0 => endless
  | bound + 1 => do
      let t ← peek
      match t.kind with
      | .keyword .returnKw => do
          let _ ← next
          let e ← expression bound 0
          let _ ← punct .semicolon
          return .ret (← spanFrom t.span) e
      | .keyword .ifKw => do
          let _ ← next
          let condition ← parenthesized bound
          let yes ← statement bound
          -- an `else` belongs to the nearest `if`
          if ← accept (.keyword .elseKw) then
            let no ← statement bound
            return .ifElse (← spanFrom t.span) condition yes no
          else return .ifThen (← spanFrom t.span) condition yes
      | .punct .leftBrace => do
          let (span, items) ← block bound
          return .block span items
      | .keyword .breakKw => do
          let _ ← next
          let _ ← punct .semicolon
          return .breakLoop (← spanFrom t.span) none
      | .keyword .continueKw => do
          let _ ← next
          let _ ← punct .semicolon
          return .continueLoop (← spanFrom t.span) none
      | .keyword .whileKw => do
          let _ ← next
          let condition ← parenthesized bound
          let body ← statement bound
          return .whileLoop (← spanFrom t.span) none condition body
      | .keyword .doKw => do
          let _ ← next
          let body ← statement bound
          let _ ← keyword .whileKw
          let condition ← parenthesized bound
          let _ ← punct .semicolon
          return .doLoop (← spanFrom t.span) none body condition
      | .keyword .forKw => do
          let _ ← next
          let _ ← punct .leftParen
          let init ← forInit bound
          let condition ← optionalExpression bound .semicolon
          let _ ← punct .semicolon
          let post ← optionalExpression bound .rightParen
          let _ ← punct .rightParen
          let body ← statement bound
          return .forLoop (← spanFrom t.span) none init condition post body
      | .punct .semicolon => do
          let _ ← next
          return .null t.span
      | _ => do
          let e ← expression bound 0
          let _ ← punct .semicolon
          return .expr (← spanFrom t.span) e

/-- What stands before the first semicolon of a `for` header, with that semicolon. -/
def forInit : Nat → Parser ForInit
  | 0 => endless
  | bound + 1 => do
      if (← peek).isSpecifier then
        match ← declaration bound with
        | .var d => return .decl d
        | .prototype h | .function h _ _ => fail .functionInForHeader h.span
      else
        let e ← optionalExpression bound .semicolon
        let _ ← punct .semicolon
        match e with
        | none => return .nothing
        | some e => return .expr e

def block : Nat → Parser (Span × List Item)
  | 0 => endless
  | bound + 1 => do
      let first ← punct .leftBrace
      let items ← manyUntil .rightBrace (item bound) bound
      let _ ← punct .rightBrace
      return (← spanFrom first.span, items)

/-- A declaration or a statement. -/
def item : Nat → Parser Item
  | 0 => endless
  | bound + 1 => do
      if (← peek).isSpecifier then return .decl (← declaration bound)
      else return .stmt (← statement bound)

def declaration : Nat → Parser Decl
  | 0 => endless
  | bound + 1 => do
      let first := (← peek).span
      let s ← specifiers
      let name ← identifier
      if (← peek).kind = .punct .leftParen then
        let params ← parameters bound
        if (← peek).kind = .punct .leftBrace then
          let (bodySpan, body) ← block bound
          return .function ⟨← spanFrom first, name.text, s.type, params, s.storage⟩ bodySpan body
        else
          let _ ← punct .semicolon
          return .prototype ⟨← spanFrom first, name.text, s.type, params, s.storage⟩
      else
        let init ←
          if ← accept (.punct .assign) then some <$> expression bound 0 else pure none
        let _ ← punct .semicolon
        return .var ⟨← spanFrom first, name.text, s.type, s.storage, init⟩
end

/-! ## Programs -/

def program (bound : Nat) : Parser Program := do
  let first := (← peek).span
  let decls ← manyUntilEnd (declaration bound) bound
  let _ ← endOfInput
  return ⟨← spanFrom first, decls⟩

/-- A depth of recursion that no list of tokens of length `n` needs: at most eight calls lie between
the taking of two tokens. -/
def depthFor (n : Nat) : Nat := 8 * (n + 2)

end Parser

/-- The program that a list of tokens spells. -/
def Program.ofTokens (ts : List Token) : Except Fault Program :=
  (Parser.program (Parser.depthFor ts.length)).run' (.start ts)

end IntegerC
