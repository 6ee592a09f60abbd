import IntegerC.Syntax.Specifier

set_option autoImplicit false

/-! # Reading expressions

An operand is a literal, a name, a call, a prefixed operand, a cast or an expression in
parentheses. `joints` extends an operand to the right as long as the operator at the cursor binds
at least as tightly as asked for; an operator with two operands takes a right operand that binds
more tightly than itself, the conditional and the assignment one that binds as tightly.

The first argument bounds the depth of the recursion. A list of tokens that ends with the end of
the input stays far below the bound that `Program.ofTokens` chooses.
-/

namespace IntegerC.Parser

/-- The literal at the cursor, a constant with suffix `s`. -/
def literal (s : Suffix) : Parser Expr := do
  let t ← next
  match s.constant? t.text with
  | some value => return .constant t.span.note value
  | none => fail (.constantTooLarge t.text) t.span

mutual
def operand : Nat → Parser Expr
  | 0 => endless
  | bound + 1 => do
      let t ← peek
      match t.kind with
      | .constant s => literal s
      | .identifier => do
          let _ ← next
          if ← accept (.punct .leftParen) then
            let args ← separatedUntil .rightParen (expression bound 0) bound
            let _ ← punct .rightParen
            return .call (← spanFrom t.span).note t.text args
          else return .var t.span.note t.text
      | .punct .leftParen => do
          let _ ← next
          -- a type behind the parenthesis makes it a cast
          let first ← peek
          if first.isSpecifier then
            let s ← specifiers
            if s.storage.isSome then fail .storageOnCast (← spanFrom first.span)
            else
              let _ ← punct .rightParen
              let inner ← operand bound
              return .cast (← spanFrom t.span).note s.type inner
          else
            let inner ← expression bound 0
            let _ ← punct .rightParen
            return inner
      | .punct p =>
          match p.unaryOp? with
          | some op => do
              let _ ← next
              let inner ← operand bound
              return .unary (← spanFrom t.span).note op inner
          | none => unexpected .expression
      | .keyword _ | .endOfInput => unexpected .expression

/-- An expression whose operators outside parentheses all bind at least as tightly as `least`. -/
def expression : Nat → Nat → Parser Expr
  | 0, _ => endless
  | bound + 1, least => do
      let left ← operand bound
      joints bound least left

/-- The expression that begins with the operand `left`. -/
def joints : Nat → Nat → Expr → Parser Expr
  | 0, _, _ => endless
  | bound + 1, least, left => do
      let t ← peek
      match Joint.ofToken? t with
      | none => return left
      | some joint =>
          if joint.strength < least then return left
          else
            let _ ← next
            match joint with
            | .assignment => do
                let value ← expression bound joint.strength
                joints bound least (.assignment (← spanFrom left.span).note left value)
            | .conditional => do
                let yes ← expression bound 0
                let _ ← punct .colon
                let no ← expression bound joint.strength
                joints bound least (.conditional (← spanFrom left.span).note left yes no)
            | .binary op => do
                let right ← expression bound (joint.strength + 1)
                joints bound least (.binary (← spanFrom left.span).note op left right)
end

/-- An expression, unless the punctuator `stop` stands in its place. -/
def optionalExpression (bound : Nat) (stop : Punct) : Parser (Option Expr) := do
  if (← peek).kind = .punct stop then return none
  else return some (← expression bound 0)

end IntegerC.Parser
