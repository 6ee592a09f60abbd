import IntegerC.Fault
import IntegerC.Syntax

set_option autoImplicit false

/-! # Labels of loops

`Program.nameLoops` numbers the loops of a program in the order in which they begin, names each
`while.<n>`, `do.<n>` or `for.<n>`, and writes the name of the innermost loop around it on every
`break` and `continue`. A jump outside of all loops is refused.
-/

namespace IntegerC

/-- A pass that counts the loops it has met. -/
abbrev LoopNamer (α : Type) := StateT Nat (Except Fault) α

namespace LoopNamer

/-- The label of the next loop, after the word it begins with. -/
def fresh (word : String) : LoopNamer String := do
  let n ← get
  set (n + 1)
  return s!"{word}.{n}"

mutual
def stmt (loop : Option String) : Stmt → LoopNamer Stmt
  | .breakLoop s _ =>
      match loop with
      | some label => return .breakLoop s (some label)
      | none => throw (Cause.breakOutsideLoop.at s)
  | .continueLoop s _ =>
      match loop with
      | some label => return .continueLoop s (some label)
      | none => throw (Cause.continueOutsideLoop.at s)
  | .whileLoop s _ c body => do
      let label ← fresh "while"
      return .whileLoop s (some label) c (← stmt (some label) body)
  | .doLoop s _ body c => do
      let label ← fresh "do"
      return .doLoop s (some label) (← stmt (some label) body) c
  | .forLoop s _ init c post body => do
      let label ← fresh "for"
      return .forLoop s (some label) init c post (← stmt (some label) body)
  | .ifThen s c yes => return .ifThen s c (← stmt loop yes)
  | .ifElse s c yes no => do
      let yes' ← stmt loop yes
      return .ifElse s c yes' (← stmt loop no)
  | .block s is => return .block s (← items loop is)
  | .ret s e => return .ret s e
  | .expr s e => return .expr s e
  | .null s => return .null s

/-- An item of a block; the loops of a function inside a function are left alone. -/
def item (loop : Option String) : Item → LoopNamer Item
  | .stmt s => return .stmt (← stmt loop s)
  | .decl d => return .decl d

def items (loop : Option String) : List Item → LoopNamer (List Item)
  | [] => return []
  | i :: is => do
      let i' ← item loop i
      return i' :: (← items loop is)
end

def decls : List Decl → LoopNamer (List Decl)
  | [] => return []
  | .function h s body :: ds => do
      let body' ← items none body
      return .function h s body' :: (← decls ds)
  | d :: ds => return d :: (← decls ds)

end LoopNamer

/-- Labels the loops of a program and the jumps in them. -/
def Program.nameLoops (p : Program) : Except Fault Program := do
  let decls ← (LoopNamer.decls p.decls).run' 0
  return { p with decls := decls }

end IntegerC
