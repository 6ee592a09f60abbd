import IntegerC.CType
import IntegerC.Operator

set_option autoImplicit false

/-! # Syntax trees

The tree of a program. Every node carries the piece of the source it was read from.
Expressions also have room for their type, loops and jumps for the label of their loop, and names
for the unique name they stand for; the passes over the tree fill these in and keep its shape.
-/

namespace IntegerC

/-! ## Expressions -/

/-- What every expression carries: where it stands and, once it is known, its type. -/
structure Note where
  span : Span
  type : Option IntType
deriving Repr, DecidableEq

/-- The note of an expression of unknown type. -/
def Span.note (s : Span) : Note := ⟨s, none⟩

inductive Expr where
  | constant (note : Note) (value : Constant)
  | var (note : Note) (name : String)
  | cast (note : Note) (target : IntType) (operand : Expr)
  | unary (note : Note) (op : UnaryOp) (operand : Expr)
  | binary (note : Note) (op : BinaryOp) (left right : Expr)
  | assignment (note : Note) (target value : Expr)
  | conditional (note : Note) (condition yes no : Expr)
  | call (note : Note) (callee : String) (args : List Expr)
deriving Repr, BEq

namespace Expr

def note : Expr → Note
  | constant n _ | var n _ | cast n _ _ | unary n _ _ | binary n _ _ _ | assignment n _ _
  | conditional n _ _ _ | call n _ _ => n

def span (e : Expr) : Span := e.note.span

/-- The type of an expression, once it is known. -/
def type (e : Expr) : Option IntType := e.note.type

def form : Expr → String
  | constant _ _ => "Constant"
  | var _ _ => "Var"
  | cast _ _ _ => "Cast"
  | unary _ _ _ => "Unary"
  | binary _ _ _ _ => "Binary"
  | assignment _ _ _ => "Assignment"
  | conditional _ _ _ _ => "Conditional"
  | call _ _ _ => "Call"

/-- Whether an expression is the name of a variable, which is what can be assigned to. -/
def isVar : Expr → Bool
  | var _ _ => true
  | _ => false

mutual
/-- The expression and all its parts in order of evaluation: the parts of a node from left to
right, then the node. -/
def postorder : Expr → List Expr
  | e@(constant _ _) => [e]
  | e@(var _ _) => [e]
  | e@(cast _ _ a) => a.postorder ++ [e]
  | e@(unary _ _ a) => a.postorder ++ [e]
  | e@(binary _ _ a b) => a.postorder ++ b.postorder ++ [e]
  | e@(assignment _ a b) => a.postorder ++ b.postorder ++ [e]
  | e@(conditional _ a b c) => a.postorder ++ b.postorder ++ c.postorder ++ [e]
  | e@(call _ _ as) => postorderAll as ++ [e]

def postorderAll : List Expr → List Expr
  | [] => []
  | e :: es => e.postorder ++ postorderAll es
end

end Expr

/-! ## Declarations and statements -/

inductive Storage where
  | static | external
deriving Repr, DecidableEq

structure VarDecl where
  span : Span
  name : String
  type : IntType
  storage : Option Storage
  init : Option Expr
deriving Repr, BEq

structure Param where
  span : Span
  name : String
  type : IntType
deriving Repr, DecidableEq

/-- The declaration of a function, without its body. -/
structure FunHeader where
  span : Span
  name : String
  result : IntType
  params : List Param
  storage : Option Storage
deriving Repr, DecidableEq

def FunHeader.type (h : FunHeader) : CType := .function (h.params.map Param.type) h.result

/-- What stands before the first semicolon of a `for` header. -/
inductive ForInit where
  | nothing
  | decl (d : VarDecl)
  | expr (e : Expr)
deriving Repr, BEq

mutual
/-- Statements. A loop carries its label, a jump the label of the loop it leaves or continues. -/
inductive Stmt where
  | ret (span : Span) (value : Expr)
  | expr (span : Span) (value : Expr)
  | ifThen (span : Span) (condition : Expr) (yes : Stmt)
  | ifElse (span : Span) (condition : Expr) (yes no : Stmt)
  | block (span : Span) (items : List Item)
  | breakLoop (span : Span) (label : Option String)
  | continueLoop (span : Span) (label : Option String)
  | whileLoop (span : Span) (label : Option String) (condition : Expr) (body : Stmt)
  | doLoop (span : Span) (label : Option String) (body : Stmt) (condition : Expr)
  | forLoop (span : Span) (label : Option String) (init : ForInit) (condition post : Option Expr)
      (body : Stmt)
  | null (span : Span)

inductive Item where
  | stmt (s : Stmt)
  | decl (d : Decl)

/-- Declarations: of a variable, of a function without its body, and of a function with it. -/
inductive Decl where
  | var (d : VarDecl)
  | prototype (h : FunHeader)
  | function (h : FunHeader) (bodySpan : Span) (body : List Item)
end

deriving instance Repr, BEq for Stmt, Item, Decl

def Decl.span : Decl → Span
  | .var d => d.span
  | .prototype h => h.span
  | .function h _ _ => h.span

structure Program where
  span : Span
  decls : List Decl
deriving Repr, BEq

/-- The body of the first function of a given name that has one. -/
def Program.body? (p : Program) (name : String) : Option (List Item) :=
  p.decls.findSome? fun
    | .function h _ body => if h.name = name then some body else none
    | _ => none

end IntegerC
