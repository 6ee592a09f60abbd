import IntegerC.Fault
import IntegerC.Syntax

set_option autoImplicit false

/-! # Scopes and unique names

`Program.resolve` gives every parameter and every local variable without linkage a name of its own,
`<name>.<n>`, and renames each use to the name of the innermost visible declaration. Names with
linkage, which are all names of the file scope, functions, and `extern` variables, stay as they
are. A function has one scope for its parameters and its body, each block and each `for` header
has its own.
-/

namespace IntegerC

/-! ## Scopes -/

/-- What a source name stands for: the name it is renamed to, and whether it has linkage. -/
structure Binding where
  name : String
  linkage : Bool
deriving Repr, DecidableEq

/-- The names declared in one scope, the latest first. -/
abbrev Frame := List (String × Binding)

/-- The scopes around a place in the program, the innermost first. -/
abbrev Scope := List Frame

namespace Scope

/-- What the innermost visible declaration of a name says. -/
def find? (s : Scope) (name : String) : Option Binding := s.findSome? (·.lookup name)

/-- What the declaration of a name in the innermost scope says. -/
def findInner? (s : Scope) (name : String) : Option Binding := (s.head?.getD []).lookup name

def bind (s : Scope) (name : String) (b : Binding) : Scope :=
  match s with
  | [] => [[(name, b)]]
  | frame :: outer => ((name, b) :: frame) :: outer

end Scope

/-! ## Expressions -/

namespace Expr

mutual
/-- Renames the names in an expression, whose parts are looked at before the whole. -/
def resolve (s : Scope) : Expr → Except Fault Expr
  | constant n c => .ok (constant n c)
  | var n name =>
      match s.find? name with
      | some b => .ok (var n b.name)
      | none => .error ((Cause.undeclared .variable name).at n.span)
  | cast n target a => do return cast n target (← a.resolve s)
  | unary n op a => do return unary n op (← a.resolve s)
  | binary n op a b => do
      let a' ← a.resolve s
      let b' ← b.resolve s
      return binary n op a' b'
  | assignment n a b => do
      let a' ← a.resolve s
      let b' ← b.resolve s
      if a'.isVar then return assignment n a' b' else throw (Cause.notAssignable.at a'.span)
  | conditional n a b c => do
      let a' ← a.resolve s
      let b' ← b.resolve s
      let c' ← c.resolve s
      return conditional n a' b' c'
  | call n callee args => do
      let args' ← resolveAll s args
      match s.find? callee with
      | some b => return call n b.name args'
      | none => throw ((Cause.undeclared .function callee).at n.span)

def resolveAll (s : Scope) : List Expr → Except Fault (List Expr)
  | [] => .ok []
  | e :: es => do
      let e' ← e.resolve s
      let es' ← resolveAll s es
      return e' :: es'
end

end Expr

/-! ## Declarations and statements -/

/-- What is known on the way through a program: how many unique names have been given, and the
scopes around the place that is looked at. -/
structure Resolution where
  given : Nat
  scope : Scope
deriving Repr, DecidableEq

/-- A pass that gives unique names. -/
abbrev Resolver (α : Type) := StateT Resolution (Except Fault) α

namespace Resolver

/-- Runs `x` in a scope of its own, inside the scope at hand. -/
def inScope {α : Type} (x : Resolver α) : Resolver α := do
  modify fun r => { r with scope := [] :: r.scope }
  let a ← x
  modify fun r => { r with scope := r.scope.tail }
  return a

/-- Declares a name that keeps its spelling and has linkage. -/
def declareLinked (name : String) : Resolver Unit :=
  modify fun r => { r with scope := r.scope.bind name ⟨name, true⟩ }

/-- Declares a name without linkage and answers the unique name it gets. -/
def declareUnique (name : String) : Resolver String := do
  let r ← get
  let unique := s!"{name}.{r.given}"
  set (⟨r.given + 1, r.scope.bind name ⟨unique, false⟩⟩ : Resolution)
  return unique

def expr (e : Expr) : Resolver Expr := do e.resolve (← get).scope

def optionalExpr : Option Expr → Resolver (Option Expr)
  | none => return none
  | some e => some <$> expr e

/-- A declaration of a local variable. It may repeat a name of its own scope only if both
declarations have linkage, and it is visible in its own initializer. -/
def localVar (d : VarDecl) : Resolver VarDecl := do
  let clash := match (← get).scope.findInner? d.name with
    | some b => !(b.linkage && d.storage = some Storage.external)
    | none => false
  if clash then throw ((Cause.duplicateDeclaration d.name).at d.span)
  else if d.storage = some Storage.external then
    declareLinked d.name
    return d
  else
    let name ← declareUnique d.name
    return { d with name := name, init := ← optionalExpr d.init }

/-- A parameter, which no other parameter may share its name with. -/
def param (p : Param) : Resolver Param := do
  if ((← get).scope.findInner? p.name).isSome then
    throw ((Cause.duplicateDeclaration p.name).at p.span)
  else return { p with name := ← declareUnique p.name }

def params : List Param → Resolver (List Param)
  | [] => return []
  | p :: ps => do
      let p' ← param p
      return p' :: (← params ps)

/-- Declares the name of a function. It may not repeat a name of its scope that has no linkage. -/
def functionName (h : FunHeader) : Resolver Unit := do
  let clash := match (← get).scope.findInner? h.name with
    | some b => !b.linkage
    | none => false
  if clash then throw ((Cause.duplicateDeclaration h.name).at h.span)
  else declareLinked h.name

/-- A declaration of a function without its body, whose parameters have a scope of their own. -/
def prototype (h : FunHeader) : Resolver FunHeader := do
  functionName h
  inScope do return { h with params := ← params h.params }

def forInit : ForInit → Resolver ForInit
  | .nothing => return .nothing
  | .decl d => do
      if d.storage.isSome then throw (Cause.storageOnForHeader.at d.span)
      else return .decl (← localVar d)
  | .expr e => return .expr (← expr e)

mutual
def stmt : Stmt → Resolver Stmt
  | .ret s e => return .ret s (← expr e)
  | .expr s e => return .expr s (← expr e)
  | .ifThen s c yes => do
      let c' ← expr c
      return .ifThen s c' (← stmt yes)
  | .ifElse s c yes no => do
      let c' ← expr c
      let yes' ← stmt yes
      return .ifElse s c' yes' (← stmt no)
  | .block s is => return .block s (← inScope (items is))
  | .whileLoop s label c body => do
      let c' ← expr c
      return .whileLoop s label c' (← stmt body)
  | .doLoop s label body c => do
      let body' ← stmt body
      return .doLoop s label body' (← expr c)
  | .forLoop s label init c post body =>
      inScope do
        -- the header comes before the body, as in the text
        let init' ← forInit init
        let c' ← optionalExpr c
        let post' ← optionalExpr post
        return .forLoop s label init' c' post' (← stmt body)
  | .breakLoop s label => return .breakLoop s label
  | .continueLoop s label => return .continueLoop s label
  | .null s => return .null s

/-- An item of a block. A function can be declared there, but neither defined nor `static`. -/
def item : Item → Resolver Item
  | .stmt s => return .stmt (← stmt s)
  | .decl (.var d) => return .decl (.var (← localVar d))
  | .decl (.prototype h) => do
      if h.storage = some Storage.static then throw ((Cause.staticBlockFunction h.name).at h.span)
      else return .decl (.prototype (← prototype h))
  | .decl (.function h _ _) => throw ((Cause.nestedFunction h.name).at h.span)

def items : List Item → Resolver (List Item)
  | [] => return []
  | i :: is => do
      let i' ← item i
      return i' :: (← items is)
end

/-- A declaration of the file scope. The initializer of a variable has to be a constant expression
there, so its names are left for the evaluation of constants to refuse. -/
def decl : Decl → Resolver Decl
  | .var d => do
      declareLinked d.name
      return .var d
  | .prototype h => return .prototype (← prototype h)
  | .function h s body => do
      functionName h
      inScope do
        let h' := { h with params := ← params h.params }
        return .function h' s (← items body)

def decls : List Decl → Resolver (List Decl)
  | [] => return []
  | d :: ds => do
      let d' ← decl d
      return d' :: (← decls ds)

end Resolver

/-- Gives every local name a unique name and checks the rules of scoping. -/
def Program.resolve (p : Program) : Except Fault Program := do
  let decls ← (Resolver.decls p.decls).run' ⟨0, [[]]⟩
  return { p with decls := decls }

end IntegerC
