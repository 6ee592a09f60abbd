import IntegerC.ConstantExpr
import IntegerC.SymbolTable

set_option autoImplicit false

/-! # Types of expressions and entries for declarations

`Expr.check` gives every part of an expression its type and makes each implicit conversion a cast.
`Program.check` does so throughout a program, replaces the initializers of static objects by their
values, and records every declaration in the symbol table.
-/

namespace IntegerC

/-! ## Expressions -/

namespace Expr

def typeOf (e : Expr) : Except Fault IntType :=
  match e.type with
  | some t => .ok t
  | none => .error ((Cause.untypedExpression e.form).at e.span)

/-- The expression converted to type `t`, which leaves an expression of that type alone. -/
def convert (e : Expr) (t : IntType) : Expr :=
  if e.type = some t then e else cast ⟨e.span, some t⟩ t e

@[simp] theorem type_convert (e : Expr) (t : IntType) : (e.convert t).type = some t := by
  unfold convert
  split
  · assumption
  · rfl

@[simp] theorem span_convert (e : Expr) (t : IntType) : (e.convert t).span = e.span := by
  unfold convert
  split <;> rfl

end Expr

def Note.typed (n : Note) (t : IntType) : Note := { n with type := some t }

/-- An operator on two typed operands, after the conversions it asks for. -/
def BinaryOp.typed (n : Note) (op : BinaryOp) (a b : Expr) (s t : IntType) : Expr :=
  match op with
  | .logic _ => .binary (n.typed .int) op a b
  | .shift _ => .binary (n.typed s) op a b
  | .compare _ => .binary (n.typed .int) op (a.convert (s.common t)) (b.convert (s.common t))
  | .arith _ =>
      .binary (n.typed (s.common t)) op (a.convert (s.common t)) (b.convert (s.common t))

namespace Expr

mutual
/-- The expression with the type of each part, and with casts for the implicit conversions. -/
def check (symbols : SymbolTable) : Expr → Except Fault Expr
  | constant n c => .ok (constant (n.typed c.type) c)
  | var n name =>
      match symbols.find? name with
      | none => .error ((Cause.undeclared .variable name).at n.span)
      | some ⟨.function _ _, _⟩ => .error ((Cause.functionAsVariable name).at n.span)
      | some ⟨.integer t, _⟩ => .ok (var (n.typed t) name)
  | cast n target a => do
      let a' ← a.check symbols
      let _ ← a'.typeOf
      return cast (n.typed target) target a'
  | unary n op a => do
      let a' ← a.check symbols
      let t ← a'.typeOf
      return unary (n.typed (if op = .not then .int else t)) op a'
  | binary n op a b => do
      let a' ← a.check symbols
      let b' ← b.check symbols
      return op.typed n a' b' (← a'.typeOf) (← b'.typeOf)
  | assignment n a b => do
      let a' ← a.check symbols
      let b' ← b.check symbols
      let t ← a'.typeOf
      return assignment (n.typed t) a' (b'.convert t)
  | conditional n a b c => do
      let a' ← a.check symbols
      let b' ← b.check symbols
      let c' ← c.check symbols
      let _ ← a'.typeOf
      let t := (← b'.typeOf).common (← c'.typeOf)
      return conditional (n.typed t) a' (b'.convert t) (c'.convert t)
  | call n callee args => do
      let args' ← checkAll symbols args
      match symbols.find? callee with
      | none => throw ((Cause.undeclared .function callee).at n.span)
      | some ⟨.integer _, _⟩ => throw ((Cause.notAFunction callee).at n.span)
      | some ⟨.function params result, _⟩ =>
          if params.length ≠ args'.length then
            throw ((Cause.argumentCount callee params.length args'.length).at n.span)
          else return call (n.typed result) callee (List.zipWith convert args' params)

def checkAll (symbols : SymbolTable) : List Expr → Except Fault (List Expr)
  | [] => .ok []
  | e :: es => do
      let e' ← e.check symbols
      return e' :: (← checkAll symbols es)
end

end Expr

/-! ## Static objects -/

/-- The value of the initializer of a static object, converted to the type of the object. -/
def VarDecl.staticValue (d : VarDecl) (init : Expr) : Except Fault Constant := do
  match ← init.constant? with
  | some c => return c.convert d.type
  | none => throw ((Cause.nonConstantInitializer d.name).at init.span)

/-- The value of the initializer of a static object, if it has one. -/
def VarDecl.staticValue? (d : VarDecl) : Except Fault (Option Constant) :=
  match d.init with
  | none => .ok none
  | some init => (d.staticValue init).map some

/-- The declaration with its initializer replaced by a value. -/
def VarDecl.withValue (d : VarDecl) (value : Option Constant) : VarDecl :=
  { d with
    init := match d.init, value with
      | some init, some c => some (.constant ⟨init.span, some c.type⟩ c)
      | _, _ => none }

/-- The initial value that two declarations of one object give it together; nothing if both give
one. -/
def InitialValue.merge (old new : InitialValue) : Option InitialValue :=
  match old, new with
  | .initial _, .initial _ => none
  | .initial c, _ => some (.initial c)
  | .tentative, .initial c => some (.initial c)
  | .tentative, _ => some .tentative
  | .absent, _ => some new

/-- The entry of an object after one more declaration `d` of it at file scope, which gives it the
initial value `value`. -/
def VarDecl.fileEntry (d : VarDecl) (value : Option Constant) (old : Option Symbol) :
    Except Fault Symbol :=
  let initial := match value with
    | some c => .initial c
    | none => if d.storage = some .external then .absent else .tentative
  match old with
  | none => .ok ⟨.integer d.type, .static initial (d.storage ≠ some .static)⟩
  | some ⟨oldType, .static oldInitial oldGlobal⟩ =>
      if oldType ≠ .integer d.type then .error ((Cause.conflictingType d.name oldType).at d.span)
      -- `extern` takes over the linkage of the declaration before
      else if d.storage ≠ some .external ∧ oldGlobal ≠ (d.storage ≠ some .static : Bool) then
        .error ((Cause.conflictingLinkage d.name).at d.span)
      else
        match oldInitial.merge initial with
        | none => .error ((Cause.duplicateDefinition d.name).at d.span)
        | some merged => .ok ⟨.integer d.type, .static merged oldGlobal⟩
  | some ⟨oldType, _⟩ => .error ((Cause.conflictingType d.name oldType).at d.span)

/-- The entry of a function after one more declaration of it, with its body if `defines` holds. -/
def FunHeader.entry (h : FunHeader) (defines : Bool) (old : Option Symbol) : Except Fault Symbol :=
  match old with
  | none => .ok ⟨h.type, .function defines (h.storage ≠ some .static)⟩
  | some ⟨oldType, .function defined global⟩ =>
      if oldType ≠ h.type then .error ((Cause.conflictingType h.name oldType).at h.span)
      else if defined && defines then .error ((Cause.duplicateDefinition h.name).at h.span)
      -- a function that was `static` stays so without being told again
      else if global && h.storage = some .static then
        .error ((Cause.conflictingLinkage h.name).at h.span)
      else .ok ⟨h.type, .function (defined || defines) global⟩
  | some ⟨oldType, _⟩ => .error ((Cause.conflictingType h.name oldType).at h.span)

/-! ## Programs -/

/-- A pass that records declarations. -/
abbrev Checker (α : Type) := StateT SymbolTable (Except Fault) α

namespace Checker

def record (name : String) (s : Symbol) : Checker Unit := modify (·.put name s)

def expr (e : Expr) : Checker Expr := do e.check (← get)

def optionalExpr : Option Expr → Checker (Option Expr)
  | none => return none
  | some e => some <$> expr e

/-- Checks an expression and converts it to type `t`. -/
def exprAs (t : IntType) (e : Expr) : Checker Expr := do return (← expr e).convert t

def fileVar (d : VarDecl) : Checker VarDecl := do
  let value ← d.staticValue?
  let entry ← d.fileEntry value ((← get).find? d.name)
  record d.name entry
  return d.withValue value

/-- A variable of a block. An `extern` one stands for an object of the file scope, a static one is
initialized before the program starts, and an automatic one is visible in its own initializer. -/
def localVar (d : VarDecl) : Checker VarDecl := do
  match d.storage with
  | some .external =>
      match d.init with
      | some init => throw ((Cause.externInitializer d.name).at init.span)
      | none =>
          match (← get).find? d.name with
          | none =>
              -- an object that is defined further down, or elsewhere
              record d.name ⟨.integer d.type, .static .absent true⟩
              return d
          | some old =>
              if old.type = .integer d.type then return d
              else throw ((Cause.conflictingType d.name old.type).at d.span)
  | some .static =>
      let value ← d.staticValue?
      record d.name ⟨.integer d.type, .static (.initial (value.getD (.zero d.type))) false⟩
      return d.withValue value
  | none =>
      record d.name (.automatic d.type)
      match d.init with
      | none => return d
      | some init => return { d with init := some (← exprAs d.type init) }

def function (h : FunHeader) (defines : Bool) : Checker Unit := do
  let entry ← h.entry defines ((← get).find? h.name)
  record h.name entry

/-- Records the parameters of a function as automatic variables. -/
def params : List Param → Checker Unit
  | [] => return ()
  | p :: ps => do
      record p.name (.automatic p.type)
      params ps

def forInit : ForInit → Checker ForInit
  | .nothing => return .nothing
  | .decl d => return .decl (← localVar d)
  | .expr e => return .expr (← expr e)

mutual
/-- A statement of a function that returns type `result`. -/
def stmt (result : IntType) : Stmt → Checker Stmt
  | .ret s e => return .ret s (← exprAs result e)
  | .expr s e => return .expr s (← expr e)
  | .ifThen s c yes => do
      let c' ← expr c
      return .ifThen s c' (← stmt result yes)
  | .ifElse s c yes no => do
      let c' ← expr c
      let yes' ← stmt result yes
      return .ifElse s c' yes' (← stmt result no)
  | .block s is => return .block s (← items result is)
  | .whileLoop s label c body => do
      let c' ← expr c
      return .whileLoop s label c' (← stmt result body)
  | .doLoop s label body c => do
      let body' ← stmt result body
      return .doLoop s label body' (← expr c)
  | .forLoop s label init c post body => do
      let init' ← forInit init
      let c' ← optionalExpr c
      let post' ← optionalExpr post
      return .forLoop s label init' c' post' (← stmt result body)
  | .breakLoop s label => return .breakLoop s label
  | .continueLoop s label => return .continueLoop s label
  | .null s => return .null s

def item (result : IntType) : Item → Checker Item
  | .stmt s => return .stmt (← stmt result s)
  | .decl (.var d) => return .decl (.var (← localVar d))
  | .decl (.prototype h) => do
      function h false
      return .decl (.prototype h)
  | .decl (.function h s body) => do
      function h true
      params h.params
      return .decl (.function h s (← items h.result body))

def items (result : IntType) : List Item → Checker (List Item)
  | [] => return []
  | i :: is => do
      let i' ← item result i
      return i' :: (← items result is)
end

def decl : Decl → Checker Decl
  | .var d => return .var (← fileVar d)
  | .prototype h => do
      function h false
      return .prototype h
  | .function h s body => do
      function h true
      params h.params
      return .function h s (← items h.result body)

def decls : List Decl → Checker (List Decl)
  | [] => return []
  | d :: ds => do
      let d' ← decl d
      return d' :: (← decls ds)

end Checker

/-- Checks a program against a table of names known before it; answers the program with all types
and conversions, and the table with its declarations. -/
def Program.check (p : Program) (symbols : SymbolTable) : Except Fault (Program × SymbolTable) := do
  let (decls, symbols') ← (Checker.decls p.decls).run symbols
  return ({ p with decls := decls }, symbols')

end IntegerC
