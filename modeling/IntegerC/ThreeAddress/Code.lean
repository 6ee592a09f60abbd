import IntegerC.ThreeAddress.ExprCode

set_option autoImplicit false

/-! # Code for statements, functions and programs

Statements become straight code with labels and jumps. A loop labelled `l` continues at
`continue_l`, ends at `break_l`, and begins at `start_l` if it does not begin where it continues.
A program is its functions, in order, followed by its static variables in the order of the symbol
table.
-/

namespace IntegerC.ThreeAddress

/-- The label behind the loop labelled `loop`. -/
def breakLabel (loop : String) : String := s!"break_{loop}"

/-- The label from which the loop labelled `loop` goes on. -/
def continueLabel (loop : String) : String := s!"continue_{loop}"

/-- The label at which the loop labelled `loop` begins. -/
def startLabel (loop : String) : String := s!"start_{loop}"

namespace Coder

/-! ## Declarations in blocks -/

/-- Code for a variable of a block. Only the initializer of an automatic variable needs code. -/
def localVar (d : VarDecl) : Coder (List Instr) := do
  match d.storage, d.init with
  | none, some init =>
      let e ← expr init
      return e.code ++ [.copy e.value (.var d.name)]
  | _, _ => return []

def forInit : ForInit → Coder (List Instr)
  | .nothing => return []
  | .decl d => localVar d
  | .expr e => return (← expr e).code

/-- The label of a loop, or of the loop around a jump. -/
def loopLabel (span : Span) (label : Option String) : Coder String :=
  match label with
  | some l => return l
  | none => throw (Cause.unlabelledLoop.at span)

/-- Code that leaves for `target` if the condition of a `for` loop is there and does not hold. -/
def exitTest (target : String) : Option Expr → Coder (List Instr)
  | none => return []
  | some e => do
      let c ← expr e
      return c.code ++ [.jumpIfZero c.value target]

/-- Code for the last expression of a `for` header. -/
def step : Option Expr → Coder (List Instr)
  | none => return []
  | some e => return (← expr e).code

/-! ## Statements -/

mutual
def stmt : Stmt → Coder (List Instr)
  | .ret _ e => do
      let v ← expr e
      return v.code ++ [.ret v.value]
  | .expr _ e => return (← expr e).code
  | .ifThen _ c yes => do
      let c' ← expr c
      let finish ← label "if_end"
      let yes' ← stmt yes
      return c'.code ++ [.jumpIfZero c'.value finish] ++ yes' ++ [.label finish]
  | .ifElse _ c yes no => do
      let c' ← expr c
      let finish ← label "if_end"
      let other ← label "if_else"
      let yes' ← stmt yes
      let no' ← stmt no
      return c'.code ++ [.jumpIfZero c'.value other] ++ yes' ++ [.jump finish, .label other] ++
        no' ++ [.label finish]
  | .block _ is => items is
  | .breakLoop span loop => return [.jump (breakLabel (← loopLabel span loop))]
  | .continueLoop span loop => return [.jump (continueLabel (← loopLabel span loop))]
  | .doLoop span loop body c => do
      let l ← loopLabel span loop
      let c' ← expr c
      let body' ← stmt body
      -- `continue` goes on with the condition
      return [.label (startLabel l)] ++ body' ++ [.label (continueLabel l)] ++ c'.code ++
        [.jumpIfNotZero c'.value (startLabel l), .label (breakLabel l)]
  | .whileLoop span loop c body => do
      let l ← loopLabel span loop
      let c' ← expr c
      let body' ← stmt body
      -- `continue` goes back to the head, where the condition is
      return [.label (continueLabel l)] ++ c'.code ++ [.jumpIfZero c'.value (breakLabel l)] ++
        body' ++ [.jump (continueLabel l), .label (breakLabel l)]
  | .forLoop span loop init c post body => do
      let l ← loopLabel span loop
      let init' ← forInit init
      let test ← exitTest (breakLabel l) c
      let body' ← stmt body
      let post' ← step post
      -- `continue` goes on with the last expression of the header
      return init' ++ [.label (startLabel l)] ++ test ++ body' ++ [.label (continueLabel l)] ++
        post' ++ [.jump (startLabel l), .label (breakLabel l)]
  | .null _ => return []

def item : Item → Coder (List Instr)
  | .stmt s => stmt s
  | .decl (.var d) => localVar d
  | .decl _ => return []

def items : List Item → Coder (List Instr)
  | [] => return []
  | i :: is => do
      let i' ← item i
      return i' ++ (← items is)
end

/-! ## Functions -/

/-- A function. One whose body is left at its end returns zero. -/
def function (h : FunHeader) (body : List Item) : Coder Function := do
  match ((← get).symbols.find? h.name).map Symbol.attributes with
  | some (.function _ global) =>
      let code ← items body
      return ⟨h.name, global, h.params.map Param.name, code ++ [.ret (intValue 0)]⟩
  | _ => throw ((Cause.unknownFunction h.name).at h.span)

def functions : List Decl → Coder (List Function)
  | [] => return []
  | .function h _ body :: ds => do
      let f ← function h body
      return f :: (← functions ds)
  | _ :: ds => functions ds

end Coder

/-! ## Programs -/

/-- The static variable that a symbol stands for, unless its storage is elsewhere. -/
def StaticVar.ofSymbol? (name : String) (s : Symbol) : Option StaticVar :=
  match s with
  | ⟨.integer t, .static .tentative global⟩ => some ⟨name, global, t, .zero t⟩
  | ⟨.integer t, .static (.initial c) global⟩ => some ⟨name, global, t, c⟩
  | _ => none

/-- The static variables of a symbol table, in its order. -/
def staticVars (t : SymbolTable) : List StaticVar :=
  t.filterMap (fun e => StaticVar.ofSymbol? e.1 e.2)

/-- The three-address code of a checked program, and the symbol table with its temporaries. -/
def Program.ofChecked (p : IntegerC.Program) (symbols : SymbolTable) :
    Except Fault (Program × SymbolTable) := do
  let (functions, supply) ← (Coder.functions p.decls).run ⟨symbols, 0, 0⟩
  return (⟨functions.map .function ++ (staticVars supply.symbols).map .static⟩, supply.symbols)

end IntegerC.ThreeAddress
