import IntegerC.Proofs.Names
import IntegerC.Proofs.Tree

set_option autoImplicit false

/-! # Lexical scopes

`Program.Scoped` states the rules of scoping. A declaration is visible from its own name to the end
of its scope; the file, each function with its parameters, each block and each `for` header is a
scope. A name in use needs a visible declaration, and a scope repeats a name only if both
declarations have linkage.

The same rules serve a program before and after its local names are made unique. They take a
function `word` that gives back the word that a name was made of: `id` before, `stem` after. So a
use of `x.3` is well scoped if the innermost visible declaration of a name made of `x` is that of
`x.3`.
-/

namespace IntegerC

/-! ## Scopes -/

/-- What a scope knows of a declaration: the declared name, and whether it has linkage. -/
structure Entry where
  name : String
  linked : Bool
deriving Repr, DecidableEq

/-- The declarations in the scopes around a place, the innermost scope first, and in each scope the
latest declaration first. -/
abbrev Scopes := List (List Entry)

namespace Scopes

/-- The innermost visible declaration of a name made of `x`. -/
def visible? (word : String → String) (σ : Scopes) (x : String) : Option Entry :=
  σ.findSome? (·.find? fun d => decide (word d.name = x))

/-- The name `y` may be used: it is the one of the innermost visible declaration of its word. -/
def Uses (word : String → String) (σ : Scopes) (y : String) : Prop :=
  (σ.visible? word (word y)).map Entry.name = some y

/-- The innermost scope may get one more declaration: earlier ones of the same word have linkage,
and then the new one has it too. -/
def Allows (word : String → String) (σ : Scopes) (d : Entry) : Prop :=
  ∀ d' ∈ σ.head?.getD [], word d'.name = word d.name → d'.linked = true ∧ d.linked = true

def declare (σ : Scopes) (d : Entry) : Scopes :=
  match σ with
  | [] => [[d]]
  | frame :: outer => (d :: frame) :: outer

end Scopes

/-! ## Declarations -/

def VarDecl.entry (d : VarDecl) : Entry := ⟨d.name, d.storage = some .external⟩

def Param.after (σ : Scopes) (ps : List Param) : Scopes :=
  ps.foldl (fun σ p => σ.declare ⟨p.name, false⟩) σ

/-- The scopes in which the body of a function begins: its parameters share a scope with it. -/
def FunHeader.inside (σ : Scopes) (h : FunHeader) : Scopes :=
  Param.after ([] :: σ.declare ⟨h.name, true⟩) h.params

def ForInit.after (σ : Scopes) : ForInit → Scopes
  | .decl d => σ.declare d.entry
  | .nothing | .expr _ => σ

def Item.after (σ : Scopes) : Item → Scopes
  | .stmt _ => σ
  | .decl (.var d) => σ.declare d.entry
  | .decl (.prototype h) | .decl (.function h _ _) => σ.declare ⟨h.name, true⟩

def Decl.after (σ : Scopes) : Decl → Scopes
  | .var d => σ.declare ⟨d.name, true⟩
  | .prototype h | .function h _ _ => σ.declare ⟨h.name, true⟩

/-! ## The rules -/

section

variable (word : String → String)

mutual
/-- The names in an expression may be used, and its assignments are to variables. -/
def Expr.Scoped (σ : Scopes) : Expr → Prop
  | .constant _ _ => True
  | .var _ x => σ.Uses word x
  | .cast _ _ a | .unary _ _ a => a.Scoped σ
  | .binary _ _ a b => a.Scoped σ ∧ b.Scoped σ
  | .assignment _ a b => a.Scoped σ ∧ b.Scoped σ ∧ a.isVar = true
  | .conditional _ a b c => a.Scoped σ ∧ b.Scoped σ ∧ c.Scoped σ
  | .call _ f es => Expr.AllScoped σ es ∧ σ.Uses word f

def Expr.AllScoped (σ : Scopes) : List Expr → Prop
  | [] => True
  | e :: es => e.Scoped σ ∧ Expr.AllScoped σ es
end

def Expr.OptionScoped (σ : Scopes) (o : Option Expr) : Prop := ∀ e ∈ o, e.Scoped word σ

/-- A variable of a block, which is visible in its own initializer. The names in the initializer of
an `extern` variable are not looked at. -/
def VarDecl.Scoped (σ : Scopes) (d : VarDecl) : Prop :=
  σ.Allows word d.entry ∧
    (d.storage ≠ some .external → Expr.OptionScoped word (σ.declare d.entry) d.init)

def Param.AllScoped (σ : Scopes) : List Param → Prop
  | [] => True
  | p :: ps => σ.Allows word ⟨p.name, false⟩ ∧ Param.AllScoped (σ.declare ⟨p.name, false⟩) ps

/-- The name of a function and its parameters, which begin a scope. -/
def FunHeader.Scoped (σ : Scopes) (h : FunHeader) : Prop :=
  σ.Allows word ⟨h.name, true⟩ ∧ Param.AllScoped word ([] :: σ.declare ⟨h.name, true⟩) h.params

/-- What stands before the first semicolon of a `for` header, where no storage class may stand. -/
def ForInit.Scoped (σ : Scopes) : ForInit → Prop
  | .nothing => True
  | .decl d => d.storage = none ∧ d.Scoped word σ
  | .expr e => e.Scoped word σ

mutual
/-- A statement. A block is a scope, and so is a `for` statement from its header on. -/
def Stmt.Scoped (σ : Scopes) : Stmt → Prop
  | .ret _ e | .expr _ e => e.Scoped word σ
  | .ifThen _ e yes => e.Scoped word σ ∧ yes.Scoped σ
  | .ifElse _ e yes no => e.Scoped word σ ∧ yes.Scoped σ ∧ no.Scoped σ
  | .block _ is => Item.AllScoped ([] :: σ) is
  | .whileLoop _ _ e body | .doLoop _ _ body e => e.Scoped word σ ∧ body.Scoped σ
  | .forLoop _ _ init e post body =>
      init.Scoped word ([] :: σ) ∧ Expr.OptionScoped word (init.after ([] :: σ)) e ∧
        Expr.OptionScoped word (init.after ([] :: σ)) post ∧ body.Scoped (init.after ([] :: σ))
  | .breakLoop _ _ | .continueLoop _ _ | .null _ => True

/-- An item of a block. A function is not defined there, and not declared `static`. -/
def Item.Scoped (σ : Scopes) : Item → Prop
  | .stmt s => s.Scoped σ
  | .decl (.var d) => d.Scoped word σ
  | .decl (.prototype h) => h.storage ≠ some .static ∧ h.Scoped word σ
  | .decl (.function _ _ _) => False

/-- The items of a block, each in the scopes after those before it. -/
def Item.AllScoped (σ : Scopes) : List Item → Prop
  | [] => True
  | i :: is => i.Scoped σ ∧ Item.AllScoped (i.after σ) is
end

/-- A declaration of the file scope. A function has one scope for its parameters and its body. -/
def Decl.Scoped (σ : Scopes) : Decl → Prop
  | .var d => σ.Allows word ⟨d.name, true⟩
  | .prototype h => h.Scoped word σ
  | .function h _ body => h.Scoped word σ ∧ Item.AllScoped word (h.inside σ) body

def Decl.AllScoped (σ : Scopes) : List Decl → Prop
  | [] => True
  | d :: ds => d.Scoped word σ ∧ Decl.AllScoped (d.after σ) ds

/-- A program that keeps the rules of scoping. -/
def Program.Scoped (p : Program) : Prop := Decl.AllScoped word [[]] p.decls

end

/-! ## Names in trees -/

section

variable (f : String → String)

mutual
/-- The expression with each name replaced by what `f` makes of it. -/
def Expr.mapNames : Expr → Expr
  | .constant n c => .constant n c
  | .var n x => .var n (f x)
  | .cast n t a => .cast n t a.mapNames
  | .unary n op a => .unary n op a.mapNames
  | .binary n op a b => .binary n op a.mapNames b.mapNames
  | .assignment n a b => .assignment n a.mapNames b.mapNames
  | .conditional n a b c => .conditional n a.mapNames b.mapNames c.mapNames
  | .call n g es => .call n (f g) (Expr.mapAllNames es)

def Expr.mapAllNames : List Expr → List Expr
  | [] => []
  | e :: es => e.mapNames :: Expr.mapAllNames es
end

def VarDecl.mapNames (d : VarDecl) : VarDecl :=
  { d with name := f d.name, init := d.init.map (Expr.mapNames f) }

def Param.mapName (p : Param) : Param := { p with name := f p.name }

def FunHeader.mapNames (h : FunHeader) : FunHeader :=
  { h with name := f h.name, params := h.params.map (Param.mapName f) }

def ForInit.mapNames : ForInit → ForInit
  | .nothing => .nothing
  | .decl d => .decl (d.mapNames f)
  | .expr e => .expr (e.mapNames f)

mutual
def Stmt.mapNames : Stmt → Stmt
  | .ret s e => .ret s (e.mapNames f)
  | .expr s e => .expr s (e.mapNames f)
  | .ifThen s e yes => .ifThen s (e.mapNames f) yes.mapNames
  | .ifElse s e yes no => .ifElse s (e.mapNames f) yes.mapNames no.mapNames
  | .block s is => .block s (Item.mapAllNames is)
  | .breakLoop s l => .breakLoop s l
  | .continueLoop s l => .continueLoop s l
  | .whileLoop s l e body => .whileLoop s l (e.mapNames f) body.mapNames
  | .doLoop s l body e => .doLoop s l body.mapNames (e.mapNames f)
  | .forLoop s l init e post body =>
      .forLoop s l (init.mapNames f) (e.map (Expr.mapNames f)) (post.map (Expr.mapNames f))
        body.mapNames
  | .null s => .null s

def Item.mapNames : Item → Item
  | .stmt s => .stmt s.mapNames
  | .decl d => .decl d.mapNames

def Decl.mapNames : Decl → Decl
  | .var d => .var (d.mapNames f)
  | .prototype h => .prototype (h.mapNames f)
  | .function h s body => .function (h.mapNames f) s (Item.mapAllNames body)

def Item.mapAllNames : List Item → List Item
  | [] => []
  | i :: is => i.mapNames :: Item.mapAllNames is
end

def Program.mapNames (p : Program) : Program := { p with decls := p.decls.map (Decl.mapNames f) }

def Part.mapNames : Part → Part
  | .span s => .span s
  | .loop l => .loop l
  | .expr e => .expr (e.mapNames f)
  | .var d => .var (d.mapNames f)
  | .fileVar d => .fileVar (d.mapNames f)
  | .prototype h => .prototype (h.mapNames f)
  | .function h => .function (h.mapNames f)

theorem Part.optional_mapNames (o : Option Expr) :
    Part.optional (o.map (Expr.mapNames f)) = (Part.optional o).map (Part.mapNames f) := by
  cases o <;> rfl

theorem ForInit.parts_mapNames (i : ForInit) :
    (i.mapNames f).parts = i.parts.map (Part.mapNames f) := by
  cases i <;> rfl

mutual
theorem Stmt.parts_mapNames :
    (s : Stmt) → (s.mapNames f).parts = s.parts.map (Part.mapNames f)
  | .ret _ _ | .expr _ _ | .breakLoop _ _ | .continueLoop _ _ | .null _ => rfl
  | .ifThen _ _ yes => by simp [Stmt.parts, Stmt.mapNames, Part.mapNames, yes.parts_mapNames]
  | .ifElse _ _ yes no => by
      simp [Stmt.parts, Stmt.mapNames, Part.mapNames, yes.parts_mapNames, no.parts_mapNames]
  | .block _ is => by simp [Stmt.parts, Stmt.mapNames, Part.mapNames, Item.allParts_mapNames is]
  | .whileLoop _ _ _ body | .doLoop _ _ body _ => by
      simp [Stmt.parts, Stmt.mapNames, Part.mapNames, body.parts_mapNames]
  | .forLoop _ _ _ _ _ body => by
      simp [Stmt.parts, Stmt.mapNames, Part.mapNames, ForInit.parts_mapNames,
        Part.optional_mapNames, body.parts_mapNames]
termination_by structural s => s

theorem Item.parts_mapNames :
    (i : Item) → (i.mapNames f).parts = i.parts.map (Part.mapNames f)
  | .stmt s => s.parts_mapNames
  | .decl (.var _) | .decl (.prototype _) => rfl
  | .decl (.function _ _ body) => by
      simp [Item.parts, Item.mapNames, Decl.mapNames, Part.mapNames, Item.allParts_mapNames body]
termination_by structural i => i

theorem Item.allParts_mapNames :
    (is : List Item) →
      Item.allParts (Item.mapAllNames f is) = (Item.allParts is).map (Part.mapNames f)
  | [] => rfl
  | i :: is => by
      rw [Item.mapAllNames, Item.allParts, Item.allParts, i.parts_mapNames,
        Item.allParts_mapNames is, List.map_append]
termination_by structural is => is
end

theorem Decl.parts_mapNames (d : Decl) :
    (d.mapNames f).parts = d.parts.map (Part.mapNames f) := by
  cases d with
  | var _ | prototype _ => rfl
  | function h s body => simp [parts, mapNames, Part.mapNames, Item.allParts_mapNames]

theorem Part.locals_mapNames (x : Part) : (x.mapNames f).locals = x.locals.map f := by
  cases x with
  | var d =>
      simp only [mapNames, locals, VarDecl.mapNames]
      split <;> rfl
  | prototype h | function h =>
      simp [mapNames, locals, FunHeader.mapNames, FunHeader.paramNames, Param.mapName]
  | _ => rfl

theorem Part.linked_mapNames (x : Part) : (x.mapNames f).linked = x.linked.map f := by
  cases x with
  | var d =>
      simp only [mapNames, linked, VarDecl.mapNames]
      split <;> rfl
  | _ => rfl

end

/-! ## Names of a program -/

/-- The names of the parameters and of the variables without linkage in a program. -/
def Program.localNames (p : Program) : List String := p.parts.flatMap Part.locals

def Program.linkedNames (p : Program) : List String := p.parts.flatMap Part.linked

theorem Program.parts_mapNames (f : String → String) (p : Program) :
    (p.mapNames f).parts = p.parts.map (Part.mapNames f) := by
  simp only [parts, mapNames, List.flatMap_map, List.map_flatMap, Decl.parts_mapNames]

theorem Program.linkedNames_mapNames (f : String → String) (p : Program) :
    (p.mapNames f).linkedNames = p.linkedNames.map f := by
  simp only [linkedNames, parts_mapNames, List.flatMap_map, List.map_flatMap,
    Part.linked_mapNames]

theorem Program.localNames_mapNames (f : String → String) (p : Program) :
    (p.mapNames f).localNames = p.localNames.map f := by
  simp only [localNames, parts_mapNames, List.flatMap_map, List.map_flatMap,
    Part.locals_mapNames]

end IntegerC
