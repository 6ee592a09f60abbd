import IntegerC.Syntax

set_option autoImplicit false

/-! # Programs that differ in the spelling of names

Two programs are respellings of each other if they agree in everything but their spans and the names
of parameters and automatic variables, and if each name in use stands for the same declaration in
both. So a new spelling may be that of a function or of a variable of the file scope, where that is
not in use, and it may not be that of another variable in sight that is in use, nor that of another
declaration of the same scope. The names of all other declarations are the same.

Everything here is computed, so that two given programs can be compared.
-/

namespace IntegerC

/-! ## Pairs of spellings -/

/-- The names of the declarations around a place in each of two programs, the innermost scope first
and in each scope the latest declaration first. -/
abbrev Spellings := List (List (String × String))

namespace Spellings

/-- Whether `x` and `y` stand for the same declaration, or neither of them for one and they are the
same name. -/
def same (σ : Spellings) (x y : String) : Bool :=
  -- the first declaration with either name has to have both: neither name is captured
  match σ.flatten.find? fun e => e.1 = x || e.2 = y with
  | some e => e.1 = x && e.2 = y
  | none => x = y

/-- Whether `x` repeats a name of the innermost scope exactly where `y` does. -/
def fits (σ : Spellings) (x y : String) : Bool :=
  (σ.head?.getD []).all fun e => decide (e.1 = x) = decide (e.2 = y)

def declare (σ : Spellings) (x y : String) : Spellings :=
  match σ with
  | [] => [[(x, y)]]
  | frame :: outer => ((x, y) :: frame) :: outer

end Spellings

/-! ## Expressions -/

mutual
/-- Whether an expression is `e` with other spans and with names that stand for the same
declarations. -/
def Expr.respells (σ : Spellings) (e e' : Expr) : Bool :=
  match e with
  | .constant n c =>
      match e' with
      | .constant n' c' => n.type = n'.type && c = c'
      | _ => false
  | .var n x =>
      match e' with
      | .var n' y => n.type = n'.type && σ.same x y
      | _ => false
  | .cast n t a =>
      match e' with
      | .cast n' t' a' => n.type = n'.type && t = t' && a.respells σ a'
      | _ => false
  | .unary n op a =>
      match e' with
      | .unary n' op' a' => n.type = n'.type && op = op' && a.respells σ a'
      | _ => false
  | .binary n op a b =>
      match e' with
      | .binary n' op' a' b' =>
          n.type = n'.type && op = op' && a.respells σ a' && b.respells σ b'
      | _ => false
  | .assignment n a b =>
      match e' with
      | .assignment n' a' b' => n.type = n'.type && a.respells σ a' && b.respells σ b'
      | _ => false
  | .conditional n a b c =>
      match e' with
      | .conditional n' a' b' c' =>
          n.type = n'.type && a.respells σ a' && b.respells σ b' && c.respells σ c'
      | _ => false
  | .call n f es =>
      match e' with
      | .call n' g es' => n.type = n'.type && σ.same f g && Expr.allRespell σ es es'
      | _ => false

def Expr.allRespell (σ : Spellings) (es es' : List Expr) : Bool :=
  match es with
  | [] => es'.isEmpty
  | e :: es =>
      match es' with
      | e' :: es' => e.respells σ e' && Expr.allRespell σ es es'
      | [] => false
end

def Expr.optionRespells (σ : Spellings) : Option Expr → Option Expr → Bool
  | none, none => true
  | some e, some e' => e.respells σ e'
  | _, _ => false

/-! ## Declarations -/

/-- Only a variable without a storage class may have another name. -/
def VarDecl.respells (σ : Spellings) (d d' : VarDecl) : Bool :=
  d.type = d'.type && d.storage = d'.storage && (d.storage = none || d.name = d'.name) &&
    σ.fits d.name d'.name && Expr.optionRespells (σ.declare d.name d'.name) d.init d'.init

def Param.allRespell (σ : Spellings) : List Param → List Param → Bool
  | [], [] => true
  | p :: ps, p' :: ps' =>
      p.type = p'.type && σ.fits p.name p'.name &&
        Param.allRespell (σ.declare p.name p'.name) ps ps'
  | _, _ => false

def Param.spellings (σ : Spellings) (ps ps' : List Param) : Spellings :=
  (ps.zip ps').foldl (fun σ e => σ.declare e.1.name e.2.name) σ

/-- The functions have the same name, and their parameters are in a scope of their own. -/
def FunHeader.respells (σ : Spellings) (h h' : FunHeader) : Bool :=
  h.name = h'.name && h.result = h'.result && h.storage = h'.storage && σ.fits h.name h'.name &&
    Param.allRespell ([] :: σ.declare h.name h'.name) h.params h'.params

/-- The spellings where the bodies of two functions begin. -/
def FunHeader.spellings (σ : Spellings) (h h' : FunHeader) : Spellings :=
  Param.spellings ([] :: σ.declare h.name h'.name) h.params h'.params

def ForInit.respells (σ : Spellings) : ForInit → ForInit → Bool
  | .nothing, .nothing => true
  | .decl d, .decl d' => d.respells σ d'
  | .expr e, .expr e' => e.respells σ e'
  | _, _ => false

def ForInit.spellings (σ : Spellings) : ForInit → ForInit → Spellings
  | .decl d, .decl d' => σ.declare d.name d'.name
  | _, _ => σ

/-- The name that an item of a block or a declaration of the file scope declares. -/
def Decl.name : Decl → String
  | .var d => d.name
  | .prototype h | .function h _ _ => h.name

def Item.spellings (σ : Spellings) : Item → Item → Spellings
  | .decl d, .decl d' => σ.declare d.name d'.name
  | _, _ => σ

/-! ## Statements -/

mutual
/-- Whether a statement is `s` with other spans and other names for the same declarations. -/
def Stmt.respells (σ : Spellings) (s s' : Stmt) : Bool :=
  match s with
  | .ret _ e =>
      match s' with
      | .ret _ e' => e.respells σ e'
      | _ => false
  | .expr _ e =>
      match s' with
      | .expr _ e' => e.respells σ e'
      | _ => false
  | .ifThen _ e yes =>
      match s' with
      | .ifThen _ e' yes' => e.respells σ e' && yes.respells σ yes'
      | _ => false
  | .ifElse _ e yes no =>
      match s' with
      | .ifElse _ e' yes' no' => e.respells σ e' && yes.respells σ yes' && no.respells σ no'
      | _ => false
  | .block _ is =>
      match s' with
      | .block _ is' => Item.allRespell ([] :: σ) is is'
      | _ => false
  | .breakLoop _ l =>
      match s' with
      | .breakLoop _ l' => l = l'
      | _ => false
  | .continueLoop _ l =>
      match s' with
      | .continueLoop _ l' => l = l'
      | _ => false
  | .whileLoop _ l e body =>
      match s' with
      | .whileLoop _ l' e' body' => l = l' && e.respells σ e' && body.respells σ body'
      | _ => false
  | .doLoop _ l body e =>
      match s' with
      | .doLoop _ l' body' e' => l = l' && body.respells σ body' && e.respells σ e'
      | _ => false
  | .forLoop _ l init e post body =>
      match s' with
      | .forLoop _ l' init' e' post' body' =>
          let inner := init.spellings ([] :: σ) init'
          l = l' && init.respells ([] :: σ) init' && Expr.optionRespells inner e e' &&
            Expr.optionRespells inner post post' && body.respells inner body'
      | _ => false
  | .null _ =>
      match s' with
      | .null _ => true
      | _ => false

/-- The same for items of blocks. A function with a body is refused there in any case. -/
def Item.respells (σ : Spellings) (i i' : Item) : Bool :=
  match i with
  | .stmt s =>
      match i' with
      | .stmt s' => s.respells σ s'
      | _ => false
  | .decl (.var d) =>
      match i' with
      | .decl (.var d') => d.respells σ d'
      | _ => false
  | .decl (.prototype h) =>
      match i' with
      | .decl (.prototype h') => h.respells σ h'
      | _ => false
  | .decl (.function h _ body) =>
      match i' with
      | .decl (.function h' _ body') =>
          h.respells σ h' && Item.allRespell (h.spellings σ h') body body'
      | _ => false

def Item.allRespell (σ : Spellings) (is is' : List Item) : Bool :=
  match is with
  | [] => is'.isEmpty
  | i :: is =>
      match is' with
      | i' :: is' => i.respells σ i' && Item.allRespell (i.spellings σ i') is is'
      | [] => false
end

/-! ## Programs -/

/-- The same for declarations of the file scope, whose names are all the same in both programs. -/
def Decl.respells (σ : Spellings) : Decl → Decl → Bool
  | .var d, .var d' =>
      d.name = d'.name && d.type = d'.type && d.storage = d'.storage &&
        Expr.optionRespells (σ.declare d.name d'.name) d.init d'.init
  | .prototype h, .prototype h' => h.respells σ h'
  | .function h _ body, .function h' _ body' =>
      h.respells σ h' && Item.allRespell (h.spellings σ h') body body'
  | _, _ => false

def Decl.allRespell (σ : Spellings) : List Decl → List Decl → Bool
  | [], [] => true
  | d :: ds, d' :: ds' => d.respells σ d' && Decl.allRespell (σ.declare d.name d'.name) ds ds'
  | _, _ => false

/-- The programs differ in nothing but spans and the spelling of parameters and automatic
variables. -/
def Program.Respelled (p p' : Program) : Prop := Decl.allRespell [[]] p.decls p'.decls = true

instance (p p' : Program) : Decidable (p.Respelled p') := inferInstanceAs (Decidable (_ = true))

end IntegerC
