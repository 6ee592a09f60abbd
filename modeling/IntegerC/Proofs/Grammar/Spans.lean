import IntegerC.Syntax

set_option autoImplicit false

/-! # Trees without spans

Two trees are equal up to spans if they are equal once every span is left out.
-/

namespace IntegerC

def Span.nowhere : Span := ⟨.origin, .origin⟩

def Note.bare (n : Note) : Note := { n with span := .nowhere }

mutual
def Expr.bare : Expr → Expr
  | .constant n k => .constant n.bare k
  | .var n x => .var n.bare x
  | .cast n t a => .cast n.bare t a.bare
  | .unary n op a => .unary n.bare op a.bare
  | .binary n op a b => .binary n.bare op a.bare b.bare
  | .assignment n a b => .assignment n.bare a.bare b.bare
  | .conditional n a b c => .conditional n.bare a.bare b.bare c.bare
  | .call n f es => .call n.bare f (Expr.allBare es)

def Expr.allBare : List Expr → List Expr
  | [] => []
  | e :: es => e.bare :: Expr.allBare es
end

theorem Expr.allBare_eq_map (es : List Expr) : Expr.allBare es = es.map Expr.bare := by
  induction es with
  | nil => rfl
  | cons e es ih => rw [Expr.allBare, ih, List.map_cons]

def VarDecl.bare (d : VarDecl) : VarDecl :=
  { d with span := .nowhere, init := d.init.map Expr.bare }

def Param.bare (p : Param) : Param := { p with span := .nowhere }

def FunHeader.bare (h : FunHeader) : FunHeader :=
  { h with span := .nowhere, params := h.params.map Param.bare }

def ForInit.bare : ForInit → ForInit
  | .nothing => .nothing
  | .decl d => .decl d.bare
  | .expr e => .expr e.bare

mutual
def Stmt.bare : Stmt → Stmt
  | .ret _ e => .ret .nowhere e.bare
  | .expr _ e => .expr .nowhere e.bare
  | .ifThen _ c yes => .ifThen .nowhere c.bare yes.bare
  | .ifElse _ c yes no => .ifElse .nowhere c.bare yes.bare no.bare
  | .block _ is => .block .nowhere (Item.allBare is)
  | .breakLoop _ l => .breakLoop .nowhere l
  | .continueLoop _ l => .continueLoop .nowhere l
  | .whileLoop _ l c body => .whileLoop .nowhere l c.bare body.bare
  | .doLoop _ l body c => .doLoop .nowhere l body.bare c.bare
  | .forLoop _ l init c post body =>
      .forLoop .nowhere l init.bare (c.map Expr.bare) (post.map Expr.bare) body.bare
  | .null _ => .null .nowhere

def Item.bare : Item → Item
  | .stmt s => .stmt s.bare
  | .decl d => .decl d.bare

def Item.allBare : List Item → List Item
  | [] => []
  | i :: is => i.bare :: Item.allBare is

def Decl.bare : Decl → Decl
  | .var d => .var d.bare
  | .prototype h => .prototype h.bare
  | .function h _ body => .function h.bare .nowhere (Item.allBare body)
end

theorem Item.allBare_eq_map (is : List Item) : Item.allBare is = is.map Item.bare := by
  induction is with
  | nil => rfl
  | cons i is ih => rw [Item.allBare, ih, List.map_cons]

def Program.bare (p : Program) : Program := ⟨.nowhere, p.decls.map Decl.bare⟩

end IntegerC
