import IntegerC.Syntax
import Mathlib.Data.List.Forall2

set_option autoImplicit false

/-! # Trees that are alike up to names

Between the passes two respelled programs are compared by a relation `V` between the names of one
and the names of the other, and a relation `F` between the names that they call. Trees are alike if
they agree in everything but spans, and in names up to these relations. Once every name is unique,
the same relations serve a whole program.
-/

namespace IntegerC

section

variable (V F : String → String → Prop)

/-! ## Expressions -/

mutual
/-- Expressions that agree up to spans and the names that stand in them. -/
def Expr.Like : Expr → Expr → Prop
  | .constant n c, e' => ∃ n', e' = .constant n' c ∧ n'.type = n.type
  | .var n x, e' => ∃ n' y, e' = .var n' y ∧ n'.type = n.type ∧ V x y
  | .cast n t a, e' => ∃ n' a', e' = .cast n' t a' ∧ n'.type = n.type ∧ a.Like a'
  | .unary n op a, e' => ∃ n' a', e' = .unary n' op a' ∧ n'.type = n.type ∧ a.Like a'
  | .binary n op a b, e' =>
      ∃ n' a' b', e' = .binary n' op a' b' ∧ n'.type = n.type ∧ a.Like a' ∧ b.Like b'
  | .assignment n a b, e' =>
      ∃ n' a' b', e' = .assignment n' a' b' ∧ n'.type = n.type ∧ a.Like a' ∧ b.Like b'
  | .conditional n a b c, e' =>
      ∃ n' a' b' c', e' = .conditional n' a' b' c' ∧ n'.type = n.type ∧
        a.Like a' ∧ b.Like b' ∧ c.Like c'
  | .call n f es, e' =>
      ∃ n' g es', e' = .call n' g es' ∧ n'.type = n.type ∧ F f g ∧ Expr.AllLike es es'

def Expr.AllLike : List Expr → List Expr → Prop
  | [], es' => es' = []
  | e :: es, l => ∃ e' es', l = e' :: es' ∧ e.Like e' ∧ Expr.AllLike es es'
end

/-- What the roots of alike expressions have in common. -/
theorem Expr.Like.root_eq {V F : String → String → Prop} {e e' : Expr} (h : e.Like V F e') :
    e'.isVar = e.isVar ∧ e'.type = e.type := by
  cases e with
  | constant n c =>
      obtain ⟨n', rfl, hn⟩ := h
      exact ⟨rfl, hn⟩
  | var n x =>
      obtain ⟨n', y, rfl, hn, -⟩ := h
      exact ⟨rfl, hn⟩
  | cast n t a =>
      obtain ⟨n', a', rfl, hn, -⟩ := h
      exact ⟨rfl, hn⟩
  | unary n op a =>
      obtain ⟨n', a', rfl, hn, -⟩ := h
      exact ⟨rfl, hn⟩
  | binary n op a b =>
      obtain ⟨n', a', b', rfl, hn, -⟩ := h
      exact ⟨rfl, hn⟩
  | assignment n a b =>
      obtain ⟨n', a', b', rfl, hn, -⟩ := h
      exact ⟨rfl, hn⟩
  | conditional n a b c =>
      obtain ⟨n', a', b', c', rfl, hn, -⟩ := h
      exact ⟨rfl, hn⟩
  | call n f es =>
      obtain ⟨n', g, es', rfl, hn, -⟩ := h
      exact ⟨rfl, hn⟩

def Expr.OptionLike : Option Expr → Option Expr → Prop
  | none, o => o = none
  | some e, o => ∃ e', o = some e' ∧ e.Like V F e'

theorem Expr.OptionLike.isSome_eq {V F : String → String → Prop} {o o' : Option Expr}
    (h : OptionLike V F o o') : o'.isSome = o.isSome := by
  cases o with
  | none => rw [show o' = none from h]
  | some e =>
      obtain ⟨e', rfl, -⟩ := h
      rfl

/-! ## Declarations -/

/-- Variables of a block. Those with a storage class have the same name; of the initializer of an
`extern` variable it only matters whether it is there. -/
structure VarDecl.Like (d d' : VarDecl) : Prop where
  type : d'.type = d.type
  storage : d'.storage = d.storage
  name : V d.name d'.name
  fixed : d.storage ≠ none → d'.name = d.name
  init : d.storage ≠ some .external → Expr.OptionLike V F d.init d'.init
  given : d'.init.isSome = d.init.isSome

/-- Variables of the file scope, whose initializers are compared in their shape only. -/
structure VarDecl.FileLike (d d' : VarDecl) : Prop where
  type : d'.type = d.type
  storage : d'.storage = d.storage
  name : d'.name = d.name
  known : V d.name d.name
  init : Expr.OptionLike (fun _ _ => True) (fun _ _ => True) d.init d'.init

structure Param.Like (p p' : Param) : Prop where
  type : p'.type = p.type
  name : V p.name p'.name

theorem Param.types_eq {V : String → String → Prop} {ps ps' : List Param}
    (h : List.Forall₂ (Param.Like V) ps ps') : ps'.map Param.type = ps.map Param.type := by
  induction h with
  | nil => rfl
  | cons hp _ ih => rw [List.map_cons, List.map_cons, hp.type, ih]

/-- Functions without their bodies, and without the names of their parameters, which only matter in
a body. -/
structure FunHeader.Like (h h' : FunHeader) : Prop where
  name : h'.name = h.name
  known : V h.name h.name
  result : h'.result = h.result
  storage : h'.storage = h.storage
  types : h'.params.map Param.type = h.params.map Param.type

def ForInit.Like : ForInit → ForInit → Prop
  | .nothing, i' => i' = .nothing
  | .decl d, i' => ∃ d', i' = .decl d' ∧ d.Like V F d'
  | .expr e, i' => ∃ e', i' = .expr e' ∧ e.Like V F e'

/-! ## Statements -/

mutual
/-- Statements that agree up to spans and the names that stand in them. -/
def Stmt.Like : Stmt → Stmt → Prop
  | .ret _ e, s' => ∃ p e', s' = .ret p e' ∧ e.Like V F e'
  | .expr _ e, s' => ∃ p e', s' = .expr p e' ∧ e.Like V F e'
  | .ifThen _ e yes, s' => ∃ p e' yes', s' = .ifThen p e' yes' ∧ e.Like V F e' ∧ yes.Like yes'
  | .ifElse _ e yes no, s' =>
      ∃ p e' yes' no', s' = .ifElse p e' yes' no' ∧ e.Like V F e' ∧ yes.Like yes' ∧ no.Like no'
  | .block _ is, s' => ∃ p is', s' = .block p is' ∧ Item.AllLike is is'
  | .breakLoop _ l, s' => ∃ p, s' = .breakLoop p l
  | .continueLoop _ l, s' => ∃ p, s' = .continueLoop p l
  | .whileLoop _ l e body, s' =>
      ∃ p e' body', s' = .whileLoop p l e' body' ∧ e.Like V F e' ∧ body.Like body'
  | .doLoop _ l body e, s' =>
      ∃ p body' e', s' = .doLoop p l body' e' ∧ body.Like body' ∧ e.Like V F e'
  | .forLoop _ l init e post body, s' =>
      ∃ p init' e' post' body', s' = .forLoop p l init' e' post' body' ∧ init.Like V F init' ∧
        Expr.OptionLike V F e e' ∧ Expr.OptionLike V F post post' ∧ body.Like body'
  | .null _, s' => ∃ p, s' = .null p

/-- Items of blocks, among which there are no functions with a body. -/
def Item.Like : Item → Item → Prop
  | .stmt s, i' => ∃ s', i' = .stmt s' ∧ s.Like s'
  | .decl (.var d), i' => ∃ d', i' = .decl (.var d') ∧ d.Like V F d'
  | .decl (.prototype h), i' => ∃ h', i' = .decl (.prototype h') ∧ h.Like V h'
  | .decl (.function _ _ _), _ => False

def Item.AllLike : List Item → List Item → Prop
  | [], is' => is' = []
  | i :: is, l => ∃ i' is', l = i' :: is' ∧ i.Like i' ∧ Item.AllLike is is'
end

def Decl.Like : Decl → Decl → Prop
  | .var d, d' => ∃ e, d' = .var e ∧ d.FileLike V e
  | .prototype h, d' => ∃ h', d' = .prototype h' ∧ h.Like V h'
  | .function h _ body, d' =>
      ∃ h' p body', d' = .function h' p body' ∧ h.Like V h' ∧
        List.Forall₂ (Param.Like V) h.params h'.params ∧ Item.AllLike V F body body'

def Program.Like (p p' : Program) : Prop := List.Forall₂ (Decl.Like V F) p.decls p'.decls

end

/-! ## Weaker relations -/

section

variable {V F V' F' : String → String → Prop}

mutual
/-- What is alike stays alike if more names correspond. -/
theorem Expr.Like.mono (hV : ∀ x y, V x y → V' x y) (hF : ∀ x y, F x y → F' x y) :
    ∀ {e e' : Expr}, e.Like V F e' → e.Like V' F' e'
  | .constant _ _, _, h => h
  | .var _ _, _, ⟨n', y, he, hn, hx⟩ => ⟨n', y, he, hn, hV _ _ hx⟩
  | .cast _ _ _, _, ⟨n', a', he, hn, ha⟩ => ⟨n', a', he, hn, ha.mono hV hF⟩
  | .unary _ _ _, _, ⟨n', a', he, hn, ha⟩ => ⟨n', a', he, hn, ha.mono hV hF⟩
  | .binary _ _ _ _, _, ⟨n', a', b', he, hn, ha, hb⟩ =>
      ⟨n', a', b', he, hn, ha.mono hV hF, hb.mono hV hF⟩
  | .assignment _ _ _, _, ⟨n', a', b', he, hn, ha, hb⟩ =>
      ⟨n', a', b', he, hn, ha.mono hV hF, hb.mono hV hF⟩
  | .conditional _ _ _ _, _, ⟨n', a', b', c', he, hn, ha, hb, hc⟩ =>
      ⟨n', a', b', c', he, hn, ha.mono hV hF, hb.mono hV hF, hc.mono hV hF⟩
  | .call _ _ _, _, ⟨n', g, es', he, hn, hf, hes⟩ =>
      ⟨n', g, es', he, hn, hF _ _ hf, hes.mono hV hF⟩

theorem Expr.AllLike.mono (hV : ∀ x y, V x y → V' x y) (hF : ∀ x y, F x y → F' x y) :
    ∀ {es es' : List Expr}, AllLike V F es es' → AllLike V' F' es es'
  | [], _, h => h
  | _ :: _, _, ⟨e', es', hl, he, hes⟩ => ⟨e', es', hl, he.mono hV hF, hes.mono hV hF⟩
end

theorem Expr.OptionLike.mono (hV : ∀ x y, V x y → V' x y) (hF : ∀ x y, F x y → F' x y) :
    ∀ {o o' : Option Expr}, OptionLike V F o o' → OptionLike V' F' o o'
  | none, _, h => h
  | some _, _, ⟨e', ho, he⟩ => ⟨e', ho, he.mono hV hF⟩

theorem VarDecl.Like.mono (hV : ∀ x y, V x y → V' x y) (hF : ∀ x y, F x y → F' x y)
    {d d' : VarDecl} (h : d.Like V F d') : d.Like V' F' d' where
  type := h.type
  storage := h.storage
  name := hV _ _ h.name
  fixed := h.fixed
  init hs := (h.init hs).mono hV hF
  given := h.given

theorem Param.Like.mono (hV : ∀ x y, V x y → V' x y) {p p' : Param} (h : p.Like V p') :
    p.Like V' p' :=
  ⟨h.type, hV _ _ h.name⟩

theorem FunHeader.Like.mono (hV : ∀ x y, V x y → V' x y) {h h' : FunHeader} (hh : h.Like V h') :
    h.Like V' h' where
  name := hh.name
  known := hV _ _ hh.known
  result := hh.result
  storage := hh.storage
  types := hh.types

theorem ForInit.Like.mono (hV : ∀ x y, V x y → V' x y) (hF : ∀ x y, F x y → F' x y) :
    ∀ {i i' : ForInit}, i.Like V F i' → i.Like V' F' i'
  | .nothing, _, h => h
  | .decl _, _, ⟨d', hi, hd⟩ => ⟨d', hi, hd.mono hV hF⟩
  | .expr _, _, ⟨e', hi, he⟩ => ⟨e', hi, he.mono hV hF⟩

mutual
/-- By induction on the statement, from the same fact about its expressions. -/
theorem Stmt.Like.mono (hV : ∀ x y, V x y → V' x y) (hF : ∀ x y, F x y → F' x y) :
    ∀ {s s' : Stmt}, s.Like V F s' → s.Like V' F' s'
  | .ret _ _, _, ⟨p, e', hs, he⟩ => ⟨p, e', hs, he.mono hV hF⟩
  | .expr _ _, _, ⟨p, e', hs, he⟩ => ⟨p, e', hs, he.mono hV hF⟩
  | .ifThen _ _ _, _, ⟨p, e', yes', hs, he, hy⟩ =>
      ⟨p, e', yes', hs, he.mono hV hF, hy.mono hV hF⟩
  | .ifElse _ _ _ _, _, ⟨p, e', yes', no', hs, he, hy, hn⟩ =>
      ⟨p, e', yes', no', hs, he.mono hV hF, hy.mono hV hF, hn.mono hV hF⟩
  | .block _ _, _, ⟨p, is', hs, his⟩ => ⟨p, is', hs, his.mono hV hF⟩
  | .breakLoop _ _, _, h | .continueLoop _ _, _, h | .null _, _, h => h
  | .whileLoop _ _ _ _, _, ⟨p, e', body', hs, he, hb⟩ =>
      ⟨p, e', body', hs, he.mono hV hF, hb.mono hV hF⟩
  | .doLoop _ _ _ _, _, ⟨p, body', e', hs, hb, he⟩ =>
      ⟨p, body', e', hs, hb.mono hV hF, he.mono hV hF⟩
  | .forLoop _ _ _ _ _ _, _, ⟨p, init', e', post', body', hs, hi, he, hp, hb⟩ =>
      ⟨p, init', e', post', body', hs, hi.mono hV hF, he.mono hV hF, hp.mono hV hF,
        hb.mono hV hF⟩

theorem Item.Like.mono (hV : ∀ x y, V x y → V' x y) (hF : ∀ x y, F x y → F' x y) :
    ∀ {i i' : Item}, i.Like V F i' → i.Like V' F' i'
  | .stmt _, _, ⟨s', hi, hs⟩ => ⟨s', hi, hs.mono hV hF⟩
  | .decl (.var _), _, ⟨d', hi, hd⟩ => ⟨d', hi, hd.mono hV hF⟩
  | .decl (.prototype _), _, ⟨h', hi, hh⟩ => ⟨h', hi, hh.mono hV⟩

theorem Item.AllLike.mono (hV : ∀ x y, V x y → V' x y) (hF : ∀ x y, F x y → F' x y) :
    ∀ {is is' : List Item}, Item.AllLike V F is is' → Item.AllLike V' F' is is'
  | [], _, h => h
  | _ :: _, _, ⟨i', is', hl, hi, his⟩ => ⟨i', is', hl, hi.mono hV hF, his.mono hV hF⟩
end

theorem Decl.Like.mono (hV : ∀ x y, V x y → V' x y) (hF : ∀ x y, F x y → F' x y) :
    ∀ {d d' : Decl}, d.Like V F d' → d.Like V' F' d'
  | .var _, _, ⟨e, hd, he⟩ => ⟨e, hd, he.type, he.storage, he.name, hV _ _ he.known, he.init⟩
  | .prototype _, _, ⟨h', hd, hh⟩ => ⟨h', hd, hh.mono hV⟩
  | .function _ _ _, _, ⟨h', p, body', hd, hh, hps, hb⟩ =>
      ⟨h', p, body', hd, hh.mono hV, hps.imp fun _ _ hp => hp.mono hV, hb.mono hV hF⟩

end

end IntegerC
