import IntegerC.Proofs.Checking
import Mathlib.Data.List.Forall2

set_option autoImplicit false

/-! # Sound and minimal elaboration

The rules of `Program.Elaborates` say what a program may become when its types are written down: a
node gets its type and is otherwise left alone, a conversion becomes a cast where an operand, an
assigned value, an arm, an argument, a result or an initializer has another type than it should
have, and the initializer of a static object becomes a constant. The rules read the types of names
off a symbol table. What they lead to is typed in that table.
-/

namespace IntegerC

/-! ## Expressions -/

namespace Expr

/-- An expression of type `σ` where type `τ` is asked for: it stays as it is, or it becomes the
operand of a cast if the types differ. -/
inductive Converted (σ τ : IntType) (e : Expr) : Expr → Prop
  | same (h : σ = τ) : Converted σ τ e e
  | cast (h : σ ≠ τ) : Converted σ τ e (.cast ⟨e.span, some τ⟩ τ e)

mutual
/-- The second expression is the first one with its types, and has the type at the end. -/
inductive Elaborates (t : SymbolTable) : Expr → Expr → IntType → Prop
  | constant {n : Note} {c : Constant} :
      Elaborates t (constant n c) (constant ⟨n.span, some c.type⟩ c) c.type
  | var {n : Note} {x : String} {τ : IntType} (hx : t.typeOf? x = some (.integer τ)) :
      Elaborates t (var n x) (var ⟨n.span, some τ⟩ x) τ
  | cast {n : Note} {τ σ : IntType} {a a' : Expr} (ha : Elaborates t a a' σ) :
      Elaborates t (cast n τ a) (cast ⟨n.span, some τ⟩ τ a') τ
  | unary {n : Note} {op : UnaryOp} {τ : IntType} {a a' : Expr} (hop : op ≠ .not)
      (ha : Elaborates t a a' τ) : Elaborates t (unary n op a) (unary ⟨n.span, some τ⟩ op a') τ
  | not {n : Note} {σ : IntType} {a a' : Expr} (ha : Elaborates t a a' σ) :
      Elaborates t (unary n .not a) (unary ⟨n.span, some .int⟩ .not a') .int
  /-- the operands meet in their common type -/
  | arith {n : Note} {op : ArithOp} {σ ρ : IntType} {a a' a'' b b' b'' : Expr}
      (ha : Elaborates t a a' σ) (hb : Elaborates t b b' ρ)
      (ha' : Converted σ (σ.common ρ) a' a'') (hb' : Converted ρ (σ.common ρ) b' b'') :
      Elaborates t (binary n (.arith op) a b)
        (binary ⟨n.span, some (σ.common ρ)⟩ (.arith op) a'' b'') (σ.common ρ)
  | compare {n : Note} {op : CompareOp} {σ ρ : IntType} {a a' a'' b b' b'' : Expr}
      (ha : Elaborates t a a' σ) (hb : Elaborates t b b' ρ)
      (ha' : Converted σ (σ.common ρ) a' a'') (hb' : Converted ρ (σ.common ρ) b' b'') :
      Elaborates t (binary n (.compare op) a b)
        (binary ⟨n.span, some .int⟩ (.compare op) a'' b'') .int
  /-- the operands of a shift and of a connective keep their own types -/
  | shift {n : Note} {op : ShiftOp} {σ ρ : IntType} {a a' b b' : Expr}
      (ha : Elaborates t a a' σ) (hb : Elaborates t b b' ρ) :
      Elaborates t (binary n (.shift op) a b) (binary ⟨n.span, some σ⟩ (.shift op) a' b') σ
  | logic {n : Note} {op : LogicOp} {σ ρ : IntType} {a a' b b' : Expr}
      (ha : Elaborates t a a' σ) (hb : Elaborates t b b' ρ) :
      Elaborates t (binary n (.logic op) a b) (binary ⟨n.span, some .int⟩ (.logic op) a' b') .int
  | assignment {n : Note} {τ σ : IntType} {a a' b b' b'' : Expr} (hvar : a'.isVar = true)
      (ha : Elaborates t a a' τ) (hb : Elaborates t b b' σ) (hb' : Converted σ τ b' b'') :
      Elaborates t (assignment n a b) (assignment ⟨n.span, some τ⟩ a' b'') τ
  | conditional {n : Note} {σ ρ ρ' : IntType} {a a' b b' b'' c c' c'' : Expr}
      (ha : Elaborates t a a' σ) (hb : Elaborates t b b' ρ) (hc : Elaborates t c c' ρ')
      (hb' : Converted ρ (ρ.common ρ') b' b'') (hc' : Converted ρ' (ρ.common ρ') c' c'') :
      Elaborates t (conditional n a b c)
        (conditional ⟨n.span, some (ρ.common ρ')⟩ a' b'' c'') (ρ.common ρ')
  | call {n : Note} {f : String} {τ : IntType} {params : List IntType} {es es' : List Expr}
      (hf : t.typeOf? f = some (.function params τ)) (hes : AllElaborate t es es' params) :
      Elaborates t (call n f es) (call ⟨n.span, some τ⟩ f es') τ

/-- The same for a list of expressions, each converted to the type in its place. -/
inductive AllElaborate (t : SymbolTable) : List Expr → List Expr → List IntType → Prop
  | nil : AllElaborate t [] [] []
  | cons {e e' e'' : Expr} {σ τ : IntType} {es es' : List Expr} {τs : List IntType}
      (he : Elaborates t e e' σ) (he' : Converted σ τ e' e'') (hes : AllElaborate t es es' τs) :
      AllElaborate t (e :: es) (e'' :: es') (τ :: τs)
end

/-- The second expression is the first one with its types, and converted to type `τ`. -/
def ElaboratesAs (t : SymbolTable) (τ : IntType) (e e' : Expr) : Prop :=
  ∃ a σ, Elaborates t e a σ ∧ Converted σ τ a e'

def ElaboratesTyped (t : SymbolTable) (e e' : Expr) : Prop := ∃ τ, Elaborates t e e' τ

inductive OptionElaborates (t : SymbolTable) : Option Expr → Option Expr → Prop
  | none : OptionElaborates t none none
  | some {e e' : Expr} (h : e.ElaboratesTyped t e') : OptionElaborates t (some e) (some e')

end Expr

/-! ## Statements and declarations -/

/-- The declaration of a static object with its initializer replaced by its value, which has the
type of the object. -/
inductive VarDecl.Folds (d : VarDecl) : VarDecl → Prop
  | none (h : d.init = none) : Folds d d
  | value {e : Expr} {c : Constant} (h : d.init = some e) (hc : e.constant? = .ok (some c)) :
      Folds d { d with init := some (.constant ⟨e.span, some d.type⟩ (c.convert d.type)) }

/-- What becomes of a variable of a block. -/
inductive VarDecl.Elaborates (t : SymbolTable) (d : VarDecl) : VarDecl → Prop
  | external (hs : d.storage = some .external) (hi : d.init = none) : Elaborates t d d
  | static {d' : VarDecl} (hs : d.storage = some .static) (hd : d.Folds d') : Elaborates t d d'
  | automatic (hs : d.storage = none) (hi : d.init = none) : Elaborates t d d
  | initialized {e e' : Expr} (hs : d.storage = none) (hi : d.init = some e)
      (he : e.ElaboratesAs t d.type e') : Elaborates t d { d with init := some e' }

def VarDecl.ElaboratesKnown (t : SymbolTable) (d d' : VarDecl) : Prop :=
  t.typeOf? d.name = some (.integer d.type) ∧ d.Elaborates t d'

inductive ForInit.Elaborates (t : SymbolTable) : ForInit → ForInit → Prop
  | nothing : Elaborates t .nothing .nothing
  | decl {d d' : VarDecl} (h : d.ElaboratesKnown t d') : Elaborates t (.decl d) (.decl d')
  | expr {e e' : Expr} (h : e.ElaboratesTyped t e') : Elaborates t (.expr e) (.expr e')

mutual
inductive Stmt.Elaborates (t : SymbolTable) (result : IntType) : Stmt → Stmt → Prop
  | ret {s : Span} {e e' : Expr} (he : e.ElaboratesAs t result e') :
      Stmt.Elaborates t result (.ret s e) (.ret s e')
  | expr {s : Span} {e e' : Expr} (he : e.ElaboratesTyped t e') :
      Stmt.Elaborates t result (.expr s e) (.expr s e')
  | ifThen {s : Span} {e e' : Expr} {yes yes' : Stmt} (he : e.ElaboratesTyped t e')
      (hyes : Stmt.Elaborates t result yes yes') :
      Stmt.Elaborates t result (.ifThen s e yes) (.ifThen s e' yes')
  | ifElse {s : Span} {e e' : Expr} {yes yes' no no' : Stmt} (he : e.ElaboratesTyped t e')
      (hyes : Stmt.Elaborates t result yes yes') (hno : Stmt.Elaborates t result no no') :
      Stmt.Elaborates t result (.ifElse s e yes no) (.ifElse s e' yes' no')
  | block {s : Span} {is is' : List Item} (his : Item.AllElaborate t result is is') :
      Stmt.Elaborates t result (.block s is) (.block s is')
  | whileLoop {s : Span} {l : Option String} {e e' : Expr} {body body' : Stmt}
      (he : e.ElaboratesTyped t e') (hbody : Stmt.Elaborates t result body body') :
      Stmt.Elaborates t result (.whileLoop s l e body) (.whileLoop s l e' body')
  | doLoop {s : Span} {l : Option String} {e e' : Expr} {body body' : Stmt}
      (hbody : Stmt.Elaborates t result body body') (he : e.ElaboratesTyped t e') :
      Stmt.Elaborates t result (.doLoop s l body e) (.doLoop s l body' e')
  | forLoop {s : Span} {l : Option String} {init init' : ForInit} {e e' post post' : Option Expr}
      {body body' : Stmt} (hinit : init.Elaborates t init') (he : Expr.OptionElaborates t e e')
      (hpost : Expr.OptionElaborates t post post') (hbody : Stmt.Elaborates t result body body') :
      Stmt.Elaborates t result (.forLoop s l init e post body) (.forLoop s l init' e' post' body')
  | breakLoop {s : Span} {l : Option String} :
      Stmt.Elaborates t result (.breakLoop s l) (.breakLoop s l)
  | continueLoop {s : Span} {l : Option String} :
      Stmt.Elaborates t result (.continueLoop s l) (.continueLoop s l)
  | null {s : Span} : Stmt.Elaborates t result (.null s) (.null s)

/-- What becomes of an item of a block. There is no rule for a function that is defined there. -/
inductive Item.Elaborates (t : SymbolTable) (result : IntType) : Item → Item → Prop
  | stmt {s s' : Stmt} (h : Stmt.Elaborates t result s s') :
      Item.Elaborates t result (.stmt s) (.stmt s')
  | var {d d' : VarDecl} (h : d.ElaboratesKnown t d') :
      Item.Elaborates t result (.decl (.var d)) (.decl (.var d'))
  | prototype {f : FunHeader} (h : t.typeOf? f.name = some f.type) :
      Item.Elaborates t result (.decl (.prototype f)) (.decl (.prototype f))

inductive Item.AllElaborate (t : SymbolTable) (result : IntType) : List Item → List Item → Prop
  | nil : Item.AllElaborate t result [] []
  | cons {i i' : Item} {is is' : List Item} (hi : Item.Elaborates t result i i')
      (his : Item.AllElaborate t result is is') : Item.AllElaborate t result (i :: is) (i' :: is')
end

inductive Decl.Elaborates (t : SymbolTable) : Decl → Decl → Prop
  | var {d d' : VarDecl} (h : t.typeOf? d.name = some (.integer d.type)) (hd : d.Folds d') :
      Elaborates t (.var d) (.var d')
  | prototype {f : FunHeader} (h : t.typeOf? f.name = some f.type) :
      Elaborates t (.prototype f) (.prototype f)
  | function {f : FunHeader} {s : Span} {body body' : List Item}
      (h : t.typeOf? f.name = some f.type)
      (hps : ∀ q ∈ f.params, t.typeOf? q.name = some (.integer q.type))
      (hbody : Item.AllElaborate t f.result body body') :
      Elaborates t (.function f s body) (.function f s body')

def Program.Elaborates (t : SymbolTable) (p q : Program) : Prop :=
  q.span = p.span ∧ List.Forall₂ (Decl.Elaborates t) p.decls q.decls

/-! ## What is elaborated is typed -/

section

variable {t : SymbolTable} {result : IntType}

theorem Expr.Converted.hasType {e e' : Expr} {σ τ : IntType} (h : e.Converted σ τ e')
    (he : e.HasType t σ) : e'.HasType t τ := by
  cases h with
  | same h => exact h ▸ he
  | cast h => exact ⟨rfl, rfl, σ, he⟩

mutual
/-- Elaborated expressions are typed: every rule gives the note and the casts that the typing rules
ask for. -/
theorem Expr.Elaborates.hasType :
    {e e' : Expr} → {τ : IntType} → e.Elaborates t e' τ → e'.HasType t τ
  | _, _, _, .constant => ⟨rfl, rfl⟩
  | _, _, _, .var hx => ⟨rfl, hx⟩
  | _, _, _, .cast ha => ⟨rfl, rfl, _, ha.hasType⟩
  | _, _, _, .unary hop ha => ⟨rfl, _, ha.hasType, if_neg hop⟩
  | _, _, _, .not ha => ⟨rfl, _, ha.hasType, rfl⟩
  | _, _, _, .arith ha hb ha' hb' =>
      ⟨rfl, _, _, ha'.hasType ha.hasType, hb'.hasType hb.hasType, rfl, rfl⟩
  | _, _, _, .compare ha hb ha' hb' =>
      ⟨rfl, _, _, ha'.hasType ha.hasType, hb'.hasType hb.hasType, rfl, rfl⟩
  | _, _, _, .shift ha hb => ⟨rfl, _, _, ha.hasType, hb.hasType, rfl⟩
  | _, _, _, .logic ha hb => ⟨rfl, _, _, ha.hasType, hb.hasType, rfl⟩
  | _, _, _, .assignment hvar ha hb hb' => ⟨rfl, hvar, ha.hasType, hb'.hasType hb.hasType⟩
  | _, _, _, .conditional ha hb hc hb' hc' =>
      ⟨rfl, ⟨_, ha.hasType⟩, hb'.hasType hb.hasType, hc'.hasType hc.hasType⟩
  | _, _, _, .call hf hes => ⟨rfl, _, hf, hes.hasTypes⟩
termination_by structural _ _ _ h => h

theorem Expr.AllElaborate.hasTypes :
    {es es' : List Expr} → {τs : List IntType} → AllElaborate t es es' τs → HasTypes t es' τs
  | _, _, _, .nil => trivial
  | _, _, _, .cons he he' hes => ⟨he'.hasType he.hasType, hes.hasTypes⟩
termination_by structural _ _ _ h => h
end

theorem Expr.ElaboratesTyped.typed {e e' : Expr} (h : e.ElaboratesTyped t e') : e'.Typed t :=
  h.imp fun _ => Elaborates.hasType

theorem Expr.ElaboratesAs.hasType {e e' : Expr} {τ : IntType} (h : e.ElaboratesAs t τ e') :
    e'.HasType t τ := by
  obtain ⟨a, σ, ha, ha'⟩ := h
  exact ha'.hasType ha.hasType

theorem Expr.OptionElaborates.typed {o o' : Option Expr} (h : OptionElaborates t o o') :
    ∀ e ∈ o', e.Typed t := by
  cases h with
  | none => simp
  | some h => simpa using h.typed

/-- A declaration elaborated in a table that knows its name is typed there. -/
theorem VarDecl.ElaboratesKnown.typed {d d' : VarDecl} (h : d.ElaboratesKnown t d') :
    d'.Typed t := by
  obtain ⟨hτ, h⟩ := h
  cases h with
  | external hs hi => exact fun hs' => absurd (hs.symm.trans hs') (by simp)
  | static hs hd =>
      have hstorage : d'.storage = d.storage := by cases hd <;> rfl
      exact fun hs' => absurd (hs.symm.trans (hstorage.symm.trans hs')) (by simp)
  | automatic hs hi => exact fun _ => ⟨hτ, by simp [hi]⟩
  | initialized hs hi he => exact fun _ => ⟨hτ, by simpa using he.hasType⟩

theorem ForInit.Elaborates.typed {i i' : ForInit} (h : i.Elaborates t i') : i'.Typed t := by
  cases h with
  | nothing => trivial
  | decl h => exact h.typed
  | expr h => exact h.typed

mutual
theorem Stmt.Elaborates.typed :
    {s s' : Stmt} → s.Elaborates t result s' → s'.Typed t result
  | _, _, .ret he => he.hasType
  | _, _, .expr he => he.typed
  | _, _, .ifThen he hyes => ⟨he.typed, hyes.typed⟩
  | _, _, .ifElse he hyes hno => ⟨he.typed, hyes.typed, hno.typed⟩
  | _, _, .block his => his.typed
  | _, _, .whileLoop he hbody => ⟨he.typed, hbody.typed⟩
  | _, _, .doLoop hbody he => ⟨hbody.typed, he.typed⟩
  | _, _, .forLoop hinit he hpost hbody => ⟨hinit.typed, he.typed, hpost.typed, hbody.typed⟩
  | _, _, .breakLoop | _, _, .continueLoop | _, _, .null => trivial
termination_by structural _ _ h => h

theorem Item.Elaborates.typed :
    {i i' : Item} → i.Elaborates t result i' → i'.Typed t result
  | _, _, .stmt h => h.typed
  | _, _, .var h => h.typed
  | _, _, .prototype _ => trivial
termination_by structural _ _ h => h

theorem Item.AllElaborate.typed :
    {is is' : List Item} → Item.AllElaborate t result is is' → Item.AllTyped t result is'
  | _, _, .nil => trivial
  | _, _, .cons hi his => ⟨hi.typed, his.typed⟩
termination_by structural _ _ h => h
end

mutual
/-- What becomes of a statement has the same labels of loops. -/
theorem Stmt.Elaborates.sameLoops :
    {s s' : Stmt} → s.Elaborates t result s' → s.SameLoops s'
  | _, _, .ret _ | _, _, .expr _ => ⟨rfl, fun _ h => h⟩
  | _, _, .ifThen _ hyes => hyes.sameLoops
  | _, _, .ifElse _ hyes hno => .ifElse hyes.sameLoops hno.sameLoops
  | _, _, .block his => his.sameLoops
  | _, _, .whileLoop _ hbody => .whileLoop hbody.sameLoops
  | _, _, .doLoop hbody _ => .doLoop hbody.sameLoops
  | _, _, .forLoop _ _ _ hbody => .forLoop hbody.sameLoops
  | _, _, .breakLoop | _, _, .continueLoop | _, _, .null => ⟨rfl, fun _ h => h⟩
termination_by structural _ _ h => h

theorem Item.Elaborates.sameLoops :
    {i i' : Item} → i.Elaborates t result i' → i.SameLoops i'
  | _, _, .stmt h => h.sameLoops
  | _, _, .var _ | _, _, .prototype _ => ⟨rfl, fun _ h => h⟩
termination_by structural _ _ h => h

theorem Item.AllElaborate.sameLoops :
    {is is' : List Item} → Item.AllElaborate t result is is' → Item.AllSameLoops is is'
  | _, _, .nil => ⟨rfl, fun _ h => h⟩
  | _, _, .cons hi his => .cons hi.sameLoops his.sameLoops
termination_by structural _ _ h => h
end

/-- Elaborating keeps the labels of loops and of the jumps in them. -/
theorem Decl.labelled_of_elaborate {ds ds' : List Decl}
    (h : List.Forall₂ (Decl.Elaborates t) ds ds') (hl : ∀ d ∈ ds, d.Labelled) :
    ∀ d ∈ ds', d.Labelled := by
  induction h with
  | nil => simp
  | @cons d d' ds ds' hd _ ih =>
      obtain ⟨hld, hlds⟩ := List.forall_mem_cons.1 hl
      refine List.forall_mem_cons.2 ⟨?_, ih hlds⟩
      cases hd with
      | var _ _ => trivial
      | prototype _ => trivial
      | function _ _ hbody =>
          obtain ⟨hloops, hnamed⟩ := hbody.sameLoops
          exact ⟨hloops ▸ hld.1, hnamed none hld.2⟩

/-- The labels of loops are those of the program before it was checked. -/
theorem Decl.loops_of_elaborate {ds ds' : List Decl}
    (h : List.Forall₂ (Decl.Elaborates t) ds ds') :
    ds'.flatMap Decl.loops = ds.flatMap Decl.loops := by
  induction h with
  | nil => rfl
  | @cons d d' ds ds' hd _ ih =>
      have hloops : d'.loops = d.loops := by
        cases hd with
        | var _ _ => rfl
        | prototype _ => rfl
        | function _ _ hbody => exact hbody.sameLoops.1
      rw [List.flatMap_cons, List.flatMap_cons, ih, hloops]

theorem Decl.Elaborates.typed {d d' : Decl} (h : d.Elaborates t d') : d'.Typed t := by
  cases h with
  | var _ _ => trivial
  | prototype _ => trivial
  | function hf hps hbody => exact ⟨hf, hps, hbody.typed⟩

theorem Decl.typed_of_elaborate {ds ds' : List Decl} (h : List.Forall₂ (Decl.Elaborates t) ds ds') :
    ∀ d ∈ ds', d.Typed t := by
  induction h with
  | nil => simp
  | cons hd _ ih => exact List.forall_mem_cons.2 ⟨hd.typed, ih⟩

end

end IntegerC
