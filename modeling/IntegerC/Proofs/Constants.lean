import IntegerC.Proofs.Elaboration
import IntegerC.Proofs.Grammar
import IntegerC.Proofs.LoopNames
import IntegerC.Proofs.Scoping

set_option autoImplicit false

/-! # The constants of a tree

Where the constants of a program come from. The parser makes one for each literal, renaming and
labelling leave them alone, and giving types adds none. Only the initializers of static objects are
replaced, by constants that were converted to the type of the object.
-/

namespace IntegerC

/-- A constant as a literal makes it: a value of its type, and not negative. -/
structure Constant.Natural (c : Constant) : Prop where
  inRange : c.InRange
  nonneg : 0 ≤ c.value

variable {q r : Constant → Prop}

/-! ## Expressions -/

namespace Expr

def EachConstant (q : Constant → Prop) (e : Expr) : Prop :=
  ∀ a ∈ e.postorder, ∀ n c, a = .constant n c → q c

variable {n : Note} {a b c : Expr}

/-- The constants of a node are those of its operands, unless it is one itself. -/
theorem eachConstant_node {e : Expr} {l : List Expr} (h : e.postorder = l ++ [e])
    (he : ∀ n k, e ≠ constant n k) :
    e.EachConstant q ↔ ∀ a ∈ l, ∀ n c, a = .constant n c → q c := by
  rw [EachConstant, h, List.forall_mem_append, List.forall_mem_singleton]
  exact and_iff_left fun n k hk => absurd hk (he n k)

@[simp] theorem eachConstant_constant {k : Constant} : (constant n k).EachConstant q ↔ q k := by
  simp [EachConstant, postorder]

@[simp] theorem eachConstant_var {x : String} : (var n x).EachConstant q :=
  (eachConstant_node (l := []) rfl fun _ _ => Expr.noConfusion).2 nofun

@[simp] theorem eachConstant_cast {t : IntType} :
    (cast n t a).EachConstant q ↔ a.EachConstant q :=
  eachConstant_node rfl fun _ _ => Expr.noConfusion

@[simp] theorem eachConstant_unary {op : UnaryOp} :
    (unary n op a).EachConstant q ↔ a.EachConstant q :=
  eachConstant_node rfl fun _ _ => Expr.noConfusion

@[simp] theorem eachConstant_binary {op : BinaryOp} :
    (binary n op a b).EachConstant q ↔ a.EachConstant q ∧ b.EachConstant q :=
  Iff.trans (eachConstant_node rfl fun _ _ => Expr.noConfusion) List.forall_mem_append

@[simp] theorem eachConstant_assignment :
    (assignment n a b).EachConstant q ↔ a.EachConstant q ∧ b.EachConstant q :=
  Iff.trans (eachConstant_node rfl fun _ _ => Expr.noConfusion) List.forall_mem_append

@[simp] theorem eachConstant_conditional :
    (conditional n a b c).EachConstant q ↔
      a.EachConstant q ∧ b.EachConstant q ∧ c.EachConstant q := by
  rw [eachConstant_node rfl fun _ _ => Expr.noConfusion, List.forall_mem_append,
    List.forall_mem_append, and_assoc]
  rfl

@[simp] theorem eachConstant_call {f : String} {es : List Expr} :
    (call n f es).EachConstant q ↔ ∀ e ∈ es, e.EachConstant q := by
  rw [eachConstant_node (l := postorderAll es) rfl fun _ _ => Expr.noConfusion]
  induction es with
  | nil => simp [postorderAll]
  | cons e es ih =>
      rw [postorderAll, List.forall_mem_append, ih, List.forall_mem_cons, EachConstant]

theorem EachConstant.imp {e : Expr} (h : e.EachConstant q) (hq : ∀ c, q c → r c) :
    e.EachConstant r :=
  fun a ha n c he => hq c (h a ha n c he)

mutual
/-- Renaming changes no constant. -/
theorem eachConstant_mapNames (f : String → String) :
    (e : Expr) → ((e.mapNames f).EachConstant q ↔ e.EachConstant q)
  | constant _ _ => Iff.rfl
  | var _ _ => by simp [mapNames]
  | cast _ _ a | unary _ _ a => by simp [mapNames, eachConstant_mapNames f a]
  | binary _ _ a b | assignment _ a b => by
      simp [mapNames, eachConstant_mapNames f a, eachConstant_mapNames f b]
  | conditional _ a b c => by
      simp [mapNames, eachConstant_mapNames f a, eachConstant_mapNames f b,
        eachConstant_mapNames f c]
  | call _ _ es => by simp [mapNames, eachConstant_mapAllNames f es]
termination_by structural e => e

theorem eachConstant_mapAllNames (f : String → String) :
    (es : List Expr) →
      ((∀ e ∈ mapAllNames f es, e.EachConstant q) ↔ ∀ e ∈ es, e.EachConstant q)
  | [] => by simp [mapAllNames]
  | e :: es => by
      simp [mapAllNames, eachConstant_mapNames f e, eachConstant_mapAllNames f es]
termination_by structural es => es
end

theorem Converted.eachConstant {e e' : Expr} {σ τ : IntType} (h : e.Converted σ τ e')
    (he : e.EachConstant q) : e'.EachConstant q := by
  cases h with
  | same _ => exact he
  | cast _ => exact eachConstant_cast.2 he

mutual
/-- Types and conversions bring no new constants. -/
theorem Elaborates.eachConstant {t : SymbolTable} :
    {e e' : Expr} → {τ : IntType} → e.Elaborates t e' τ → e.EachConstant q → e'.EachConstant q
  | _, _, _, .constant, h => by simpa using h
  | _, _, _, .var _, _ => eachConstant_var
  | _, _, _, .cast ha, h | _, _, _, .unary _ ha, h | _, _, _, .not ha, h => by
      simp only [eachConstant_cast, eachConstant_unary] at h ⊢
      exact ha.eachConstant h
  | _, _, _, .arith ha hb ha' hb', h | _, _, _, .compare ha hb ha' hb', h => by
      obtain ⟨h₁, h₂⟩ := eachConstant_binary.1 h
      exact eachConstant_binary.2
        ⟨ha'.eachConstant (ha.eachConstant h₁), hb'.eachConstant (hb.eachConstant h₂)⟩
  | _, _, _, .shift ha hb, h | _, _, _, .logic ha hb, h => by
      obtain ⟨h₁, h₂⟩ := eachConstant_binary.1 h
      exact eachConstant_binary.2 ⟨ha.eachConstant h₁, hb.eachConstant h₂⟩
  | _, _, _, .assignment _ ha hb hb', h => by
      obtain ⟨h₁, h₂⟩ := eachConstant_assignment.1 h
      exact eachConstant_assignment.2 ⟨ha.eachConstant h₁, hb'.eachConstant (hb.eachConstant h₂)⟩
  | _, _, _, .conditional ha hb hc hb' hc', h => by
      obtain ⟨h₁, h₂, h₃⟩ := eachConstant_conditional.1 h
      exact eachConstant_conditional.2 ⟨ha.eachConstant h₁,
        hb'.eachConstant (hb.eachConstant h₂), hc'.eachConstant (hc.eachConstant h₃)⟩
  | _, _, _, .call _ hes, h => eachConstant_call.2 (hes.eachConstant (eachConstant_call.1 h))
termination_by structural _ _ _ h => h

/-- Elaboration keeps what holds of each constant in a list of expressions. -/
theorem AllElaborate.eachConstant {t : SymbolTable} :
    {es es' : List Expr} → {τs : List IntType} → AllElaborate t es es' τs →
      (∀ e ∈ es, e.EachConstant q) → ∀ e ∈ es', e.EachConstant q
  | _, _, _, .nil, _ => by simp
  | _, _, _, .cons he he' hes, h => by
      obtain ⟨h₁, h₂⟩ := List.forall_mem_cons.1 h
      exact List.forall_mem_cons.2 ⟨he'.eachConstant (he.eachConstant h₁), hes.eachConstant h₂⟩
termination_by structural _ _ _ h => h
end

theorem ElaboratesTyped.eachConstant {t : SymbolTable} {e e' : Expr} (h : e.ElaboratesTyped t e')
    (he : e.EachConstant q) : e'.EachConstant q := by
  obtain ⟨τ, h⟩ := h
  exact h.eachConstant he

theorem ElaboratesAs.eachConstant {t : SymbolTable} {τ : IntType} {e e' : Expr}
    (h : e.ElaboratesAs t τ e') (he : e.EachConstant q) : e'.EachConstant q := by
  obtain ⟨a, σ, ha, ha'⟩ := h
  exact ha'.eachConstant (ha.eachConstant he)

end Expr

/-! ## Parts -/

/-- `q` holds of every constant of a part, and `r` of those in expressions that are evaluated when
the program runs. -/
structure Part.Constants (q r : Constant → Prop) (x : Part) : Prop where
  every : ∀ e ∈ x.exprs, e.EachConstant q
  running : ∀ e ∈ x.running, e.EachConstant r

namespace Part

def AllConstants (q r : Constant → Prop) (xs : List Part) : Prop := ∀ x ∈ xs, x.Constants q r

@[simp] theorem allConstants_nil : AllConstants q r [] := by simp [AllConstants]

@[simp] theorem allConstants_cons {x : Part} {xs : List Part} :
    AllConstants q r (x :: xs) ↔ x.Constants q r ∧ AllConstants q r xs :=
  List.forall_mem_cons

@[simp] theorem allConstants_append {xs ys : List Part} :
    AllConstants q r (xs ++ ys) ↔ AllConstants q r xs ∧ AllConstants q r ys :=
  List.forall_mem_append

/-- A part without expressions. -/
theorem constants_of_exprs {x : Part} (h : x.exprs = []) : x.Constants q r := by
  have hrunning : x.running = [] := by
    cases x with
    | expr e => cases h
    | var d =>
        have hinit : d.init.toList = [] := h
        simp [running, VarDecl.running, hinit]
    | _ => rfl
  exact ⟨by simp [h], by simp [hrunning]⟩

@[simp] theorem constants_span {s : Span} : (span s).Constants q r := constants_of_exprs rfl

@[simp] theorem constants_loop {l : Option String} : (loop l).Constants q r :=
  constants_of_exprs rfl

@[simp] theorem constants_prototype {h : FunHeader} : (prototype h).Constants q r :=
  constants_of_exprs rfl

@[simp] theorem constants_function {h : FunHeader} : (function h).Constants q r :=
  constants_of_exprs rfl

theorem constants_expr {e : Expr} :
    (expr e).Constants q r ↔ e.EachConstant q ∧ e.EachConstant r :=
  ⟨fun h => ⟨h.every e List.mem_cons_self, h.running e List.mem_cons_self⟩,
    fun h => ⟨List.forall_mem_singleton.2 h.1, List.forall_mem_singleton.2 h.2⟩⟩

theorem constants_fileVar {d : VarDecl} :
    (fileVar d).Constants q r ↔ ∀ e ∈ d.init, e.EachConstant q :=
  ⟨fun h e he => h.every e (Option.mem_toList.2 he),
    fun h => ⟨fun e he => h e (Option.mem_toList.1 he), by simp [running]⟩⟩

theorem constants_var {d : VarDecl} : (var d).Constants q r ↔
    (∀ e ∈ d.init, e.EachConstant q) ∧ (d.storage = none → ∀ e ∈ d.init, e.EachConstant r) := by
  constructor
  · refine fun h => ⟨fun e he => h.every e (Option.mem_toList.2 he), fun hs e he => ?_⟩
    refine h.running e ?_
    simpa [running, VarDecl.running, hs] using he
  · refine fun h => ⟨fun e he => h.1 e (Option.mem_toList.1 he), fun e he => ?_⟩
    by_cases hs : d.storage = none
    · exact h.2 hs e (by simpa [running, VarDecl.running, hs] using he)
    · simp [running, VarDecl.running, hs] at he

theorem allConstants_optional {o : Option Expr} :
    AllConstants q r (Part.optional o) ↔ ∀ e ∈ o, e.EachConstant q ∧ e.EachConstant r := by
  cases o <;> simp [Part.optional, constants_expr]

/-- What holds of every constant holds of those that run. -/
theorem constants_self {x : Part} (h : ∀ e ∈ x.exprs, e.EachConstant q) : x.Constants q q := by
  refine ⟨h, fun e he => h e ?_⟩
  cases x with
  | expr a => exact he
  | var d =>
      rw [running, VarDecl.running] at he
      split at he
      · exact he
      · cases he
  | _ => cases he

theorem exprs_mapNames (f : String → String) (x : Part) :
    (x.mapNames f).exprs = x.exprs.map (Expr.mapNames f) := by
  cases x with
  | var d | fileVar d => cases hd : d.init <;> simp [mapNames, exprs, VarDecl.mapNames, hd]
  | _ => rfl

end Part

def Part.EachConstant (q : Constant → Prop) (xs : List Part) : Prop :=
  ∀ x ∈ xs, ∀ e ∈ x.exprs, e.EachConstant q

/-- The constants among the expressions of a program are those of its parts. -/
theorem Program.eachConstant_parts {p : Program} :
    Part.EachConstant q p.parts ↔ ∀ n c, .constant n c ∈ p.exprs → q c := by
  simp only [Program.exprs, List.mem_flatMap]
  constructor
  · rintro h n c ⟨e, ⟨x, hx, he⟩, ha⟩
    exact h x hx e he _ ha n c rfl
  · rintro h x hx e he a ha n c rfl
    exact h n c ⟨e, ⟨x, hx, he⟩, ha⟩

/-! ## Names and labels -/

theorem Program.eachConstant_of_mapNames {f : String → String} {p tree : Program}
    (hmap : p.mapNames f = tree) (h : Part.EachConstant q tree.parts) :
    Part.EachConstant q p.parts := by
  intro x hx e he
  have hx' : x.mapNames f ∈ tree.parts := by
    rw [← hmap, parts_mapNames]
    exact List.mem_map_of_mem hx
  have he' : e.mapNames f ∈ (x.mapNames f).exprs := by
    rw [x.exprs_mapNames f]
    exact List.mem_map_of_mem he
  exact (e.eachConstant_mapNames f).1 (h _ hx' _ he')

/-- Constants do not depend on the labels of loops. -/
theorem SameParts.eachConstant {xs ys : List Part} (h : SameParts xs ys)
    (hy : Part.EachConstant q ys) : Part.EachConstant q xs := by
  have hexprs : xs.flatMap Part.exprs = ys.flatMap Part.exprs :=
    h.flatMap_eq fun x => by cases x <;> rfl
  intro x hx e he
  have hmem : e ∈ ys.flatMap Part.exprs := hexprs ▸ List.mem_flatMap.2 ⟨x, hx, he⟩
  obtain ⟨y, hy', he'⟩ := List.mem_flatMap.1 hmem
  exact hy y hy' e he'

/-! ## Types and conversions -/

/-- A part as it is read, with the constants of literals. -/
abbrev Part.Natural (x : Part) : Prop := x.Constants Constant.Natural Constant.Natural

/-- A part as it is checked, in which the value of a static object may be negative. -/
abbrev Part.InRange (x : Part) : Prop := x.Constants Constant.InRange Constant.Natural

abbrev Part.AllNatural (xs : List Part) : Prop := AllConstants Constant.Natural Constant.Natural xs

abbrev Part.AllInRange (xs : List Part) : Prop := AllConstants Constant.InRange Constant.Natural xs

section

variable {t : SymbolTable} {result : IntType}

/-- A folded initializer is a constant that was converted, and does not run. -/
theorem VarDecl.Folds.eachConstant {d d' : VarDecl} (h : d.Folds d')
    (hd : ∀ e ∈ d.init, e.EachConstant Constant.Natural) :
    ∀ e ∈ d'.init, e.EachConstant Constant.InRange := by
  cases h with
  | none _ => exact fun e he => (hd e he).imp fun _ => Constant.Natural.inRange
  | value _ _ => simpa using Constant.inRange_convert _ _

/-- A variable of a block that has natural constants has constants in range behind checking, also
where its initializer is folded. -/
theorem VarDecl.ElaboratesKnown.constants {d d' : VarDecl} (h : d.ElaboratesKnown t d')
    (hd : (Part.var d).Natural) : (Part.var d').InRange := by
  obtain ⟨hinit, -⟩ := Part.constants_var.1 hd
  refine Part.constants_var.2 ?_
  obtain ⟨-, h⟩ := h
  cases h with
  | external _ hi | automatic _ hi => simp [hi]
  | static hs hd' =>
      have hstorage : d'.storage = d.storage := by cases hd' <;> rfl
      refine ⟨hd'.eachConstant hinit, fun hnone => ?_⟩
      rw [hstorage, hs] at hnone
      cases hnone
  | initialized _ hi he =>
      have he' := he.eachConstant (hinit _ hi)
      exact ⟨by simpa using he'.imp fun _ => Constant.Natural.inRange, fun _ => by simpa using he'⟩

theorem Expr.ElaboratesTyped.constants {e e' : Expr} (h : e.ElaboratesTyped t e')
    (he : (Part.expr e).Natural) : (Part.expr e').InRange := by
  have he' := h.eachConstant (Part.constants_expr.1 he).1
  exact Part.constants_expr.2 ⟨he'.imp fun _ => Constant.Natural.inRange, he'⟩

/-- Natural constants of an optional expression are in range once it is elaborated. -/
theorem Expr.OptionElaborates.constants {o o' : Option Expr} (h : OptionElaborates t o o')
    (ho : Part.AllNatural (Part.optional o)) :
    Part.AllInRange (Part.optional o') := by
  cases h with
  | none => exact Part.allConstants_nil
  | some h =>
      obtain ⟨he, -⟩ := Part.allConstants_cons.1 ho
      exact Part.allConstants_cons.2 ⟨h.constants he, Part.allConstants_nil⟩

theorem ForInit.Elaborates.constants {i i' : ForInit} (h : i.Elaborates t i')
    (hi : Part.AllNatural i.parts) : Part.AllInRange i'.parts := by
  cases h with
  | nothing => exact Part.allConstants_nil
  | decl h =>
      obtain ⟨hd, -⟩ := Part.allConstants_cons.1 hi
      exact Part.allConstants_cons.2 ⟨h.constants hd, Part.allConstants_nil⟩
  | expr h =>
      obtain ⟨he, -⟩ := Part.allConstants_cons.1 hi
      exact Part.allConstants_cons.2 ⟨h.constants he, Part.allConstants_nil⟩

mutual
/-- Checking leaves constants in range. Only the initializers of static objects can become negative,
because they are folded. -/
theorem Stmt.Elaborates.constants : {s s' : Stmt} → s.Elaborates t result s' →
    Part.AllNatural s.parts → Part.AllInRange s'.parts
  | _, _, .ret he, h => by
      simp only [Stmt.parts, Part.allConstants_cons, Part.allConstants_nil, Part.constants_span,
        Part.constants_expr, true_and, and_true, and_self] at h ⊢
      have he' := he.eachConstant h
      exact ⟨he'.imp fun _ => Constant.Natural.inRange, he'⟩
  | _, _, .expr he, h => by
      simp only [Stmt.parts, Part.allConstants_cons, Part.allConstants_nil, Part.constants_span,
        true_and, and_true] at h ⊢
      exact he.constants h
  | _, _, .ifThen he hyes, h => by
      simp only [Stmt.parts, Part.allConstants_cons, Part.constants_span, true_and] at h ⊢
      exact ⟨he.constants h.1, hyes.constants h.2⟩
  | _, _, .ifElse he hyes hno, h => by
      simp only [Stmt.parts, Part.allConstants_cons, Part.allConstants_append, Part.constants_span,
        true_and] at h ⊢
      exact ⟨he.constants h.1, hyes.constants h.2.1, hno.constants h.2.2⟩
  | _, _, .block his, h => by
      simp only [Stmt.parts, Part.allConstants_cons, Part.constants_span, true_and] at h ⊢
      exact his.constants h
  | _, _, .whileLoop he hbody, h => by
      simp only [Stmt.parts, Part.allConstants_cons, Part.constants_span, Part.constants_loop,
        true_and] at h ⊢
      exact ⟨he.constants h.1, hbody.constants h.2⟩
  | _, _, .doLoop hbody he, h => by
      simp only [Stmt.parts, Part.allConstants_cons, Part.allConstants_append,
        Part.allConstants_nil, Part.constants_span, Part.constants_loop, true_and,
        and_true] at h ⊢
      exact ⟨hbody.constants h.1, he.constants h.2⟩
  | _, _, .forLoop hinit he hpost hbody, h => by
      simp only [Stmt.parts, Part.allConstants_cons, Part.allConstants_append, Part.constants_span,
        Part.constants_loop, true_and] at h ⊢
      exact ⟨hinit.constants h.1, he.constants h.2.1,
        hpost.constants h.2.2.1, hbody.constants h.2.2.2⟩
  | _, _, .breakLoop, _ | _, _, .continueLoop, _ | _, _, .null, _ => by simp [Stmt.parts]
termination_by structural _ _ h => h

theorem Item.Elaborates.constants : {i i' : Item} → i.Elaborates t result i' →
    Part.AllNatural i.parts → Part.AllInRange i'.parts
  | _, _, .stmt h, hi => h.constants hi
  | _, _, .var h, hi =>
      Part.allConstants_cons.2
        ⟨h.constants (Part.allConstants_cons.1 hi).1, Part.allConstants_nil⟩
  | _, _, .prototype _, _ => by simp [Item.parts]
termination_by structural _ _ h => h

theorem Item.AllElaborate.constants : {is is' : List Item} → Item.AllElaborate t result is is' →
    Part.AllNatural (Item.allParts is) → Part.AllInRange (Item.allParts is')
  | _, _, .nil, _ => Part.allConstants_nil
  | _, _, .cons hi his, h => by
      obtain ⟨h₁, h₂⟩ := Part.allConstants_append.1 h
      exact Part.allConstants_append.2 ⟨hi.constants h₁, his.constants h₂⟩
termination_by structural _ _ h => h
end

/-- At file scope every initializer is folded, so its constant may be negative too. -/
theorem Decl.Elaborates.constants {d d' : Decl} (h : d.Elaborates t d')
    (hd : Part.AllNatural d.parts) : Part.AllInRange d'.parts := by
  cases h with
  | var _ hfolds =>
      obtain ⟨hinit, -⟩ := Part.allConstants_cons.1 hd
      rw [Part.constants_fileVar] at hinit
      exact Part.allConstants_cons.2
        ⟨Part.constants_fileVar.2 (hfolds.eachConstant hinit), Part.allConstants_nil⟩
  | prototype _ => simp [Decl.parts]
  | function _ _ hbody =>
      simp only [Decl.parts, Part.allConstants_cons, Part.constants_function, Part.constants_span,
        true_and] at hd ⊢
      exact hbody.constants hd

/-- Of a program whose types are written down, the constants that run are those that were read. -/
theorem Program.Elaborates.constants {p p' : Program} (h : p.Elaborates t p')
    (hp : Part.EachConstant Constant.Natural p.parts) : Part.AllInRange p'.parts := by
  intro x hx
  obtain ⟨d', hd', hx⟩ := List.mem_flatMap.1 hx
  obtain ⟨d, hd, helaborates⟩ : ∃ d ∈ p.decls, d.Elaborates t d' := by
    obtain ⟨i, hi, rfl⟩ := List.getElem_of_mem hd'
    have hlen := h.2.length_eq
    exact ⟨p.decls[i], List.getElem_mem _, List.forall₂_iff_get.1 h.2 |>.2 i (by omega) hi⟩
  refine helaborates.constants (fun y hy => ?_) x hx
  exact Part.constants_self (hp y (List.mem_flatMap.2 ⟨d, hd, hy⟩))

end

end IntegerC
