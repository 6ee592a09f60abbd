import IntegerC.Proofs.Reading
import IntegerC.Proofs.Tree
import IntegerC.Syntax.Parser

set_option autoImplicit false

/-! # What reading a program ensures

A list of tokens of a text is read to its end or refused at a piece of the text; the bound of the
recursion is never reached. In a program that was read every part begins in the text, and the names
declared with linkage are words. One lemma for each rule of the grammar goes from a bound to the
next one, and the two inductions put them together.
-/

namespace IntegerC

open IntegerC.Parser

/-! ## What is read -/

/-- A constant that its type can hold, and a name that is a word. -/
def Expr.Proper : Expr → Prop
  | constant _ c => c.InRange
  | var _ x | call _ x _ => Plain x
  | _ => True

/-- An expression of which all parts are proper and begin in the text. -/
def Expr.Written (m : LineMap) (e : Expr) : Prop := ∀ a ∈ e.postorder, m.Begins a.span ∧ a.Proper

/-- A part that begins in the text, with proper expressions and words for names. -/
structure Part.Written (m : LineMap) (x : Part) : Prop where
  begins : ∀ s ∈ x.spans, m.Begins s
  exprs : ∀ e ∈ x.exprs, ∀ a ∈ e.postorder, a.Proper
  declared : ∀ name ∈ x.declared, Plain name

def Part.AllWritten (m : LineMap) (parts : List Part) : Prop := ∀ x ∈ parts, x.Written m

section

variable {m : LineMap} {bound n : Nat} {c : Cursor}

namespace Expr

theorem Written.begins {e : Expr} (h : e.Written m) : m.Begins e.span := by
  have hmem : e ∈ e.postorder := by cases e <;> simp [postorder]
  exact (h e hmem).1

theorem written_iff {e : Expr} :
    e.Written m ↔ (∀ s ∈ e.spans, m.Begins s) ∧ ∀ a ∈ e.postorder, a.Proper := by
  rw [spans, List.forall_mem_map]
  exact ⟨fun h => ⟨fun a ha => (h a ha).1, fun a ha => (h a ha).2⟩,
    fun h a ha => ⟨h.1 a ha, h.2 a ha⟩⟩

theorem written_node {e : Expr} {l : List Expr} (h : e.postorder = l ++ [e]) :
    e.Written m ↔ (∀ a ∈ l, m.Begins a.span ∧ a.Proper) ∧ m.Begins e.span ∧ e.Proper := by
  rw [Written, h, List.forall_mem_append, List.forall_mem_singleton]

@[simp] theorem written_constant {n : Note} {k : Constant} :
    (constant n k).Written m ↔ m.Begins n.span ∧ k.InRange :=
  List.forall_mem_singleton

@[simp] theorem written_var {n : Note} {x : String} :
    (var n x).Written m ↔ m.Begins n.span ∧ Plain x :=
  List.forall_mem_singleton

@[simp] theorem written_cast {n : Note} {t : IntType} {a : Expr} :
    (cast n t a).Written m ↔ a.Written m ∧ m.Begins n.span :=
  (written_node rfl).trans (and_congr_right' (and_iff_left trivial))

@[simp] theorem written_unary {n : Note} {op : UnaryOp} {a : Expr} :
    (unary n op a).Written m ↔ a.Written m ∧ m.Begins n.span :=
  (written_node rfl).trans (and_congr_right' (and_iff_left trivial))

@[simp] theorem written_binary {n : Note} {op : BinaryOp} {a b : Expr} :
    (binary n op a b).Written m ↔ (a.Written m ∧ b.Written m) ∧ m.Begins n.span :=
  (written_node rfl).trans (and_congr List.forall_mem_append (and_iff_left trivial))

@[simp] theorem written_assignment {n : Note} {a b : Expr} :
    (assignment n a b).Written m ↔ (a.Written m ∧ b.Written m) ∧ m.Begins n.span :=
  (written_node rfl).trans (and_congr List.forall_mem_append (and_iff_left trivial))

@[simp] theorem written_conditional {n : Note} {a b d : Expr} :
    (conditional n a b d).Written m ↔
      ((a.Written m ∧ b.Written m) ∧ d.Written m) ∧ m.Begins n.span :=
  (written_node rfl).trans (and_congr
    (List.forall_mem_append.trans (and_congr_left' List.forall_mem_append)) (and_iff_left trivial))

@[simp] theorem written_call {n : Note} {f : String} {es : List Expr} :
    (call n f es).Written m ↔ (∀ e ∈ es, e.Written m) ∧ m.Begins n.span ∧ Plain f := by
  have hes : (∀ a ∈ postorderAll es, m.Begins a.span ∧ a.Proper) ↔ ∀ e ∈ es, e.Written m := by
    induction es with
    | nil => simp [postorderAll]
    | cons e es ih =>
        rw [postorderAll, List.forall_mem_append, ih, List.forall_mem_cons, Written]
  exact (written_node rfl).trans (and_congr_left' hes)

end Expr

namespace Part

@[simp] theorem allWritten_nil : AllWritten m [] := by simp [AllWritten]

@[simp] theorem allWritten_cons {x : Part} {xs : List Part} :
    AllWritten m (x :: xs) ↔ x.Written m ∧ AllWritten m xs :=
  List.forall_mem_cons

@[simp] theorem allWritten_append {xs ys : List Part} :
    AllWritten m (xs ++ ys) ↔ AllWritten m xs ∧ AllWritten m ys :=
  List.forall_mem_append

@[simp] theorem written_span {s : Span} : (span s).Written m ↔ m.Begins s :=
  ⟨fun h => h.begins s List.mem_cons_self,
    fun h => ⟨by simpa [spans] using h, by simp [exprs], by simp [declared]⟩⟩

@[simp] theorem written_loop {l : Option String} : (loop l).Written m :=
  ⟨by simp [spans], by simp [exprs], by simp [declared]⟩

@[simp] theorem written_expr {e : Expr} : (expr e).Written m ↔ e.Written m := by
  rw [Expr.written_iff]
  exact ⟨fun h => ⟨h.begins, h.exprs e List.mem_cons_self⟩,
    fun h => ⟨h.1, by simpa [exprs] using h.2, by simp [declared]⟩⟩

theorem allWritten_optional {o : Option Expr} :
    AllWritten m (Part.optional o) ↔ ∀ e ∈ o, e.Written m := by
  cases o <;> simp [Part.optional]

/-- A variable of the file scope is written by its span, its initializer and its name. -/
theorem written_fileVar {d : VarDecl} :
    (fileVar d).Written m ↔ (m.Begins d.span ∧ AllWritten m (Part.optional d.init)) ∧
      Plain d.name := by
  have hinit : AllWritten m (Part.optional d.init) ↔
      (∀ e ∈ d.init.toList, ∀ s ∈ e.spans, m.Begins s) ∧
        ∀ e ∈ d.init.toList, ∀ a ∈ e.postorder, a.Proper := by
    rw [allWritten_optional]
    simp only [Expr.written_iff, Option.mem_toList]
    exact ⟨fun h => ⟨fun e he => (h e he).1, fun e he => (h e he).2⟩,
      fun h e he => ⟨h.1 e he, h.2 e he⟩⟩
  rw [hinit]
  constructor
  · intro h
    have hb := forall_mem_varSpans.1 h.begins
    rw [allRead_optional] at hb
    exact ⟨⟨hb.1, by simpa using hb.2, h.exprs⟩, h.declared _ List.mem_cons_self⟩
  · rintro ⟨⟨hb, hs, hp⟩, hn⟩
    refine ⟨forall_mem_varSpans.2 ⟨hb, ?_⟩, hp, by simpa [declared] using hn⟩
    rw [allRead_optional]
    simpa using hs

/-- In a block a variable is written as it is at file scope. -/
theorem written_var {d : VarDecl} : (var d).Written m ↔ (fileVar d).Written m :=
  ⟨fun h => ⟨h.begins, h.exprs, h.declared⟩, fun h => ⟨h.begins, h.exprs, h.declared⟩⟩

theorem written_prototype {h : FunHeader} :
    (prototype h).Written m ↔
      (m.Begins h.span ∧ ∀ q ∈ h.params, m.Begins q.span ∧ Plain q.name) ∧ Plain h.name := by
  constructor
  · intro w
    have hs := w.begins
    have hn := w.declared
    simp only [spans, FunHeader.spans, declared, FunHeader.paramNames, List.forall_mem_cons,
      List.forall_mem_map] at hs hn
    exact ⟨⟨hs.1, fun q hq => ⟨hs.2 q hq, hn.2 q hq⟩⟩, hn.1⟩
  · rintro ⟨⟨hs, hps⟩, hn⟩
    refine ⟨?_, by simp [exprs], ?_⟩
    · simpa [spans, FunHeader.spans] using ⟨hs, fun q hq => (hps q hq).1⟩
    · simpa [declared, FunHeader.paramNames] using ⟨hn, fun q hq => (hps q hq).2⟩

theorem written_function {h : FunHeader} : (function h).Written m ↔ (prototype h).Written m :=
  ⟨fun w => ⟨w.begins, w.exprs, w.declared⟩, fun w => ⟨w.begins, w.exprs, w.declared⟩⟩

/-- The names with linkage are among those declared. -/
theorem Written.read {x : Part} (h : x.Written m) : x.Read m.Begins := by
  refine ⟨h.begins, fun name hname => h.declared name ?_⟩
  cases x with
  | var d =>
      rw [linked] at hname
      split at hname
      · exact hname
      · cases hname
  | fileVar d => exact hname
  | prototype f | function f => exact List.mem_cons.2 (.inl (List.mem_singleton.1 hname))
  | span s | loop l | expr e => cases hname

end Part

/-! ## Expressions -/

/-- What reading expressions ensures where the recursion is bounded by `bound`. The numbers say how
many calls can follow each other before a token is taken. -/
structure ExprGrammar (m : LineMap) (bound : Nat) : Prop where
  operand : ∀ c, c.Of m → 8 * c.rest.length + 1 ≤ bound →
    Reads m c.rest.length (operand bound) c (Expr.Written m)
  expression : ∀ least c, c.Of m → 8 * c.rest.length + 2 ≤ bound →
    Reads m c.rest.length (expression bound least) c (Expr.Written m)
  joints : ∀ least left c, c.Of m → 8 * c.rest.length + 1 ≤ bound → left.Written m →
    Reads m (c.rest.length + 1) (joints bound least left) c (Expr.Written m)

/-- The number that is read is one of the type that is chosen for it. -/
theorem Suffix.inRange_of_constant? {s : Suffix} {text : String} {k : Constant}
    (h : s.constant? text = some k) : k.InRange := by
  unfold constant? at h
  dsimp only at h
  split at h
  · cases h
  · obtain ⟨t, ht, rfl⟩ := Option.map_eq_some_iff.1 h
    have hholds := List.find?_some ht
    rwa [decide_eq_true_eq] at hholds

theorem reads_literal (hc : c.Of m) {s : Suffix} (hk : c.current.kind = .constant s) :
    Reads m c.rest.length (literal s) c (Expr.Written m) := by
  refine Reads.next hc (by simp [hk]) fun c₁ hc₁ hlen => ?_
  split
  · rename_i k hvalue
    refine Reads.pure hc₁ hlen (Expr.written_constant.2 ⟨hc.current.begins, ?_⟩)
    exact Suffix.inRange_of_constant? hvalue
  · refine Reads.fail ?_ hc.current.begins
    simp

/-- An operand takes at least one token, with at most eight calls before that one, so the bound on
the recursion is never met. -/
theorem reads_operand_succ (g : ExprGrammar m bound) (hc : c.Of m)
    (hb : 8 * c.rest.length ≤ bound) :
    Reads m c.rest.length (operand (bound + 1)) c (Expr.Written m) := by
  rw [operand]
  refine Reads.peek ?_
  have ht := hc.current.begins
  split
  · -- a literal
    rename_i s hk
    exact reads_literal hc hk
  · -- a name, alone or in front of arguments
    rename_i hk
    have hname := hc.current.plain hk
    refine Reads.next hc (by simp [hk]) fun c₁ hc₁ h₁ => ?_
    refine (Reads.accept hc₁ _).bind fun called c₂ _ hc₂ h₂ => ?_
    split
    · have hargs := Reads.separatedUntil .rightParen c₂.rest.length
        (fun c' hc' hl => g.expression 0 c' hc' (by omega)) bound c₂ hc₂ (Nat.le_refl _) (by omega)
      refine hargs.bind fun args c₃ ha hc₃ h₃ => ?_
      refine (Reads.punct hc₃ _).bind fun _ c₄ _ hc₄ h₄ => ?_
      refine Reads.spanFrom ht fun s hs => Reads.pure hc₄ (by omega) ?_
      exact Expr.written_call.2 ⟨ha, hs, hname⟩
    · refine Reads.pure hc₂ (by omega) (Expr.written_var.2 ⟨ht, hname⟩)
  · -- a cast, or an expression in parentheses
    rename_i hk
    refine Reads.next hc (by simp [hk]) fun c₁ hc₁ h₁ => Reads.peek ?_
    split
    · refine (Reads.specifiers hc₁).bind fun s c₂ _ hc₂ h₂ => ?_
      split
      · refine Reads.spanFrom hc₁.current.begins fun p hp => Reads.fail ?_ hp
        simp
      · refine (Reads.punct hc₂ _).bind fun _ c₃ _ hc₃ h₃ => ?_
        refine (g.operand c₃ hc₃ (by omega)).bind fun inner c₄ hi hc₄ h₄ => ?_
        refine Reads.spanFrom ht fun p hp => Reads.pure hc₄ (by omega) ?_
        exact Expr.written_cast.2 ⟨hi, hp⟩
    · refine (g.expression 0 c₁ hc₁ (by omega)).bind fun inner c₂ hi hc₂ h₂ => ?_
      exact (Reads.punct hc₂ _).bind fun _ c₃ _ hc₃ h₃ => Reads.pure hc₃ (by omega) hi
  · -- an operator in front of its operand
    rename_i p _ hk
    split
    · refine Reads.next hc (by simp [hk]) fun c₁ hc₁ h₁ => ?_
      refine (g.operand c₁ hc₁ (by omega)).bind fun inner c₂ hi hc₂ h₂ => ?_
      refine Reads.spanFrom ht fun s hs => Reads.pure hc₂ (by omega) ?_
      exact Expr.written_unary.2 ⟨hi, hs⟩
    · exact Reads.unexpected hc
  · exact Reads.unexpected hc
  · exact Reads.unexpected hc

theorem reads_expression_succ (g : ExprGrammar m bound) (hc : c.Of m)
    (hb : 8 * c.rest.length + 1 ≤ bound) (least : Nat) :
    Reads m c.rest.length (expression (bound + 1) least) c (Expr.Written m) := by
  rw [expression]
  refine (g.operand c hc hb).bind fun left c₁ hl hc₁ h₁ => ?_
  exact (g.joints least left c₁ hc₁ (by omega) hl).mono (by omega) fun _ h => h

theorem ofToken?_endOfInput {t : Token} (h : t.kind = .endOfInput) : Joint.ofToken? t = none := by
  simp [Joint.ofToken?, h]

/-- The loop of joints takes a token for each round, and gives up before the bound is met. -/
theorem reads_joints_succ (g : ExprGrammar m bound) (hc : c.Of m)
    (hb : 8 * c.rest.length ≤ bound) (least : Nat) {left : Expr} (hl : left.Written m) :
    Reads m (c.rest.length + 1) (joints (bound + 1) least left) c (Expr.Written m) := by
  rw [joints]
  refine Reads.peek ?_
  split
  · exact Reads.pure hc (by omega) hl
  · rename_i joint hj
    split
    · exact Reads.pure hc (by omega) hl
    · have hk : c.current.kind ≠ .endOfInput := by
        intro h
        rw [ofToken?_endOfInput h] at hj
        cases hj
      -- taking the operator makes up for the step from `bound + 1` to `bound`
      refine Reads.next hc hk fun c₁ hc₁ h₁ => ?_
      split
      · refine (g.expression _ c₁ hc₁ (by omega)).bind fun value c₂ hv hc₂ h₂ => ?_
        refine Reads.spanFrom (Expr.Written.begins hl) fun s hs => ?_
        refine (g.joints least _ c₂ hc₂ (by omega) ?_).mono (by omega) fun _ h => h
        exact Expr.written_assignment.2 ⟨⟨hl, hv⟩, hs⟩
      · refine (g.expression 0 c₁ hc₁ (by omega)).bind fun yes c₂ hy hc₂ h₂ => ?_
        refine (Reads.punct hc₂ _).bind fun _ c₃ _ hc₃ h₃ => ?_
        refine (g.expression _ c₃ hc₃ (by omega)).bind fun no c₄ hn hc₄ h₄ => ?_
        refine Reads.spanFrom (Expr.Written.begins hl) fun s hs => ?_
        refine (g.joints least _ c₄ hc₄ (by omega) ?_).mono (by omega) fun _ h => h
        exact Expr.written_conditional.2 ⟨⟨⟨hl, hy⟩, hn⟩, hs⟩
      · refine (g.expression _ c₁ hc₁ (by omega)).bind fun right c₂ hr hc₂ h₂ => ?_
        refine Reads.spanFrom (Expr.Written.begins hl) fun s hs => ?_
        refine (g.joints least _ c₂ hc₂ (by omega) ?_).mono (by omega) fun _ h => h
        exact Expr.written_binary.2 ⟨⟨hl, hr⟩, hs⟩

theorem exprGrammar (m : LineMap) (bound : Nat) : ExprGrammar m bound := by
  induction bound with
  | zero => exact ⟨fun _ _ h => by omega, fun _ _ _ h => by omega, fun _ _ _ _ h => by omega⟩
  | succ bound ih =>
      exact ⟨fun c hc h => reads_operand_succ ih hc (by omega),
        fun least c hc h => reads_expression_succ ih hc (by omega) least,
        fun least left c hc h hl => reads_joints_succ ih hc (by omega) least hl⟩

/-! ## Parts that were read -/

theorem allWritten_allParts {is : List Item} (h : ∀ i ∈ is, Part.AllWritten m i.parts) :
    Part.AllWritten m (Item.allParts is) := by
  induction is with
  | nil => simp [Item.allParts]
  | cons i is ih =>
      rw [Item.allParts, Part.allWritten_append]
      exact ⟨h i List.mem_cons_self, ih fun i' hi' => h i' (List.mem_cons_of_mem _ hi')⟩

theorem allWritten_item_decl {d : Decl} (h : Part.AllWritten m d.parts) :
    Part.AllWritten m (Item.decl d).parts := by
  cases d with
  | var d =>
      have hd : (Part.fileVar d).Written m := h _ List.mem_cons_self
      simpa [Item.parts] using Part.written_var.2 hd
  | prototype f => exact h
  | function f s body => exact h

/-! ## Statements and declarations -/

theorem reads_optionalExpression (hc : c.Of m) (hb : 8 * c.rest.length + 2 ≤ bound) (stop : Punct) :
    Reads m (c.rest.length + 1) (optionalExpression bound stop) c
      (fun o => ∀ e ∈ o, e.Written m) := by
  refine Reads.peek ?_
  split
  · exact Reads.pure hc (by omega) (by simp)
  · refine ((exprGrammar m bound).expression 0 c hc hb).bind fun e c₁ he hc₁ h₁ => ?_
    exact Reads.pure hc₁ (by omega) (by simpa using he)

theorem reads_parenthesized (hc : c.Of m) (hb : 8 * c.rest.length ≤ bound) :
    Reads m c.rest.length (parenthesized bound) c (Expr.Written m) := by
  refine (Reads.punct hc _).bind fun _ c₁ _ hc₁ h₁ => ?_
  refine ((exprGrammar m bound).expression 0 c₁ hc₁ (by omega)).bind fun e c₂ he hc₂ h₂ => ?_
  exact (Reads.punct hc₂ _).bind fun _ c₃ _ hc₃ h₃ => Reads.pure hc₃ (by omega) he

theorem reads_parameter (hc : c.Of m) :
    Reads m c.rest.length parameter c (fun p => m.Begins p.span ∧ Plain p.name) := by
  refine Reads.peek ((Reads.specifiers hc).bind fun s c₁ _ hc₁ h₁ => ?_)
  split
  · refine Reads.spanFrom hc.current.begins fun p hp => Reads.fail ?_ hp
    simp
  · refine (Reads.identifier hc₁).bind fun name c₂ hn hc₂ h₂ => ?_
    exact Reads.spanFrom hc.current.begins fun p hp => Reads.pure hc₂ (by omega) ⟨hp, hn.2⟩

/-- Parameters are read within the bound, one token at least for each. -/
theorem reads_parameters (hc : c.Of m) (hb : c.rest.length < bound) :
    Reads m c.rest.length (parameters bound) c
      (fun ps => ∀ p ∈ ps, m.Begins p.span ∧ Plain p.name) := by
  refine (Reads.punct hc _).bind fun _ c₁ _ hc₁ h₁ => Reads.get ?_
  split
  · rename_i h
    refine Reads.next hc₁ (by simp [h.1]) fun c₂ hc₂ h₂ => ?_
    exact Reads.skip hc₂ fun c₃ hc₃ h₃ => Reads.pure hc₃ (by omega) (by simp)
  split
  · exact Reads.unexpected hc₁
  · have hps := Reads.separatedUntil .rightParen c₁.rest.length
      (fun c' hc' _ => reads_parameter hc') bound c₁ hc₁ (Nat.le_refl _) (by omega)
    refine hps.bind fun ps c₂ hp hc₂ h₂ => ?_
    exact (Reads.punct hc₂ _).bind fun _ c₃ _ hc₃ h₃ => Reads.pure hc₃ (by omega) hp

/-- What reading statements and declarations ensures where the recursion is bounded by `bound`. -/
structure StmtGrammar (m : LineMap) (bound : Nat) : Prop where
  statement : ∀ c, c.Of m → 8 * c.rest.length + 3 ≤ bound →
    Reads m c.rest.length (statement bound) c (fun s => Part.AllWritten m s.parts)
  forInit : ∀ c, c.Of m → 8 * c.rest.length + 3 ≤ bound →
    Reads m c.rest.length (forInit bound) c (fun i => Part.AllWritten m i.parts)
  block : ∀ c, c.Of m → 8 * c.rest.length + 1 ≤ bound →
    Reads m c.rest.length (block bound) c
      (fun r => m.Begins r.1 ∧ Part.AllWritten m (Item.allParts r.2))
  item : ∀ c, c.Of m → 8 * c.rest.length + 4 ≤ bound →
    Reads m c.rest.length (item bound) c (fun i => Part.AllWritten m i.parts)
  declaration : ∀ c, c.Of m → 8 * c.rest.length + 1 ≤ bound →
    Reads m c.rest.length (declaration bound) c (fun d => Part.AllWritten m d.parts)

/-- A statement takes a token before it reads a part of itself, so a part has fewer tokens and a
smaller bound is enough. -/
theorem reads_statement_succ (g : StmtGrammar m bound) (hc : c.Of m)
    (hb : 8 * c.rest.length + 2 ≤ bound) :
    Reads m c.rest.length (statement (bound + 1)) c (fun s => Part.AllWritten m s.parts) := by
  rw [statement]
  refine Reads.peek ?_
  have ht := hc.current.begins
  split
  · -- `return`
    rename_i hk
    refine Reads.next hc (by simp [hk]) fun c₁ hc₁ h₁ => ?_
    refine ((exprGrammar m bound).expression 0 c₁ hc₁ (by omega)).bind fun e c₂ he hc₂ h₂ => ?_
    refine (Reads.punct hc₂ _).bind fun _ c₃ _ hc₃ h₃ => ?_
    exact Reads.spanFrom ht fun s hs =>
      Reads.pure hc₃ (by omega) (by simpa [Stmt.parts] using ⟨hs, he⟩)
  · -- `if`, with `else` or without
    rename_i hk
    refine Reads.next hc (by simp [hk]) fun c₁ hc₁ h₁ => ?_
    refine (reads_parenthesized hc₁ (by omega)).bind fun e c₂ he hc₂ h₂ => ?_
    refine (g.statement c₂ hc₂ (by omega)).bind fun yes c₃ hy hc₃ h₃ => ?_
    refine (Reads.accept hc₃ _).bind fun more c₄ _ hc₄ h₄ => ?_
    split
    · refine (g.statement c₄ hc₄ (by omega)).bind fun no c₅ hn hc₅ h₅ => ?_
      exact Reads.spanFrom ht fun s hs =>
        Reads.pure hc₅ (by omega) (by simpa [Stmt.parts] using ⟨hs, he, hy, hn⟩)
    · exact Reads.spanFrom ht fun s hs =>
        Reads.pure hc₄ (by omega) (by simpa [Stmt.parts] using ⟨hs, he, hy⟩)
  · -- a block
    refine (g.block c hc (by omega)).bind fun r c₁ hr hc₁ h₁ => ?_
    exact Reads.pure hc₁ (by omega) (by simpa [Stmt.parts] using hr)
  · -- `break`
    rename_i hk
    refine Reads.next hc (by simp [hk]) fun c₁ hc₁ h₁ => ?_
    refine (Reads.punct hc₁ _).bind fun _ c₂ _ hc₂ h₂ => ?_
    exact Reads.spanFrom ht fun s hs => Reads.pure hc₂ (by omega) (by simpa [Stmt.parts] using hs)
  · -- `continue`
    rename_i hk
    refine Reads.next hc (by simp [hk]) fun c₁ hc₁ h₁ => ?_
    refine (Reads.punct hc₁ _).bind fun _ c₂ _ hc₂ h₂ => ?_
    exact Reads.spanFrom ht fun s hs => Reads.pure hc₂ (by omega) (by simpa [Stmt.parts] using hs)
  · -- `while`
    rename_i hk
    refine Reads.next hc (by simp [hk]) fun c₁ hc₁ h₁ => ?_
    refine (reads_parenthesized hc₁ (by omega)).bind fun e c₂ he hc₂ h₂ => ?_
    refine (g.statement c₂ hc₂ (by omega)).bind fun body c₃ hbody hc₃ h₃ => ?_
    exact Reads.spanFrom ht fun s hs =>
      Reads.pure hc₃ (by omega) (by simpa [Stmt.parts] using ⟨hs, he, hbody⟩)
  · -- `do`
    rename_i hk
    refine Reads.next hc (by simp [hk]) fun c₁ hc₁ h₁ => ?_
    refine (g.statement c₁ hc₁ (by omega)).bind fun body c₂ hbody hc₂ h₂ => ?_
    refine (Reads.keyword hc₂ _).bind fun _ c₃ _ hc₃ h₃ => ?_
    refine (reads_parenthesized hc₃ (by omega)).bind fun e c₄ he hc₄ h₄ => ?_
    refine (Reads.punct hc₄ _).bind fun _ c₅ _ hc₅ h₅ => ?_
    exact Reads.spanFrom ht fun s hs =>
      Reads.pure hc₅ (by omega) (by simpa [Stmt.parts] using ⟨hs, hbody, he⟩)
  · -- `for`
    rename_i hk
    refine Reads.next hc (by simp [hk]) fun c₁ hc₁ h₁ => ?_
    refine (Reads.punct hc₁ _).bind fun _ c₂ _ hc₂ h₂ => ?_
    refine (g.forInit c₂ hc₂ (by omega)).bind fun init c₃ hi hc₃ h₃ => ?_
    refine (reads_optionalExpression hc₃ (by omega) _).bind fun e c₄ he hc₄ h₄ => ?_
    refine (Reads.punct hc₄ _).bind fun _ c₅ _ hc₅ h₅ => ?_
    refine (reads_optionalExpression hc₅ (by omega) _).bind fun post c₆ hp hc₆ h₆ => ?_
    refine (Reads.punct hc₆ _).bind fun _ c₇ _ hc₇ h₇ => ?_
    refine (g.statement c₇ hc₇ (by omega)).bind fun body c₈ hbody hc₈ h₈ => ?_
    refine Reads.spanFrom ht fun s hs => Reads.pure hc₈ (by omega) ?_
    simpa [Stmt.parts] using
      ⟨hs, hi, Part.allWritten_optional.2 he, Part.allWritten_optional.2 hp, hbody⟩
  · -- a semicolon alone
    rename_i hk
    exact Reads.next hc (by simp [hk]) fun c₁ hc₁ h₁ =>
      Reads.pure hc₁ h₁ (by simpa [Stmt.parts] using ht)
  · -- an expression
    refine ((exprGrammar m bound).expression 0 c hc (by omega)).bind fun e c₁ he hc₁ h₁ => ?_
    refine (Reads.punct hc₁ _).bind fun _ c₂ _ hc₂ h₂ => ?_
    exact Reads.spanFrom ht fun s hs =>
      Reads.pure hc₂ (by omega) (by simpa [Stmt.parts] using ⟨hs, he⟩)

theorem reads_forInit_succ (g : StmtGrammar m bound) (hc : c.Of m)
    (hb : 8 * c.rest.length + 2 ≤ bound) :
    Reads m c.rest.length (forInit (bound + 1)) c (fun i => Part.AllWritten m i.parts) := by
  rw [forInit]
  refine Reads.peek ?_
  split
  · refine (g.declaration c hc (by omega)).bind fun d c₁ hd hc₁ h₁ => ?_
    split
    · exact Reads.pure hc₁ h₁ (allWritten_item_decl hd)
    · refine Reads.fail ?_ ((hd _ List.mem_cons_self).begins _ List.mem_cons_self)
      simp
    · refine Reads.fail ?_ ((hd _ List.mem_cons_self).begins _ List.mem_cons_self)
      simp
  · refine (reads_optionalExpression hc (by omega) _).bind fun o c₁ ho hc₁ h₁ => ?_
    refine (Reads.punct hc₁ _).bind fun _ c₂ _ hc₂ h₂ => ?_
    split
    · exact Reads.pure hc₂ (by omega) Part.allWritten_nil
    · rename_i e
      have he : e.Written m := ho e rfl
      exact Reads.pure hc₂ (by omega)
        (Part.allWritten_cons.2 ⟨Part.written_expr.2 he, Part.allWritten_nil⟩)

theorem reads_block_succ (g : StmtGrammar m bound) (hc : c.Of m) (hb : 8 * c.rest.length ≤ bound) :
    Reads m c.rest.length (block (bound + 1)) c
      (fun r => m.Begins r.1 ∧ Part.AllWritten m (Item.allParts r.2)) := by
  rw [block]
  refine (Reads.punct hc _).bind fun first c₁ hf hc₁ h₁ => ?_
  have his := Reads.manyUntil .rightBrace c₁.rest.length
    (fun c' hc' hl => g.item c' hc' (by omega)) bound c₁ hc₁ (Nat.le_refl _) (by omega)
  refine his.bind fun is c₂ hi hc₂ h₂ => ?_
  refine (Reads.punct hc₂ _).bind fun _ c₃ _ hc₃ h₃ => ?_
  refine Reads.spanFrom hf.begins fun s hs => ?_
  exact Reads.pure hc₃ (by omega) ⟨hs, allWritten_allParts hi⟩

theorem reads_item_succ (g : StmtGrammar m bound) (hc : c.Of m)
    (hb : 8 * c.rest.length + 3 ≤ bound) :
    Reads m c.rest.length (item (bound + 1)) c (fun i => Part.AllWritten m i.parts) := by
  rw [item]
  refine Reads.peek ?_
  split
  · refine (g.declaration c hc (by omega)).bind fun d c₁ hd hc₁ h₁ => ?_
    exact Reads.pure hc₁ h₁ (allWritten_item_decl hd)
  · refine (g.statement c hc (by omega)).bind fun s c₁ hs hc₁ h₁ => ?_
    exact Reads.pure hc₁ h₁ hs

/-- A declaration takes a specifier first, so its initializer or body is read within the smaller
bound. -/
theorem reads_declaration_succ (g : StmtGrammar m bound) (hc : c.Of m)
    (hb : 8 * c.rest.length ≤ bound) :
    Reads m c.rest.length (declaration (bound + 1)) c (fun d => Part.AllWritten m d.parts) := by
  rw [declaration]
  have ht := hc.current.begins
  refine Reads.peek ((Reads.specifiers hc).bind fun s c₁ _ hc₁ h₁ => ?_)
  refine (Reads.identifier hc₁).bind fun name c₂ hn hc₂ h₂ => Reads.peek ?_
  split
  · refine (reads_parameters hc₂ (by omega)).bind fun ps c₃ hps hc₃ h₃ => Reads.peek ?_
    split
    · refine (g.block c₃ hc₃ (by omega)).bind fun r c₄ hr hc₄ h₄ => ?_
      refine Reads.spanFrom ht fun p hp => Reads.pure hc₄ (by omega) ?_
      simpa [Decl.parts] using
        ⟨Part.written_function.2 (Part.written_prototype.2 ⟨⟨hp, hps⟩, hn.2⟩), hr⟩
    · refine (Reads.punct hc₃ _).bind fun _ c₄ _ hc₄ h₄ => ?_
      refine Reads.spanFrom ht fun p hp => Reads.pure hc₄ (by omega) ?_
      simpa [Decl.parts] using Part.written_prototype.2 ⟨⟨hp, hps⟩, hn.2⟩
  · -- with or without an initializer, the declaration ends in the same way
    have hrest : ∀ (o : Option Expr) (c' : Cursor), (∀ e ∈ o, e.Written m) → c'.Of m →
        c'.rest.length ≤ c₂.rest.length → Reads m c.rest.length (do
          let _ ← punct .semicolon
          return Decl.var ⟨← spanFrom c.current.span, name.text, s.type, s.storage, o⟩) c'
          (fun d => Part.AllWritten m d.parts) := by
      intro o c' ho hc' hl
      refine (Reads.punct hc' _).bind fun _ c₃ _ hc₃ h₃ => ?_
      refine Reads.spanFrom ht fun p hp => Reads.pure hc₃ (by omega) ?_
      simpa [Decl.parts] using Part.written_fileVar.2 ⟨⟨hp, Part.allWritten_optional.2 ho⟩, hn.2⟩
    refine (Reads.accept hc₂ _).bind fun more c₃ _ hc₃ h₃ => ?_
    dsimp only
    split
    · have he := (exprGrammar m bound).expression 0 c₃ hc₃ (by omega)
      refine Reads.bind (Reads.map (he.mono (Nat.le_refl _) fun e h => ?_)) fun o c₄ ho hc₄ h₄ =>
        hrest o c₄ ho hc₄ (by omega)
      simpa using h
    · exact hrest none c₃ (by simp) hc₃ (by omega)

/-- Fuel by fuel, the statement grammar reads what is written. -/
theorem stmtGrammar (m : LineMap) (bound : Nat) : StmtGrammar m bound := by
  induction bound with
  | zero =>
      exact ⟨fun _ _ h => by omega, fun _ _ h => by omega, fun _ _ h => by omega,
        fun _ _ h => by omega, fun _ _ h => by omega⟩
  | succ bound ih =>
      exact ⟨fun c hc h => reads_statement_succ ih hc (by omega),
        fun c hc h => reads_forInit_succ ih hc (by omega),
        fun c hc h => reads_block_succ ih hc (by omega),
        fun c hc h => reads_item_succ ih hc (by omega),
        fun c hc h => reads_declaration_succ ih hc (by omega)⟩

/-! ## Programs -/

/-- The tokens of a text are refused at a piece that begins in it, or read to a program that is
written in it. -/
theorem ofTokens_written {ts : List Token} (h : TokensOf m ts) :
    Ensures (Program.ofTokens ts) (Fault.At m.Begins) (fun p => Part.AllWritten m p.parts) := by
  have hc := Cursor.of_start h
  have hlen : (Cursor.start ts).rest.length = ts.length := rfl
  have hb : 8 * (Cursor.start ts).rest.length + 16 = depthFor ts.length := by
    rw [hlen, depthFor]
    omega
  have hr : Reads m ((Cursor.start ts).rest.length + 1) (program (depthFor ts.length)) (.start ts)
      (fun p => Part.AllWritten m p.parts) := by
    refine Reads.peek ?_
    -- the depth that is chosen is enough for each declaration, wherever it begins
    have hds := Reads.manyUntilEnd (Cursor.start ts).rest.length
      (fun c' hc' hl => (stmtGrammar m (depthFor ts.length)).declaration c' hc' (by omega))
      (depthFor ts.length)
      _ hc (Nat.le_refl _) (by omega)
    refine hds.bind fun ds c₁ hd hc₁ h₁ => ?_
    refine (Reads.endOfInput hc₁).bind fun _ c₂ _ hc₂ h₂ => ?_
    refine Reads.spanFrom hc.current.begins fun s hs => Reads.pure hc₂ (by omega) ?_
    intro x hx
    obtain ⟨d, hmem, hxd⟩ := List.mem_flatMap.1 hx
    exact hd d hmem x hxd
  exact Ensures.map (hr.imp fun r h => h.1)

/-- What is written holds of every expression and of its parts. -/
theorem Program.proper_of_mem_exprs {p : Program} (h : Part.AllWritten m p.parts) {e : Expr}
    (he : e ∈ p.exprs) : ∀ a ∈ e.postorder, a.Proper := by
  obtain ⟨e₀, hmem, he⟩ := List.mem_flatMap.1 he
  obtain ⟨x, hx, he₀⟩ := List.mem_flatMap.1 hmem
  intro a ha
  exact (h x hx).exprs e₀ he₀ a (e₀.closed_postorder e he ha)

/-- The declarations of a program that is read begin in the text. -/
theorem ofTokens_ensures {ts : List Token} (h : TokensOf m ts) :
    Ensures (Program.ofTokens ts) (Fault.At m.Begins) (fun p => Part.AllRead m.Begins p.parts) :=
  (ofTokens_written h).imp fun _ hp x hx => (hp x hx).read

end

end IntegerC
