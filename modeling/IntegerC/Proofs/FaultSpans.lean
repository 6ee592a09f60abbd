import IntegerC.Proofs.Compilation
import IntegerC.Proofs.Placing

set_option autoImplicit false

/-! # The pieces that faults blame

Both ends of every span in a program that was read are places of the text, and in order. So are the
ends of what a fault blames, with one exception: a missing type is blamed on a span that begins at
the token in the place of the type and ends with the token before it.
-/

namespace IntegerC

open IntegerC.Parser

/-! ## What is read -/

/-- An expression of which all parts have their ends in order. -/
def Expr.Covered (m : LineMap) (e : Expr) : Prop := ∀ s ∈ e.spans, m.Covers s

/-- The same, and a span from its start to what the cursor has reached has its ends in order. -/
def Expr.CoveredTo (m : LineMap) (e : Expr) (c : Cursor) : Prop :=
  e.Covered m ∧ m.Covers ⟨e.span.start, c.reached⟩

def Part.AllCovered (m : LineMap) (parts : List Part) : Prop :=
  ∀ x ∈ parts, ∀ s ∈ x.spans, m.Covers s

section

variable {m : LineMap} {ts : List Token} {bound : Nat} {c c' : Cursor}

namespace Expr

theorem covered_node {e : Expr} {l : List Span} (h : e.spans = l ++ [e.span]) :
    e.Covered m ↔ (∀ s ∈ l, m.Covers s) ∧ m.Covers e.span := by
  rw [Covered, h, List.forall_mem_append, List.forall_mem_singleton]

theorem forall_mem_spansAll {es : List Expr} :
    (∀ s ∈ spansAll es, m.Covers s) ↔ ∀ e ∈ es, e.Covered m := by
  induction es with
  | nil => simp
  | cons e es ih => rw [spansAll_cons, List.forall_mem_append, ih, List.forall_mem_cons, Covered]

theorem CoveredTo.later {e : Expr} (h : e.CoveredTo m c) (hc : c.In m ts) (hc' : c'.In m ts)
    (hlen : c'.rest.length ≤ c.rest.length) : e.CoveredTo m c' :=
  ⟨h.1, hc.covers_later hc' h.2 hlen⟩

end Expr

namespace Part

@[simp] theorem allCovered_nil : AllCovered m [] := by simp [AllCovered]

@[simp] theorem allCovered_cons {x : Part} {xs : List Part} :
    AllCovered m (x :: xs) ↔ (∀ s ∈ x.spans, m.Covers s) ∧ AllCovered m xs :=
  List.forall_mem_cons

@[simp] theorem allCovered_append {xs ys : List Part} :
    AllCovered m (xs ++ ys) ↔ AllCovered m xs ∧ AllCovered m ys :=
  List.forall_mem_append

theorem allCovered_optional {o : Option Expr} :
    AllCovered m (Part.optional o) ↔ ∀ e ∈ o, e.Covered m := by
  cases o <;> simp [Part.optional, spans, Expr.Covered]

end Part

theorem allCovered_allParts {is : List Item} (h : ∀ i ∈ is, Part.AllCovered m i.parts) :
    Part.AllCovered m (Item.allParts is) := by
  induction is with
  | nil => simp [Item.allParts]
  | cons i is ih =>
      rw [Item.allParts, Part.allCovered_append]
      exact ⟨h i List.mem_cons_self, ih fun i' hi' => h i' (List.mem_cons_of_mem _ hi')⟩

theorem allCovered_item_decl {d : Decl} (h : Part.AllCovered m d.parts) :
    Part.AllCovered m (Item.decl d).parts := by
  cases d with
  | var d =>
      have hd : ∀ s ∈ (Part.fileVar d).spans, m.Covers s := h _ List.mem_cons_self
      exact Part.allCovered_cons.2 ⟨hd, Part.allCovered_nil⟩
  | prototype f => exact h
  | function f s body => exact h

/-! ## Expressions -/

/-- Where reading expressions ends. -/
structure ExprPlaces (m : LineMap) (ts : List Token) (bound : Nat) : Prop where
  operand : ∀ c, c.In m ts →
    Places m ts c.rest.length (operand bound) c (fun e c' => e.CoveredTo m c')
  expression : ∀ least c, c.In m ts →
    Places m ts c.rest.length (expression bound least) c (fun e c' => e.CoveredTo m c')
  joints : ∀ least left c, c.In m ts → left.CoveredTo m c →
    Places m ts (c.rest.length + 1) (joints bound least left) c (fun e c' => e.CoveredTo m c')

/-- A node that is read from the token at `c` on. -/
theorem coveredTo_of_taken {e : Expr} {l : List Span} (hc : c.In m ts) (hc' : c'.In m ts)
    (hlen : c'.rest.length < c.rest.length) (hl : ∀ s ∈ l, m.Covers s)
    (hspans : e.spans = l ++ [e.span]) (hspan : e.span = ⟨c.current.span.start, c'.reached⟩) :
    e.CoveredTo m c' := by
  have hcovers := hc.covers_taken hc' hlen
  refine ⟨(Expr.covered_node hspans).2 ⟨hl, ?_⟩, ?_⟩ <;> rw [hspan] <;> exact hcovers

/-- An expression of one token is covered as far as the cursor behind that token. -/
theorem coveredTo_of_current {e : Expr} (hc : c.In m ts) (hc' : c'.In m ts)
    (hlen : c'.rest.length < c.rest.length) (hspans : e.spans = [e.span])
    (hspan : e.span = c.current.span) : e.CoveredTo m c' := by
  refine ⟨(Expr.covered_node (l := []) hspans).2 ⟨by simp, ?_⟩, ?_⟩
  · rw [hspan]
    exact hc.covers_span
  · rw [hspan]
    exact hc.covers_taken hc' hlen

theorem places_literal (hc : c.In m ts) {s : Suffix} (hk : c.current.kind = .constant s) :
    Places m ts c.rest.length (literal s) c (fun e c' => e.CoveredTo m c') := by
  refine Places.next hc (by simp [hk]) fun c₁ hc₁ h₁ => ?_
  split
  · exact Places.pure hc₁ h₁ (coveredTo_of_current hc hc₁ h₁ rfl rfl)
  · exact Places.fail hc.covers_span

/-- The spans in an operand have their ends in order, and what the cursor has reached lies behind
the start of the operand. -/
theorem places_operand_succ (g : ExprPlaces m ts bound) (hc : c.In m ts) :
    Places m ts c.rest.length (operand (bound + 1)) c (fun e c' => e.CoveredTo m c') := by
  rw [operand]
  refine Places.peek ?_
  split
  · -- a literal
    rename_i s hk
    exact places_literal hc hk
  · -- a name, alone or in front of arguments
    rename_i hk
    refine Places.next hc (by simp [hk]) fun c₁ hc₁ h₁ => ?_
    refine (Places.accept hc₁ _).bind fun called c₂ hc₂ h₂ _ => ?_
    split
    · have hargs := Places.separatedUntil .rightParen (q := Expr.Covered m)
        (fun c' hc' => (g.expression 0 c' hc').mono (Nat.le_refl _) fun _ _ h => h.1) bound c₂ hc₂
      refine hargs.bind fun args c₃ hc₃ h₃ ha => ?_
      refine (Places.punct hc₃ _).bind fun _ c₄ hc₄ h₄ _ => Places.spanFrom ?_
      exact Places.pure hc₄ (by omega) (coveredTo_of_taken hc hc₄ (by omega)
        (Expr.forall_mem_spansAll.2 ha) (Expr.spans_call _ _ _) rfl)
    · exact Places.pure hc₂ (by omega) (coveredTo_of_current hc hc₂ (by omega) rfl rfl)
  · -- a cast, or an expression in parentheses
    rename_i hk
    refine Places.next hc (by simp [hk]) fun c₁ hc₁ h₁ => Places.peek ?_
    split
    · refine (Places.specifiers hc₁).bind fun s c₂ hc₂ h₂ _ => ?_
      split
      · exact Places.spanFrom (Places.fail (hc₁.covers_taken hc₂ h₂))
      · refine (Places.punct hc₂ _).bind fun _ c₃ hc₃ h₃ _ => ?_
        refine (g.operand c₃ hc₃).bind fun inner c₄ hc₄ h₄ hi => Places.spanFrom ?_
        exact Places.pure hc₄ (by omega)
          (coveredTo_of_taken hc hc₄ (by omega) hi.1 (Expr.spans_cast _ _ _) rfl)
    · refine (g.expression 0 c₁ hc₁).bind fun inner c₂ hc₂ h₂ hi => ?_
      refine (Places.punct hc₂ _).bind fun _ c₃ hc₃ h₃ _ => ?_
      exact Places.pure hc₃ (by omega) (hi.later hc₂ hc₃ (by omega))
  · -- an operator in front of its operand
    rename_i p _ hk
    split
    · refine Places.next hc (by simp [hk]) fun c₁ hc₁ h₁ => ?_
      refine (g.operand c₁ hc₁).bind fun inner c₂ hc₂ h₂ hi => Places.spanFrom ?_
      exact Places.pure hc₂ (by omega)
        (coveredTo_of_taken hc hc₂ (by omega) hi.1 (Expr.spans_unary _ _ _) rfl)
    · exact Places.unexpected hc
  · exact Places.unexpected hc
  · exact Places.unexpected hc

theorem places_expression_succ (g : ExprPlaces m ts bound) (hc : c.In m ts) (least : Nat) :
    Places m ts c.rest.length (expression (bound + 1) least) c
      (fun e c' => e.CoveredTo m c') := by
  rw [expression]
  refine (g.operand c hc).bind fun left c₁ hc₁ h₁ hl => ?_
  exact (g.joints least left c₁ hc₁ hl).mono (by omega) fun _ _ h => h

/-- A joint keeps the start of its left operand and ends at what was reached. -/
theorem coveredTo_joint {e left : Expr} {l : List Span} (hl : m.Covers ⟨left.span.start, c.reached⟩)
    (hall : ∀ s ∈ l, m.Covers s) (hspans : e.spans = l ++ [e.span])
    (hspan : e.span = ⟨left.span.start, c.reached⟩) : e.CoveredTo m c := by
  refine ⟨(Expr.covered_node hspans).2 ⟨hall, ?_⟩, ?_⟩ <;> rw [hspan] <;> exact hl

/-- The whole begins where the left operand does, so its span has its ends in order whatever the
joint takes. -/
theorem places_joints_succ (g : ExprPlaces m ts bound) (hc : c.In m ts) (least : Nat) {left : Expr}
    (hl : left.CoveredTo m c) :
    Places m ts (c.rest.length + 1) (joints (bound + 1) least left) c
      (fun e c' => e.CoveredTo m c') := by
  rw [joints]
  refine Places.peek ?_
  split
  · exact Places.pure hc (by omega) hl
  · rename_i joint hj
    split
    · exact Places.pure hc (by omega) hl
    · have hk : c.current.kind ≠ .endOfInput := by
        intro h
        rw [ofToken?_endOfInput h] at hj
        cases hj
      refine Places.next hc hk fun c₁ hc₁ h₁ => ?_
      split
      · refine (g.expression _ c₁ hc₁).bind fun value c₂ hc₂ h₂ hv => Places.spanFrom ?_
        -- what stands to the left was covered by the tokens before, and is by more of them
        have hl₂ := hl.later hc hc₂ (by omega)
        refine (g.joints least _ c₂ hc₂ ?_).mono (by omega) fun _ _ h => h
        exact coveredTo_joint hl₂.2 (List.forall_mem_append.2 ⟨hl.1, hv.1⟩)
          (Expr.spans_assignment _ _ _) rfl
      · refine (g.expression 0 c₁ hc₁).bind fun yes c₂ hc₂ h₂ hy => ?_
        refine (Places.punct hc₂ _).bind fun _ c₃ hc₃ h₃ _ => ?_
        refine (g.expression _ c₃ hc₃).bind fun no c₄ hc₄ h₄ hn => Places.spanFrom ?_
        have hl₄ := hl.later hc hc₄ (by omega)
        refine (g.joints least _ c₄ hc₄ ?_).mono (by omega) fun _ _ h => h
        have hoperands := List.forall_mem_append.2 ⟨List.forall_mem_append.2 ⟨hl.1, hy.1⟩, hn.1⟩
        exact coveredTo_joint hl₄.2 hoperands (Expr.spans_conditional _ _ _ _) rfl
      · refine (g.expression _ c₁ hc₁).bind fun right c₂ hc₂ h₂ hr => Places.spanFrom ?_
        have hl₂ := hl.later hc hc₂ (by omega)
        refine (g.joints least _ c₂ hc₂ ?_).mono (by omega) fun _ _ h => h
        exact coveredTo_joint hl₂.2 (List.forall_mem_append.2 ⟨hl.1, hr.1⟩)
          (Expr.spans_binary _ _ _ _) rfl

/-- Fuel by fuel, the places of the whole expression grammar. -/
theorem exprPlaces (m : LineMap) (ts : List Token) (bound : Nat) : ExprPlaces m ts bound := by
  induction bound with
  | zero =>
      exact ⟨fun _ hc => Places.endless hc, fun _ _ hc => Places.endless hc,
        fun _ _ _ hc _ => Places.endless hc⟩
  | succ bound ih =>
      exact ⟨fun _ hc => places_operand_succ ih hc,
        fun least _ hc => places_expression_succ ih hc least,
        fun least _ _ hc hl => places_joints_succ ih hc least hl⟩

/-! ## Statements and declarations -/

theorem places_expression (hc : c.In m ts) :
    Places m ts c.rest.length (expression bound 0) c (fun e _ => e.Covered m) :=
  ((exprPlaces m ts bound).expression 0 c hc).mono (Nat.le_refl _) fun _ _ h => h.1

theorem places_optionalExpression (hc : c.In m ts) (stop : Punct) :
    Places m ts (c.rest.length + 1) (optionalExpression bound stop) c
      (fun o _ => ∀ e ∈ o, e.Covered m) := by
  refine Places.peek ?_
  split
  · exact Places.pure hc (by omega) (by simp)
  · refine (places_expression hc).bind fun e c₁ hc₁ h₁ he => ?_
    exact Places.pure hc₁ (by omega) (by simpa using he)

theorem places_parenthesized (hc : c.In m ts) :
    Places m ts c.rest.length (parenthesized bound) c (fun e _ => e.Covered m) := by
  refine (Places.punct hc _).bind fun _ c₁ hc₁ h₁ _ => ?_
  refine (places_expression hc₁).bind fun e c₂ hc₂ h₂ he => ?_
  exact (Places.punct hc₂ _).bind fun _ c₃ hc₃ h₃ _ => Places.pure hc₃ (by omega) he

theorem places_parameter (hc : c.In m ts) :
    Places m ts c.rest.length parameter c (fun p _ => m.Covers p.span) := by
  refine Places.peek ((Places.specifiers hc).bind fun s c₁ hc₁ h₁ _ => ?_)
  split
  · exact Places.spanFrom (Places.fail (hc.covers_taken hc₁ h₁))
  · refine (Places.identifier hc₁).bind fun name c₂ hc₂ h₂ _ => Places.spanFrom ?_
    exact Places.pure hc₂ (by omega) (hc.covers_taken hc₂ (by omega))

/-- The spans of parameters have their ends in order. -/
theorem places_parameters (hc : c.In m ts) :
    Places m ts c.rest.length (parameters bound) c (fun ps _ => ∀ p ∈ ps, m.Covers p.span) := by
  refine (Places.punct hc _).bind fun _ c₁ hc₁ h₁ _ => Places.get ?_
  split
  · rename_i h
    refine Places.next hc₁ (by simp [h.1]) fun c₂ hc₂ h₂ => ?_
    exact Places.skip hc₂ fun c₃ hc₃ h₃ => Places.pure hc₃ (by omega) (by simp)
  split
  · exact Places.unexpected hc₁
  · have hps := Places.separatedUntil .rightParen (q := fun p : Param => m.Covers p.span)
      (fun c' hc' => places_parameter hc') bound c₁ hc₁
    refine hps.bind fun ps c₂ hc₂ h₂ hp => ?_
    exact (Places.punct hc₂ _).bind fun _ c₃ hc₃ h₃ _ => Places.pure hc₃ (by omega) hp

/-- Where reading statements and declarations ends. -/
structure StmtPlaces (m : LineMap) (ts : List Token) (bound : Nat) : Prop where
  statement : ∀ c, c.In m ts →
    Places m ts c.rest.length (statement bound) c (fun s _ => Part.AllCovered m s.parts)
  forInit : ∀ c, c.In m ts →
    Places m ts c.rest.length (forInit bound) c (fun i _ => Part.AllCovered m i.parts)
  block : ∀ c, c.In m ts →
    Places m ts c.rest.length (block bound) c
      (fun r _ => m.Covers r.1 ∧ Part.AllCovered m (Item.allParts r.2))
  item : ∀ c, c.In m ts →
    Places m ts c.rest.length (item bound) c (fun i _ => Part.AllCovered m i.parts)
  declaration : ∀ c, c.In m ts →
    Places m ts c.rest.length (declaration bound) c (fun d _ => Part.AllCovered m d.parts)

/-- Every way to read a statement begins with the token at the cursor, so the span of the statement
begins there and ends at the token taken last. -/
theorem places_statement_succ (g : StmtPlaces m ts bound) (hc : c.In m ts) :
    Places m ts c.rest.length (statement (bound + 1)) c
      (fun s _ => Part.AllCovered m s.parts) := by
  rw [statement]
  refine Places.peek ?_
  split
  · -- `return`
    rename_i hk
    refine Places.next hc (by simp [hk]) fun c₁ hc₁ h₁ => ?_
    refine (places_expression hc₁).bind fun e c₂ hc₂ h₂ he => ?_
    refine (Places.punct hc₂ _).bind fun _ c₃ hc₃ h₃ _ => Places.spanFrom ?_
    have hs := hc.covers_taken hc₃ (by omega)
    exact Places.pure hc₃ (by omega) (by simpa [Stmt.parts, Part.spans] using ⟨hs, he⟩)
  · -- `if`, with `else` or without
    rename_i hk
    refine Places.next hc (by simp [hk]) fun c₁ hc₁ h₁ => ?_
    refine (places_parenthesized hc₁).bind fun e c₂ hc₂ h₂ he => ?_
    refine (g.statement c₂ hc₂).bind fun yes c₃ hc₃ h₃ hy => ?_
    refine (Places.accept hc₃ _).bind fun more c₄ hc₄ h₄ _ => ?_
    split
    · refine (g.statement c₄ hc₄).bind fun no c₅ hc₅ h₅ hn => Places.spanFrom ?_
      have hs := hc.covers_taken hc₅ (by omega)
      exact Places.pure hc₅ (by omega) (by simpa [Stmt.parts, Part.spans] using ⟨hs, he, hy, hn⟩)
    · have hs := hc.covers_taken hc₄ (by omega)
      exact Places.spanFrom (Places.pure hc₄ (by omega)
        (by simpa [Stmt.parts, Part.spans] using ⟨hs, he, hy⟩))
  · -- a block
    refine (g.block c hc).bind fun r c₁ hc₁ h₁ hr => ?_
    exact Places.pure hc₁ (by omega) (by simpa [Stmt.parts, Part.spans] using hr)
  · -- `break`
    rename_i hk
    refine Places.next hc (by simp [hk]) fun c₁ hc₁ h₁ => ?_
    refine (Places.punct hc₁ _).bind fun _ c₂ hc₂ h₂ _ => Places.spanFrom ?_
    have hs := hc.covers_taken hc₂ (by omega)
    exact Places.pure hc₂ (by omega) (by simpa [Stmt.parts, Part.spans] using hs)
  · -- `continue`
    rename_i hk
    refine Places.next hc (by simp [hk]) fun c₁ hc₁ h₁ => ?_
    refine (Places.punct hc₁ _).bind fun _ c₂ hc₂ h₂ _ => Places.spanFrom ?_
    have hs := hc.covers_taken hc₂ (by omega)
    exact Places.pure hc₂ (by omega) (by simpa [Stmt.parts, Part.spans] using hs)
  · -- `while`
    rename_i hk
    refine Places.next hc (by simp [hk]) fun c₁ hc₁ h₁ => ?_
    refine (places_parenthesized hc₁).bind fun e c₂ hc₂ h₂ he => ?_
    refine (g.statement c₂ hc₂).bind fun body c₃ hc₃ h₃ hbody => Places.spanFrom ?_
    have hs := hc.covers_taken hc₃ (by omega)
    exact Places.pure hc₃ (by omega) (by simpa [Stmt.parts, Part.spans] using ⟨hs, he, hbody⟩)
  · -- `do`
    rename_i hk
    refine Places.next hc (by simp [hk]) fun c₁ hc₁ h₁ => ?_
    refine (g.statement c₁ hc₁).bind fun body c₂ hc₂ h₂ hbody => ?_
    refine (Places.keyword hc₂ _).bind fun _ c₃ hc₃ h₃ _ => ?_
    refine (places_parenthesized hc₃).bind fun e c₄ hc₄ h₄ he => ?_
    refine (Places.punct hc₄ _).bind fun _ c₅ hc₅ h₅ _ => Places.spanFrom ?_
    have hs := hc.covers_taken hc₅ (by omega)
    exact Places.pure hc₅ (by omega) (by simpa [Stmt.parts, Part.spans] using ⟨hs, hbody, he⟩)
  · -- `for`
    rename_i hk
    refine Places.next hc (by simp [hk]) fun c₁ hc₁ h₁ => ?_
    refine (Places.punct hc₁ _).bind fun _ c₂ hc₂ h₂ _ => ?_
    refine (g.forInit c₂ hc₂).bind fun init c₃ hc₃ h₃ hi => ?_
    refine (places_optionalExpression hc₃ _).bind fun e c₄ hc₄ h₄ he => ?_
    refine (Places.punct hc₄ _).bind fun _ c₅ hc₅ h₅ _ => ?_
    refine (places_optionalExpression hc₅ _).bind fun post c₆ hc₆ h₆ hp => ?_
    refine (Places.punct hc₆ _).bind fun _ c₇ hc₇ h₇ _ => ?_
    refine (g.statement c₇ hc₇).bind fun body c₈ hc₈ h₈ hbody => Places.spanFrom ?_
    have hs := hc.covers_taken hc₈ (by omega)
    refine Places.pure hc₈ (by omega) ?_
    simpa [Stmt.parts, Part.spans] using
      ⟨hs, hi, Part.allCovered_optional.2 he, Part.allCovered_optional.2 hp, hbody⟩
  · -- a semicolon alone
    rename_i hk
    exact Places.next hc (by simp [hk]) fun c₁ hc₁ h₁ =>
      Places.pure hc₁ h₁ (by simpa [Stmt.parts, Part.spans] using hc.covers_span)
  · -- an expression
    refine (places_expression hc).bind fun e c₁ hc₁ h₁ he => ?_
    refine (Places.punct hc₁ _).bind fun _ c₂ hc₂ h₂ _ => Places.spanFrom ?_
    have hs := hc.covers_taken hc₂ (by omega)
    exact Places.pure hc₂ (by omega) (by simpa [Stmt.parts, Part.spans] using ⟨hs, he⟩)

theorem places_forInit_succ (g : StmtPlaces m ts bound) (hc : c.In m ts) :
    Places m ts c.rest.length (forInit (bound + 1)) c
      (fun i _ => Part.AllCovered m i.parts) := by
  rw [forInit]
  refine Places.peek ?_
  split
  · refine (g.declaration c hc).bind fun d c₁ hc₁ h₁ hd => ?_
    split
    · exact Places.pure hc₁ h₁ (allCovered_item_decl hd)
    · exact Places.fail (hd _ List.mem_cons_self _ List.mem_cons_self)
    · exact Places.fail (hd _ List.mem_cons_self _ List.mem_cons_self)
  · refine (places_optionalExpression hc _).bind fun o c₁ hc₁ h₁ ho => ?_
    refine (Places.punct hc₁ _).bind fun _ c₂ hc₂ h₂ _ => ?_
    split
    · exact Places.pure hc₂ (by omega) Part.allCovered_nil
    · rename_i e
      have he : e.Covered m := ho e rfl
      exact Places.pure hc₂ (by omega) (Part.allCovered_cons.2 ⟨he, Part.allCovered_nil⟩)

/-- The span of a block and all that stands in it are covered. -/
theorem places_block_succ (g : StmtPlaces m ts bound) (hc : c.In m ts) :
    Places m ts c.rest.length (block (bound + 1)) c
      (fun r _ => m.Covers r.1 ∧ Part.AllCovered m (Item.allParts r.2)) := by
  rw [block]
  refine (Places.punct hc _).bind fun first c₁ hc₁ h₁ hf => ?_
  subst hf
  refine (Places.manyUntil .rightBrace g.item bound c₁ hc₁).bind fun is c₂ hc₂ h₂ hi => ?_
  refine (Places.punct hc₂ _).bind fun _ c₃ hc₃ h₃ _ => Places.spanFrom ?_
  exact Places.pure hc₃ (by omega) ⟨hc.covers_taken hc₃ (by omega), allCovered_allParts hi⟩

theorem places_item_succ (g : StmtPlaces m ts bound) (hc : c.In m ts) :
    Places m ts c.rest.length (item (bound + 1)) c (fun i _ => Part.AllCovered m i.parts) := by
  rw [item]
  refine Places.peek ?_
  split
  · refine (g.declaration c hc).bind fun d c₁ hc₁ h₁ hd => ?_
    exact Places.pure hc₁ h₁ (allCovered_item_decl hd)
  · refine (g.statement c hc).bind fun s c₁ hc₁ h₁ hs => ?_
    exact Places.pure hc₁ h₁ hs

/-- The same for a declaration, which begins at its first specifier. -/
theorem places_declaration_succ (g : StmtPlaces m ts bound) (hc : c.In m ts) :
    Places m ts c.rest.length (declaration (bound + 1)) c
      (fun d _ => Part.AllCovered m d.parts) := by
  rw [declaration]
  refine Places.peek ((Places.specifiers hc).bind fun s c₁ hc₁ h₁ _ => ?_)
  refine (Places.identifier hc₁).bind fun name c₂ hc₂ h₂ _ => Places.peek ?_
  split
  · refine (places_parameters hc₂).bind fun ps c₃ hc₃ h₃ hps => Places.peek ?_
    split
    · refine (g.block c₃ hc₃).bind fun r c₄ hc₄ h₄ hr => Places.spanFrom ?_
      have hs := hc.covers_taken hc₄ (by omega)
      refine Places.pure hc₄ (by omega) ?_
      simpa [Decl.parts, Part.spans, FunHeader.spans] using ⟨⟨hs, hps⟩, hr⟩
    · refine (Places.punct hc₃ _).bind fun _ c₄ hc₄ h₄ _ => Places.spanFrom ?_
      have hs := hc.covers_taken hc₄ (by omega)
      refine Places.pure hc₄ (by omega) ?_
      simpa [Decl.parts, Part.spans, FunHeader.spans] using ⟨hs, hps⟩
  · -- with or without an initializer, the declaration ends in the same way
    have hrest : ∀ (o : Option Expr) (c' : Cursor), (∀ e ∈ o, e.Covered m) → c'.In m ts →
        c'.rest.length ≤ c₂.rest.length → Places m ts c.rest.length (do
          let _ ← punct .semicolon
          return Decl.var ⟨← spanFrom c.current.span, name.text, s.type, s.storage, o⟩) c'
          (fun d _ => Part.AllCovered m d.parts) := by
      intro o c' ho hc' hl
      refine (Places.punct hc' _).bind fun _ c₃ hc₃ h₃ _ => Places.spanFrom ?_
      have hs := hc.covers_taken hc₃ (by omega)
      refine Places.pure hc₃ (by omega) ?_
      cases o with
      | none => simpa [Decl.parts, Part.spans, VarDecl.spans] using hs
      | some e => simpa [Decl.parts, Part.spans, VarDecl.spans] using ⟨hs, ho e rfl⟩
    refine (Places.accept hc₂ _).bind fun more c₃ hc₃ h₃ _ => ?_
    dsimp only
    split
    · have he : Places m ts c₃.rest.length (expression bound 0) c₃ fun e _ => e.Covered m :=
        places_expression hc₃
      refine Places.bind (Places.map (he.mono (Nat.le_refl _) fun e _ h => ?_))
        fun o c₄ hc₄ h₄ ho => hrest o c₄ ho hc₄ (by omega)
      simpa using h
    · exact hrest none c₃ (by simp) hc₃ (by omega)

/-- Fuel by fuel, the places of the whole statement grammar. -/
theorem stmtPlaces (m : LineMap) (ts : List Token) (bound : Nat) : StmtPlaces m ts bound := by
  induction bound with
  | zero =>
      exact ⟨fun _ hc => Places.endless hc, fun _ hc => Places.endless hc,
        fun _ hc => Places.endless hc, fun _ hc => Places.endless hc,
        fun _ hc => Places.endless hc⟩
  | succ bound ih =>
      exact ⟨fun _ hc => places_statement_succ ih hc, fun _ hc => places_forInit_succ ih hc,
        fun _ hc => places_block_succ ih hc, fun _ hc => places_item_succ ih hc,
        fun _ hc => places_declaration_succ ih hc⟩

/-! ## Programs -/

/-- Tokens in order are refused at a piece with its ends in order or for a missing type, or read to
a program all spans of which have their ends in order. -/
theorem ofTokens_placed (h : TokensInOrder m ts) :
    Ensures (Program.ofTokens ts) (Fault.Placed m ts) (fun p => Part.AllCovered m p.parts) := by
  have hc := Cursor.in_start h
  have hr : Places m ts ((Cursor.start ts).rest.length + 1) (program (depthFor ts.length))
      (.start ts) (fun p _ => Part.AllCovered m p.parts) := by
    refine Places.peek ?_
    have hds := Places.manyUntilEnd (stmtPlaces m ts (depthFor ts.length)).declaration
      (depthFor ts.length) _ hc
    refine hds.bind fun ds c₁ hc₁ h₁ hd => ?_
    refine (Places.endOfInput hc₁).bind fun _ c₂ hc₂ h₂ _ => Places.spanFrom ?_
    refine Places.pure hc₂ (by omega) ?_
    intro x hx
    obtain ⟨d, hmem, hxd⟩ := List.mem_flatMap.1 hx
    exact hd d hmem x hxd
  exact Ensures.map (hr.imp fun r h => h.2.2)

end

/-! ## Texts -/

/-- A piece of the text that is no token runs forward. -/
theorem scan_covers (m : LineMap) (cs : List Char) : ∀ (start : Nat) (fresh : Bool) (skip : Nat),
    Ensures (scan m start fresh skip cs) (fun f => ∃ s, f.span = some s ∧ m.Covers s)
      fun _ => True := by
  -- over the characters, whatever the offset, since a piece is skipped one character at a time
  induction cs with
  | nil =>
      intro start fresh skip
      rw [scan]
      exact .pure trivial
  | cons c cs ih =>
      intro start fresh skip
      cases skip with
      | succ skip =>
          rw [scan]
          exact ih _ _ _
      | zero =>
          rw [scan]
          split
          · exact .error ⟨_, rfl, LineMap.covers_span (by omega)⟩
          · exact ih _ _ _
          · exact .map (ih _ _ _)

/-- What a program that was read from a text blames has its ends in order. -/
theorem Program.covered_of_text {text : String} {ts : List Token} {tree : Program}
    (hts : tokens text = .ok ts) (htree : Program.ofTokens ts = .ok tree) :
    Part.AllRead (LineMap.ofChars text.toList).Covers tree.parts := fun x hx =>
  ⟨(ofTokens_placed (tokensInOrder hts)).ok_of_eq htree x hx,
    (Program.allRead_of_text hts htree x hx).plain⟩

/-- Whatever refuses a text blames a piece of it whose ends are places of the text and in order,
unless it is a missing type that is found missing in front of a token that is not the first. -/
theorem Stage.FailsWith.covers_or_misses {text : String} {f : Fault} {s : Stage}
    (h : s.FailsWith text f) : ∃ piece, f.span = some piece ∧
      ((LineMap.ofChars text.toList).Covers piece ∨
        s = .parsing ∧ ∃ ts, tokens text = .ok ts ∧ f.MissesType ts piece) := by
  have hstage := h.blames.1
  cases s with
  | lexing =>
    obtain ⟨piece, hpiece, hcovers⟩ := (scan_covers _ _ _ _ _).bad_of_eq h
    exact ⟨piece, hpiece, .inl hcovers⟩
  | parsing =>
    obtain ⟨ts, hts, hf⟩ := h
    obtain ⟨piece, hpiece, hplaced⟩ := (ofTokens_placed (tokensInOrder hts)).bad_of_eq hf
    exact ⟨piece, hpiece, hplaced.imp id fun hmisses => ⟨rfl, ts, hts, hmisses⟩⟩
  | validation =>
    obtain ⟨ts, tree, hts, htree, hf⟩ := h
    have hread := Program.covered_of_text hts htree
    obtain ⟨-, piece, hpiece, hcovers⟩ := (Program.validate_ensures hread).bad_of_eq hf
    exact ⟨piece, hpiece, .inl hcovers⟩
  | threeAddress => exact absurd hstage (by decide)
  | machineCode => exact absurd hstage (by decide)

/-- A parameter without a type, behind a comma and a blank. -/
def untypedParameterText : String := "int f(int a, b);"

/-- The blame for the missing type begins at the parameter, and ends before it. -/
theorem covers_untypedParameterText : ∃ f ts piece,
    Stage.FailsWith untypedParameterText f .parsing ∧ tokens untypedParameterText = .ok ts ∧
    f.span = some piece ∧ f.MissesType ts piece ∧ piece = ⟨⟨1, 14, 13⟩, ⟨1, 13, 12⟩⟩ := by
  have h : ((tokens untypedParameterText).toOption.bind fun ts =>
      match Program.ofTokens ts with
      | .ok _ => none
      | .error f => f.span) = some ⟨⟨1, 14, 13⟩, ⟨1, 13, 12⟩⟩ := by
    decide +kernel
  obtain ⟨ts, hts, h⟩ := toOption_bind_eq_some.1 h
  cases hf : Program.ofTokens ts with
  | ok tree => rw [hf] at h; cases h
  | error f =>
    rw [hf] at h
    have hspan : f.span = some ⟨⟨1, 14, 13⟩, ⟨1, 13, 12⟩⟩ := h
    have hfails : Stage.FailsWith untypedParameterText f .parsing := ⟨ts, hts, hf⟩
    obtain ⟨piece, hpiece, hcovers⟩ := hfails.covers_or_misses
    rw [hspan] at hpiece
    cases hpiece
    rcases hcovers with hcovers | ⟨-, ts', hts', hmisses⟩
    · exact absurd hcovers.ordered (by decide)
    · exact ⟨f, ts', _, hfails, hts', hspan, hmisses, rfl⟩

end IntegerC
