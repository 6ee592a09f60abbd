import IntegerC.Proofs.Grammar.Acceptance
import IntegerC.Proofs.Grammar.Spans

set_option autoImplicit false

/-! # Expressions of the grammar are read

What a parser does depends on the token behind the part that it reads: an operand is not followed by
a parenthesis, an expression not by a joint that its level lets in.
-/

namespace IntegerC

def TokenKind.beginsOperand : TokenKind → Bool
  | .constant _ | .identifier => true
  | .punct p => p = .leftParen || p.unaryOp?.isSome
  | .keyword _ | .endOfInput => false

/-- Every expression begins with a token that can begin an operand. -/
theorem Expr.Derives.exists_cons {lax : Bool} {p : Nat} {ls : List Lexeme} {e : Expr}
    (h : e.Derives lax p ls) : ∃ l rest, ls = l :: rest ∧ l.kind.beginsOperand = true := by
  induction h with
  | constant q hl hk => exact ⟨_, _, rfl, by rw [hl]; rfl⟩
  | var q hx => exact ⟨_, _, rfl, by rw [hx]; rfl⟩
  | call q hf => exact ⟨_, _, rfl, by rw [hf]; rfl⟩
  | parens hl | cast q hl => exact ⟨_, _, rfl, by rw [hl]; rfl⟩
  | unary q hl hop => exact ⟨_, _, rfl, by simp [hl, TokenKind.beginsOperand, hop]⟩
  | binary q hp ha hl hb iha | assignment q hp ha hl hb iha | conditional q hp ha hl hb hm hc iha =>
      obtain ⟨l, rest, rfl, hbegins⟩ := iha
      exact ⟨_, _, rfl, hbegins⟩

namespace Parser

variable {α β : Type} {lax : Bool} {c : Cursor} {l : Lexeme} {ls : List Lexeme}

/-! ## Expressions -/

/-- Whether an expression whose operators bind at least as tightly as `p` may stand in front of a
token of this kind: the token does not begin arguments and is no joint that belongs to the
expression. -/
def Follows (p : Nat) (k : TokenKind) : Prop :=
  k ≠ .punct .leftParen ∧ ∀ j, k.joint? = some j → j.left ≤ p

def OperandRead (ls : List Lexeme) (e : Expr) : Prop :=
  ∀ (n bound : Nat), 8 * n + 1 ≤ bound →
    Recognizes Expr.bare (operand bound) n (fun k => k ≠ .punct .leftParen) ls e

/-- The expression is read as what `joints` extends, wherever no more is asked for than `p`. -/
def ExprRead (p : Nat) (ls : List Lexeme) (e : Expr) : Prop :=
  ∀ (least : Nat) (l : Lexeme) (rest : List Lexeme) (ok : Expr → Cursor → Prop),
    least ≤ p → Follows p l.kind →
    (∀ bound c e', 8 * c.lexemes.length + 1 ≤ bound → c.lexemes = l :: rest → e'.bare = e.bare →
      Accepts (joints bound least e') c ok) →
    ∀ bound c, 8 * c.lexemes.length + 2 ≤ bound → c.lexemes = ls ++ l :: rest →
      Accepts (expression bound least) c ok

section

variable {e : Expr} {p q bound : Nat} {rest : List Lexeme}

/-- An operand is read as an expression of every level. -/
theorem OperandRead.expr (h : OperandRead ls e) (p : Nat) : ExprRead p ls e := by
  intro least l rest ok _ hl hok bound c hb hc
  obtain ⟨bound, rfl⟩ : ∃ b, bound = b + 1 := ⟨bound - 1, by omega⟩
  rw [expression]
  refine (h _ bound (by omega) c l rest (Nat.le_refl _) hc hl.1).bind fun e' c' h' => ?_
  obtain ⟨he', hc'⟩ := h'
  refine hok bound c' e' ?_ hc' he'
  have hlen : c'.lexemes.length ≤ c.lexemes.length := by
    rw [hc, hc']
    simp
  omega

/-- Where no joint is strong enough an expression is complete. -/
theorem accepts_joints_of_weak {least : Nat} {ok : Expr → Cursor → Prop} (hb : 1 ≤ bound)
    (hc : c.lexemes = l :: rest) (hweak : ∀ j, l.kind.joint? = some j → j.strength < least)
    (hok : ok e c) : Accepts (joints bound least e) c ok := by
  obtain ⟨bound, rfl⟩ : ∃ b, bound = b + 1 := ⟨bound - 1, by omega⟩
  rw [joints]
  refine .peek hc fun t hk _ => ?_
  have htoken : Joint.ofToken? t = l.kind.joint? := congrArg TokenKind.joint? hk
  rw [htoken]
  cases hj : l.kind.joint? with
  | none => exact .pure hok
  | some j =>
      dsimp only
      rw [if_pos (hweak j hj)]
      exact .pure hok

/-- An expression is read to its end in front of a joint that is too weak. -/
theorem ExprRead.recognizes (h : ExprRead p ls e) {n : Nat} (hb : 8 * n + 2 ≤ bound) :
    Recognizes Expr.bare (expression bound p) n
      (fun k => Follows p k ∧ ∀ j, k.joint? = some j → j.strength < p) ls e := by
  intro c l rest hn hc hl
  refine h p l rest _ (Nat.le_refl _) hl.1 (fun bound c' e' hb' hc' he' => ?_) bound c (by omega) hc
  exact accepts_joints_of_weak (by omega) hc' hl.2 ⟨he', hc'⟩

/-- The right operand of a joint is read to its end in front of what may follow the whole. -/
theorem ExprRead.right {j : Joint} (h : ExprRead j.right ls e) (hp : p ≤ j.strength) {n : Nat}
    (hb : 8 * n + 2 ≤ bound) :
    Recognizes Expr.bare (expression bound j.right) n (Follows p) ls e := by
  intro c l rest hn hc hl
  refine h.recognizes hb c l rest hn hc ⟨⟨hl.1, fun k hk => ?_⟩, fun k hk => ?_⟩
  · exact Nat.le_trans (hl.2 k hk) (Nat.le_trans hp j.strength_le_right)
  · exact (Joint.left_le_iff j k).1 (Nat.le_trans (hl.2 k hk) hp)

/-- The end of an expression of any level. -/
def EndsExpr (k : TokenKind) : Prop := k ≠ .punct .leftParen ∧ k.joint? = none

theorem EndsExpr.follows {k : TokenKind} (h : EndsExpr k) (p : Nat) : Follows p k :=
  ⟨h.1, fun j hj => by rw [h.2] at hj; cases hj⟩

theorem ExprRead.whole (h : ExprRead 0 ls e) {n : Nat} (hb : 8 * n + 2 ≤ bound) :
    Recognizes Expr.bare (expression bound 0) n EndsExpr ls e := fun c l rest hn hc hl =>
  h.recognizes hb c l rest hn hc ⟨hl.follows 0, fun j hj => by rw [hl.2] at hj; cases hj⟩

theorem operandRead_constant {s : Suffix} {k : Constant} (q : Span) (hl : l.kind = .constant s)
    (hk : s.constant? l.text = some k) : OperandRead [l] (.constant q.note k) := by
  intro n bound hb c l' rest _ hc _
  obtain ⟨bound, rfl⟩ : ∃ b, bound = b + 1 := ⟨bound - 1, by omega⟩
  rw [operand]
  refine .peek hc fun t htk _ => ?_
  rw [htk, hl]
  refine .next hc fun t' c' ht' hc' => ?_
  rw [ht', hk]
  exact .pure ⟨rfl, hc'⟩

theorem operandRead_var (q : Span) (hl : l.kind = .identifier) :
    OperandRead [l] (.var q.note l.text) := by
  intro n bound hb c l' rest _ hc hl'
  obtain ⟨bound, rfl⟩ : ∃ b, bound = b + 1 := ⟨bound - 1, by omega⟩
  rw [operand]
  refine .peek hc fun t htk ht => ?_
  rw [htk, hl]
  refine .next hc fun _ c₁ _ hc₁ => .accept hc₁ (fun h => absurd h hl') fun _ => ?_
  refine .pure ⟨?_, hc₁⟩
  rw [ht]
  rfl

/-- A name in front of a parenthesis is a call. Its arguments are read like a list with commas. -/
theorem operandRead_call {f r : Lexeme} (q : Span) (hf : f.kind = .identifier)
    (hl : l.kind = .punct .leftParen) {args : List (List Lexeme × Expr)}
    (hread : ∀ a ∈ args, ExprRead 0 a.1 a.2)
    (hbegins : ∀ a ∈ args, Begins (fun k => k.beginsOperand = true) a.1)
    (hls : Separated lax (args.map Prod.fst) ls) (hr : r.kind = .punct .rightParen) :
    OperandRead (f :: l :: (ls ++ [r])) (.call q.note f.text (args.map Prod.snd)) := by
  intro n bound hb c l' rest hn hc _
  obtain ⟨bound, rfl⟩ : ∃ b, bound = b + 1 := ⟨bound - 1, by omega⟩
  simp only [List.cons_append, List.append_assoc, List.nil_append] at hc
  rw [operand]
  refine .peek hc fun t htk ht => ?_
  rw [htk, hf]
  refine .next hc fun _ c₁ _ hc₁ => .accept hc₁ (fun _ c₂ hc₂ => ?_) fun h => absurd hl h
  have hlen : c.lexemes.length = c₂.lexemes.length + 2 := by rw [hc, hc₂]; rfl
  have hends : ∀ k : TokenKind, k = .punct .comma ∨ k = .punct .rightParen → EndsExpr k := by
    rintro k (rfl | rfl) <;> exact ⟨by simp, rfl⟩
  refine (accepts_separatedUntil (n := c₂.lexemes.length) (f := Expr.bare) (by decide) hls
    (fun a ha c l rest hn hc hk => ?_) (fun a ha => ?_) (Nat.le_refl _) (by omega) hc₂ hr).bind
      fun es c₃ h => ?_
  · exact (hread a ha).whole (by omega) c l rest hn hc (hends _ hk)
  · obtain ⟨u, us, hu, hk⟩ := hbegins a ha
    refine ⟨u, us, hu, ?_, ?_⟩ <;> intro e <;> rw [e] at hk <;> cases hk
  obtain ⟨hes, hc₃⟩ := h
  refine .punct hc₃ hr fun _ c₄ hc₄ => .spanFrom fun q' => .pure ⟨?_, hc₄⟩
  rw [Expr.bare, Expr.bare, Expr.allBare_eq_map, Expr.allBare_eq_map, hes, ht]
  rfl

/-- An expression in parentheses may have any joints. -/
theorem operandRead_parens {r : Lexeme} (hl : l.kind = .punct .leftParen) (h : ExprRead 0 ls e)
    (hbegins : Begins (fun k => k.beginsOperand = true) ls) (hr : r.kind = .punct .rightParen) :
    OperandRead (l :: (ls ++ [r])) e := by
  intro n bound hb c l' rest hn hc _
  obtain ⟨bound, rfl⟩ : ∃ b, bound = b + 1 := ⟨bound - 1, by omega⟩
  simp only [List.cons_append, List.append_assoc, List.nil_append] at hc
  rw [operand]
  refine .peek hc fun t htk _ => ?_
  rw [htk, hl]
  refine .next hc fun _ c₁ _ hc₁ => ?_
  have hlen : c.lexemes.length = c₁.lexemes.length + 1 := by rw [hc, hc₁]; rfl
  obtain ⟨u, us, rfl, hu⟩ := hbegins
  refine .peek hc₁ fun t' ht' _ => ?_
  have hno : t'.isSpecifier = false := by
    rw [Token.isSpecifier_eq, ht']
    revert hu
    cases u.kind <;> simp [TokenKind.beginsOperand, TokenKind.isSpecifier]
  rw [if_neg (by simp [hno])]
  refine (h.whole (n := c₁.lexemes.length) (by omega) c₁ r (l' :: rest) (Nat.le_refl _) hc₁
    ⟨by simp [hr], by rw [hr]; rfl⟩).bind fun e' c₂ h' => ?_
  obtain ⟨he', hc₂⟩ := h'
  exact .punct hc₂ hr fun _ c₃ hc₃ => .pure ⟨he', hc₃⟩

/-- A parenthesis in front of a specifier opens a cast, which binds as tightly as a unary
operator. -/
theorem operandRead_cast {r : Lexeme} {ws : List Lexeme} {t : IntType} (q : Span)
    (hl : l.kind = .punct .leftParen) (hs : Specifiers.Derives ws ⟨t, none⟩)
    (hr : r.kind = .punct .rightParen) (h : OperandRead ls e) :
    OperandRead (l :: (ws ++ r :: ls)) (.cast q.note t e) := by
  intro n bound hb c l' rest hn hc hl'
  obtain ⟨bound, rfl⟩ : ∃ b, bound = b + 1 := ⟨bound - 1, by omega⟩
  simp only [List.cons_append, List.append_assoc] at hc
  rw [operand]
  refine .peek hc fun t htk _ => ?_
  rw [htk, hl]
  refine .next hc fun _ c₁ _ hc₁ => ?_
  obtain ⟨w, ws', hw, hspecifier⟩ := hs.exists_cons
  refine .peek (hc₁.trans (by rw [hw]; rfl)) fun t' ht' _ => ?_
  rw [if_pos (by rw [Token.isSpecifier_eq, ht', hspecifier])]
  refine .specifiers hc₁ hs (by rw [hr]; rfl) fun c₂ hc₂ => ?_
  refine .punct hc₂ hr fun _ c₃ hc₃ => ?_
  have hlen : c₃.lexemes.length < c.lexemes.length := by
    rw [hc, hc₃]
    simp
    omega
  refine (h c₃.lexemes.length bound (by omega) c₃ l' rest (Nat.le_refl _) hc₃ hl').bind
    fun e' c₄ h => .spanFrom fun q' => .pure ⟨?_, h.2⟩
  rw [Expr.bare, Expr.bare, h.1]
  rfl

/-- The operand of a unary operator is read without joints, so they stay for the expression around
it. -/
theorem operandRead_unary {p : Punct} {op : UnaryOp} (q : Span) (hl : l.kind = .punct p)
    (hop : p.unaryOp? = some op) (h : OperandRead ls e) :
    OperandRead (l :: ls) (.unary q.note op e) := by
  intro n bound hb c l' rest hn hc hl'
  obtain ⟨bound, rfl⟩ : ∃ b, bound = b + 1 := ⟨bound - 1, by omega⟩
  rw [List.cons_append] at hc
  -- behind the operator it goes on in the same way whatever the operator is
  have hbehind : ∀ t : Token, Accepts (do
      let _ ← Parser.next
      let inner ← operand bound
      return Expr.unary (← spanFrom t.span).note op inner) c
      fun e' c' => e'.bare = (Expr.unary q.note op e).bare ∧ c'.lexemes = l' :: rest := by
    refine fun t => .next hc fun _ c₁ _ hc₁ => ?_
    have hlen : c.lexemes.length = c₁.lexemes.length + 1 := by rw [hc, hc₁]; rfl
    refine (h c₁.lexemes.length bound (by omega) c₁ l' rest (Nat.le_refl _) hc₁ hl').bind
      fun e' c₂ ⟨he', hc₂⟩ => .spanFrom fun q' => .pure ⟨?_, hc₂⟩
    rw [Expr.bare, Expr.bare, he']
    rfl
  rw [operand]
  refine .peek hc fun t htk _ => ?_
  rw [htk, hl]
  cases p with
  | minus | tilde | bang =>
      cases hop
      exact hbehind t
  | _ => cases hop

/-- Behind its left operand a joint is taken that is strong enough. -/
theorem accepts_joints_of_strong {least : Nat} {j : Joint} {left : Expr}
    {ok : Expr → Cursor → Prop} (hc : c.lexemes = l :: rest) (hj : l.kind.joint? = some j)
    (hleast : least ≤ j.strength)
    (hok : ∀ c', c'.lexemes = rest → Accepts (match j with
      | .assignment => do
          let value ← expression bound Joint.assignment.strength
          joints bound least (.assignment (← spanFrom left.span).note left value)
      | .conditional => do
          let yes ← expression bound 0
          let _ ← Parser.punct .colon
          let no ← expression bound Joint.conditional.strength
          joints bound least (.conditional (← spanFrom left.span).note left yes no)
      | .binary op => do
          let right ← expression bound ((Joint.binary op).strength + 1)
          joints bound least (.binary (← spanFrom left.span).note op left right)) c' ok) :
    Accepts (joints (bound + 1) least left) c ok := by
  rw [joints]
  refine .peek hc fun t hk _ => ?_
  have htoken : Joint.ofToken? t = some j := (congrArg TokenKind.joint? hk).trans hj
  rw [htoken]
  dsimp only
  rw [if_neg (Nat.not_lt.2 hleast)]
  refine .next hc fun _ c' _ hc' => ?_
  have h := hok c' hc'
  cases j <;> exact h

/-- The left operand of a joint is read up to the joint. -/
theorem ExprRead.left {j : Joint} {a : Expr} {rs : List Lexeme} (ha : ExprRead j.left ls a)
    (hp : p ≤ j.strength) (hl : l.kind.joint? = some j)
    (h : ∀ least l' rest bound c a' ok, least ≤ p → Follows p l'.kind →
      8 * c.lexemes.length + 1 ≤ bound → c.lexemes = l :: (rs ++ l' :: rest) → a'.bare = a.bare →
      (∀ bound c e', 8 * c.lexemes.length + 1 ≤ bound → c.lexemes = l' :: rest →
        e'.bare = e.bare → Accepts (joints bound least e') c ok) →
      Accepts (joints bound least a') c ok) :
    ExprRead p (ls ++ l :: rs) e := by
  intro least l' rest ok hleast hl' hok bound c hbound hc
  rw [List.append_assoc, List.cons_append] at hc
  refine ha least l _ ok (Nat.le_trans hleast (Nat.le_trans hp j.strength_le_left)) ⟨?_, ?_⟩
    (fun bound c a' hb hc ha' => h least l' rest bound c a' ok hleast hl' hb hc ha' hok)
    bound c hbound hc
  · intro e
    rw [e] at hl
    cases hl
  · intro k hk
    rw [hl] at hk
    cases hk
    exact Nat.le_refl _

/-- The left operand is read first. Then the joint takes the right one as far as it binds tightly
enough. -/
theorem exprRead_binary {op : BinaryOp} {rs : List Lexeme} {a b : Expr} (q : Span)
    (hp : p ≤ (Joint.binary op).strength) (ha : ExprRead (Joint.binary op).left ls a)
    (hl : l.kind.joint? = some (.binary op)) (hb : ExprRead (Joint.binary op).right rs b) :
    ExprRead p (ls ++ l :: rs) (.binary q.note op a b) := by
  refine ha.left hp hl fun least l' rest bound c a' ok hleast hl' hbound hc ha' hok => ?_
  obtain ⟨bound, rfl⟩ : ∃ b, bound = b + 1 := ⟨bound - 1, by omega⟩
  refine accepts_joints_of_strong hc hl (Nat.le_trans hleast hp) fun c₁ hc₁ => ?_
  have hlen : c.lexemes.length = c₁.lexemes.length + 1 := by rw [hc, hc₁]; rfl
  refine (hb.right (n := c₁.lexemes.length) hp (by omega) c₁ l' rest (Nat.le_refl _) hc₁ hl').bind
    fun b' c₂ ⟨hb', hc₂⟩ => .spanFrom fun q' => hok bound c₂ _ ?_ hc₂ ?_
  · have hlen₂ : c₂.lexemes.length ≤ c₁.lexemes.length := by
      rw [hc₁, hc₂]
      simp
    omega
  · rw [Expr.bare, Expr.bare, ha', hb']
    rfl

/-- Assignments go to the right: what is assigned may itself be an assignment. -/
theorem exprRead_assignment {rs : List Lexeme} {a b : Expr} (q : Span)
    (hp : p ≤ Joint.assignment.strength) (ha : ExprRead Joint.assignment.left ls a)
    (hl : l.kind.joint? = some .assignment) (hb : ExprRead Joint.assignment.right rs b) :
    ExprRead p (ls ++ l :: rs) (.assignment q.note a b) := by
  refine ha.left hp hl fun least l' rest bound c a' ok hleast hl' hbound hc ha' hok => ?_
  obtain ⟨bound, rfl⟩ : ∃ b, bound = b + 1 := ⟨bound - 1, by omega⟩
  refine accepts_joints_of_strong hc hl (Nat.le_trans hleast hp) fun c₁ hc₁ => ?_
  have hlen : c.lexemes.length = c₁.lexemes.length + 1 := by rw [hc, hc₁]; rfl
  refine (hb.right (n := c₁.lexemes.length) hp (by omega) c₁ l' rest (Nat.le_refl _) hc₁ hl').bind
    fun b' c₂ ⟨hb', hc₂⟩ => .spanFrom fun q' => hok bound c₂ _ ?_ hc₂ ?_
  · have hlen₂ : c₂.lexemes.length ≤ c₁.lexemes.length := by
      rw [hc₁, hc₂]
      simp
    omega
  · rw [Expr.bare, Expr.bare, ha', hb']
    rfl

/-- Between the question mark and the colon anything may stand, and the last arm may itself be a
conditional. -/
theorem exprRead_conditional {m : Lexeme} {ms rs : List Lexeme} {a b d : Expr} (q : Span)
    (hp : p ≤ Joint.conditional.strength) (ha : ExprRead Joint.conditional.left ls a)
    (hl : l.kind.joint? = some .conditional) (hb : ExprRead 0 ms b) (hm : m.kind = .punct .colon)
    (hd : ExprRead Joint.conditional.right rs d) :
    ExprRead p (ls ++ l :: (ms ++ m :: rs)) (.conditional q.note a b d) := by
  refine ha.left hp hl fun least l' rest bound c a' ok hleast hl' hbound hc ha' hok => ?_
  rw [List.append_assoc, List.cons_append] at hc
  obtain ⟨bound, rfl⟩ : ∃ b, bound = b + 1 := ⟨bound - 1, by omega⟩
  refine accepts_joints_of_strong hc hl (Nat.le_trans hleast hp) fun c₁ hc₁ => ?_
  have hlen : c.lexemes.length = c₁.lexemes.length + 1 := by rw [hc, hc₁]; rfl
  have hcolon : EndsExpr m.kind := ⟨by simp [hm], by rw [hm]; rfl⟩
  refine (hb.whole (n := c₁.lexemes.length) (by omega) c₁ m _ (Nat.le_refl _) hc₁ hcolon).bind
    fun b' c₂ ⟨hb', hc₂⟩ => .punct hc₂ hm fun _ c₃ hc₃ => ?_
  have hlen₃ : c₃.lexemes.length < c₁.lexemes.length := by
    rw [hc₁, hc₃]
    simp
    omega
  refine (hd.right (n := c₃.lexemes.length) hp (by omega) c₃ l' rest (Nat.le_refl _) hc₃ hl').bind
    fun d' c₄ ⟨hd', hc₄⟩ => .spanFrom fun q' => hok bound c₄ _ ?_ hc₄ ?_
  · have hlen₄ : c₄.lexemes.length ≤ c₃.lexemes.length := by
      rw [hc₃, hc₄]
      simp
    omega
  · rw [Expr.bare, Expr.bare, ha', hb', hd']
    rfl

end

/-- What the grammar derives is read up to its end, an operand also as an operand. -/
theorem read_of_derives {p : Nat} {ls : List Lexeme} {e : Expr} (h : e.Derives lax p ls) :
    (Joint.tightest ≤ p → OperandRead ls e) ∧ ExprRead p ls e := by
  induction h with
  | constant q hl hk =>
      have hop := operandRead_constant q hl hk
      exact ⟨fun _ => hop, hop.expr _⟩
  | var q hx =>
      have hop := operandRead_var q hx
      exact ⟨fun _ => hop, hop.expr _⟩
  | call q hf hl args hargs hls hr ih =>
      have hop := operandRead_call q hf hl (fun a ha => (ih a ha).2)
        (fun a ha => (hargs a ha).exists_cons) hls hr
      exact ⟨fun _ => hop, hop.expr _⟩
  | parens hl h hr ih =>
      have hop := operandRead_parens hl ih.2 h.exists_cons hr
      exact ⟨fun _ => hop, hop.expr _⟩
  | cast q hl hs hr ha ih =>
      have hop := operandRead_cast q hl hs hr (ih.1 (Nat.le_refl _))
      exact ⟨fun _ => hop, hop.expr _⟩
  | unary q hl hcop ha ih =>
      have hop := operandRead_unary q hl hcop (ih.1 (Nat.le_refl _))
      exact ⟨fun _ => hop, hop.expr _⟩
  -- an expression with an operator is no operand, as no operator binds so tightly
  | binary q hp ha hl hb iha ihb =>
      exact ⟨fun h => absurd (Nat.le_trans h hp) (Nat.not_le.2 (Joint.strength_lt_tightest _)),
        exprRead_binary q hp iha.2 hl ihb.2⟩
  | assignment q hp ha hl hb iha ihb =>
      exact ⟨fun h => absurd (Nat.le_trans h hp) (Nat.not_le.2 (Joint.strength_lt_tightest _)),
        exprRead_assignment q hp iha.2 hl ihb.2⟩
  | conditional q hp ha hl hb hm hc iha ihb ihc =>
      exact ⟨fun h => absurd (Nat.le_trans h hp) (Nat.not_le.2 (Joint.strength_lt_tightest _)),
        exprRead_conditional q hp iha.2 hl ihb.2 hm ihc.2⟩

/-- An expression is read up to its end. -/
theorem recognizes_expression {ls : List Lexeme} {e : Expr} (h : e.Derives lax 0 ls)
    {n bound : Nat} (hb : 8 * n + 2 ≤ bound) :
    Recognizes Expr.bare (expression bound 0) n EndsExpr ls e :=
  (read_of_derives h).2.whole hb

/-! ## Parts of statements and declarations -/

section

variable {n bound : Nat} {rest : List Lexeme}

theorem Recognizes.accepts {p : Parser α} {f : α → β} {next : TokenKind → Prop} {a : α}
    (h : Recognizes f p c.lexemes.length next ls a) (hc : c.lexemes = ls ++ l :: rest)
    (hl : next l.kind) : Accepts p c fun a' c' => f a' = f a ∧ c'.lexemes = l :: rest :=
  h c l rest (Nat.le_refl _) hc hl

/-- A missing expression is told by the token that stands in its place. -/
theorem recognizes_optionalExpression {o : Option Expr} {stop : Punct}
    (h : Expr.OptionDerives lax ls o) (hstop : EndsExpr (.punct stop))
    (hbegins : (TokenKind.punct stop).beginsOperand = false) (hb : 8 * n + 2 ≤ bound) :
    Recognizes (Option.map Expr.bare) (optionalExpression bound stop) n (fun k => k = .punct stop)
      ls o := by
  intro c l rest hn hc hl
  cases h with
  | none =>
      refine .peek hc fun t hk _ => ?_
      rw [if_pos (hk.trans hl)]
      exact .pure ⟨rfl, hc⟩
  | some he =>
      obtain ⟨u, us, hu, hfirst⟩ := he.exists_cons
      refine .peek (hc.trans (by rw [hu]; rfl)) fun t hk _ => ?_
      have hne : t.kind ≠ .punct stop := fun e => by
        rw [← hk, e, hbegins] at hfirst
        cases hfirst
      rw [if_neg hne]
      refine (recognizes_expression he hb c l rest hn hc (hl ▸ hstop)).bind fun e' c' h => ?_
      exact .pure ⟨congrArg some h.1, h.2⟩

/-- An expression in parentheses is read whole with enough fuel, whatever stands behind it. -/
theorem recognizes_parenthesized {e : Expr} (h : e.Parenthesized lax ls) (hb : 8 * n ≤ bound) :
    Recognizes Expr.bare (parenthesized bound) n (fun _ => True) ls e := by
  intro c l rest hn hc _
  cases h with
  | mk hl he hr =>
      simp only [List.cons_append, List.append_assoc, List.nil_append] at hc
      refine .punct hc hl fun _ c₁ hc₁ => ?_
      have hlen : c.lexemes.length = c₁.lexemes.length + 1 := by rw [hc, hc₁]; rfl
      refine ((recognizes_expression he (by omega)).accepts hc₁
        ⟨by simp [hr], by rw [hr]; rfl⟩).bind fun e' c₂ ⟨he', hc₂⟩ => ?_
      exact .punct hc₂ hr fun _ c₃ hc₃ => .pure ⟨he', hc₃⟩

/-- A parameter is read whole, whatever stands behind it. -/
theorem recognizes_parameter {p : Param} (h : p.Derives ls) :
    Recognizes Param.bare parameter n (fun _ => True) ls p := by
  intro c l rest _ hc _
  cases h with
  | mk q hs hx =>
      rw [List.append_assoc, List.singleton_append] at hc
      refine .look (.specifiers hc hs (by rw [hx]; rfl) fun c₁ hc₁ => ?_)
      rw [if_neg (by simp)]
      refine .identifier hc₁ hx fun t c₂ ht hc₂ => .spanFrom fun q' => .pure ⟨?_, hc₂⟩
      rw [ht]
      rfl

theorem begins_parameter {p : Param} (h : p.Derives ls) :
    Begins (fun k => k.isSpecifier = true) ls := by
  cases h with
  | mk q hs hx =>
      obtain ⟨u, us, rfl, hu⟩ := hs.exists_cons
      exact ⟨u, _, rfl, hu⟩

/-- A list of separated pieces begins as its first piece does. -/
theorem begins_separated {first : TokenKind → Prop} {pieces : List (List Lexeme)}
    (h : Separated lax pieces ls) (hne : pieces ≠ []) (hbegins : ∀ x ∈ pieces, Begins first x) :
    Begins first ls := by
  cases h with
  | nil => exact absurd rfl hne
  | single => exact hbegins _ List.mem_cons_self
  | cons hcomma hlast h =>
      obtain ⟨u, us, rfl, hu⟩ := hbegins _ List.mem_cons_self
      exact ⟨u, _, rfl, hu⟩

/-- Parameters are read back: one `void` between the parentheses for none, a list with commas
otherwise. -/
theorem recognizes_parameters {ps : List Param} (h : Param.AllDerive lax ls ps)
    (hb : n < bound) :
    Recognizes (List.map Param.bare) (parameters bound) n (fun _ => True) ls ps := by
  intro c l rest hn hc _
  cases h with
  | nothing hl hv hr =>
      refine .punct hc hl fun _ c₁ hc₁ => .get ?_
      -- `void` is the whole list only if the parenthesis follows at once
      have hcurrent : c₁.current.kind = .keyword .voidKw :=
        (congrArg Lexeme.kind (Cursor.current_of_lexemes hc₁)).trans hv
      have hfollowing : c₁.following.kind = .punct .rightParen := by
        rw [← Cursor.current_advance]
        have hr' := Cursor.current_of_lexemes (Cursor.lexemes_advance hc₁)
        exact (congrArg Lexeme.kind hr').trans hr
      rw [if_pos ⟨hcurrent, hfollowing⟩]
      exact .next hc₁ fun _ c₂ _ hc₂ => .next hc₂ fun _ c₃ _ hc₃ => .pure ⟨rfl, hc₃⟩
  | some hl params hne hparams hls hr =>
      simp only [List.cons_append, List.append_assoc, List.nil_append] at hc
      refine .punct hc hl fun _ c₁ hc₁ => .get ?_
      have hlen : c.lexemes.length = c₁.lexemes.length + 1 := by rw [hc, hc₁]; rfl
      have hbegins : ∀ x ∈ params, Begins (fun k => k.isSpecifier = true) x.1 :=
        fun x hx => begins_parameter (hparams x hx)
      obtain ⟨u, us, rfl, hu⟩ := begins_separated hls (by simpa using hne)
        (List.forall_mem_map.2 hbegins)
      have hcurrent : c₁.current.kind = u.kind :=
        congrArg Lexeme.kind (Cursor.current_of_lexemes hc₁)
      -- what begins a parameter is neither `void` nor the end of the list
      have hvoid : ¬ (c₁.current.kind = .keyword .voidKw ∧
          c₁.following.kind = .punct .rightParen) := fun h => by
        rw [← hcurrent, h.1] at hu
        cases hu
      have hnone : c₁.current.kind ≠ .punct .rightParen := fun h => by
        rw [← hcurrent, h] at hu
        cases hu
      rw [if_neg hvoid, if_neg hnone]
      refine (accepts_separatedUntil (n := c₁.lexemes.length) (f := Param.bare) (by decide) hls
        (fun x hx c l rest hn hc _ => recognizes_parameter (hparams x hx) c l rest hn hc trivial)
        (fun x hx => ?_) (Nat.le_refl _) (by omega) hc₁ hr).bind fun ps c₂ ⟨hps, hc₂⟩ => ?_
      · obtain ⟨w, ws, hw, hspecifier⟩ := hbegins x hx
        refine ⟨w, ws, hw, ?_, ?_⟩ <;> intro e <;> rw [e] at hspecifier <;> cases hspecifier
      · exact .punct hc₂ hr fun _ c₃ hc₃ => .pure ⟨hps, hc₃⟩

end

end Parser

end IntegerC
