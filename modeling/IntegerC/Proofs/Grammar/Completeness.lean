import IntegerC.Proofs.Grammar.Expressions

set_option autoImplicit false

/-! # What is in the grammar is read

A list of tokens that the grammar derives is read to the tree that it spells, up to spans. A
statement that ends with an `if` is not followed by an `else`.
-/

namespace IntegerC

/-! ## Statements and declarations -/

/-- The kinds of tokens that a phrase can begin with. -/
def Phrase.first : Phrase → TokenKind → Bool
  | .stmt _, k =>
      !k.isSpecifier && k ≠ .keyword .elseKw && k ≠ .punct .rightBrace && k ≠ .endOfInput
  | .item _, k => k ≠ .keyword .elseKw && k ≠ .punct .rightBrace && k ≠ .endOfInput
  | .decl _, k => k.isSpecifier
  | .block _, k => k = .punct .leftBrace
  | .init _, _ => true

theorem Phrase.first_of_beginsOperand {k : TokenKind} (h : k.beginsOperand = true) (s : Stmt) :
    (Phrase.stmt s).first k = true := by
  cases k with
  | constant | identifier => rfl
  | punct p => cases p <;> first | rfl | cases h
  | keyword | endOfInput => cases h

theorem Phrase.first_of_isSpecifier {k : TokenKind} (h : k.isSpecifier = true) (i : Item) :
    (Phrase.item i).first k = true := by
  cases k with
  | keyword w => cases w <;> first | rfl | cases h
  | _ => cases h

/-- Each phrase begins with a token of one of the kinds that the parser looks for. -/
theorem Phrase.Derives.begins {lax : Bool} {ls : List Lexeme} {x : Phrase} (h : x.Derives lax ls) :
    Parser.Begins (fun k => x.first k = true) ls := by
  induction h with
  | ret q hk | ifThen q hk | ifElse q hk | breakLoop q hk | continueLoop q hk | whileLoop q hk
  | doLoop q hk | forLoop q hk | null q hk | block hk | noInit hk =>
      exact ⟨_, _, rfl, by rw [hk]; rfl⟩
  | compound q h ih =>
      obtain ⟨u, us, hu, hfirst⟩ := ih
      exact ⟨u, us, hu, by rw [of_decide_eq_true hfirst]; rfl⟩
  | expr q he hr | exprInit he hr =>
      obtain ⟨u, us, rfl, hu⟩ := he.exists_cons
      exact ⟨u, _, rfl, by first | rfl | exact first_of_beginsOperand hu _⟩
  | stmtItem h ih =>
      obtain ⟨u, us, hu, hfirst⟩ := ih
      refine ⟨u, us, hu, ?_⟩
      simp only [first, Bool.and_eq_true] at hfirst ⊢
      exact ⟨⟨hfirst.1.1.2, hfirst.1.2⟩, hfirst.2⟩
  | declItem h ih =>
      obtain ⟨u, us, hu, hfirst⟩ := ih
      exact ⟨u, us, hu, first_of_isSpecifier hfirst _⟩
  | var q hs hx | prototype q hs hx | function q q' hs hx =>
      obtain ⟨u, us, rfl, hu⟩ := hs.exists_cons
      exact ⟨u, _, rfl, hu⟩
  | declInit h ih =>
      obtain ⟨u, us, hu, -⟩ := ih
      exact ⟨u, us, hu, rfl⟩

namespace Parser

/-- The phrase is read, a statement in front of what is no `else` that belongs to it. -/
def PhraseRead (ls : List Lexeme) : Phrase → Prop
  | .stmt s => ∀ n bound, 8 * n + 3 ≤ bound → Recognizes Stmt.bare (statement bound) n
      (fun k => s.endsOpen = true → k ≠ .keyword .elseKw) ls s
  | .item i => ∀ n bound, 8 * n + 4 ≤ bound →
      Recognizes Item.bare (item bound) n (fun k => k ≠ .keyword .elseKw) ls i
  | .decl d => ∀ n bound, 8 * n + 1 ≤ bound →
      Recognizes Decl.bare (declaration bound) n (fun _ => True) ls d
  | .block is => ∀ n bound, 8 * n + 1 ≤ bound →
      Recognizes (fun r => Item.allBare r.2) (block bound) n (fun _ => True) ls (.nowhere, is)
  | .init i => ∀ n bound, 8 * n + 3 ≤ bound →
      Recognizes ForInit.bare (forInit bound) n (fun _ => True) ls i

section

variable {lax : Bool} {l r : Lexeme} {ls cs : List Lexeme} {e : Expr} {s : Stmt}

theorem endsExpr_semicolon (h : l.kind = .punct .semicolon) : EndsExpr l.kind :=
  h ▸ ⟨nofun, rfl⟩

/-- The parser tells a `return` statement by its first token. -/
theorem phraseRead_ret {k : Lexeme} (q : Span) (hk : k.kind = .keyword .returnKw)
    (he : e.Derives lax 0 ls) (hr : r.kind = .punct .semicolon) :
    PhraseRead (k :: (ls ++ [r])) (.stmt (.ret q e)) := by
  intro n bound hb c u rest hn hc _
  obtain ⟨bound, rfl⟩ : ∃ b, bound = b + 1 := ⟨bound - 1, by omega⟩
  simp only [List.cons_append, List.append_assoc, List.nil_append] at hc
  rw [statement]
  refine .peek hc fun t htk _ => ?_
  rw [htk, hk]
  refine .next hc fun _ c₁ _ hc₁ => ?_
  have hlen : c.lexemes.length = c₁.lexemes.length + 1 := by rw [hc, hc₁]; rfl
  refine ((recognizes_expression he (by omega)).accepts hc₁ (endsExpr_semicolon hr)).bind
    fun e' c₂ h => .punct h.2 hr fun _ c₃ hc₃ => .spanFrom fun q' => .pure ⟨?_, hc₃⟩
  rw [Stmt.bare, Stmt.bare, h.1]

/-- Without an `else` behind it, the body ends the statement. -/
theorem phraseRead_ifThen {k : Lexeme} (q : Span) (hk : k.kind = .keyword .ifKw)
    (he : e.Parenthesized lax cs) (hs : PhraseRead ls (.stmt s)) :
    PhraseRead (k :: (cs ++ ls)) (.stmt (.ifThen q e s)) := by
  intro n bound hb c u rest hn hc hu
  obtain ⟨bound, rfl⟩ : ∃ b, bound = b + 1 := ⟨bound - 1, by omega⟩
  simp only [List.cons_append, List.append_assoc] at hc
  have hnone : u.kind ≠ .keyword .elseKw := hu rfl
  rw [statement]
  refine .peek hc fun t htk _ => ?_
  rw [htk, hk]
  refine .next hc fun _ c₁ _ hc₁ => ?_
  have hlen : c.lexemes.length = c₁.lexemes.length + 1 := by rw [hc, hc₁]; rfl
  obtain ⟨v, vs, hv⟩ : ∃ v vs, ls ++ u :: rest = v :: vs := List.exists_cons_of_ne_nil (by simp)
  refine ((recognizes_parenthesized he (by omega)).accepts (hv ▸ hc₁) trivial).bind
    fun e' c₂ h => ?_
  obtain ⟨he', hc₂⟩ := h
  have hlen₂ : c₂.lexemes.length ≤ c₁.lexemes.length := by
    rw [hc₁, hc₂, ← hv]
    simp
  refine ((hs _ bound (by omega)).accepts (hc₂.trans hv.symm) fun _ => hnone).bind
    fun s' c₃ h => ?_
  obtain ⟨hs', hc₃⟩ := h
  refine .accept hc₃ (fun h => absurd h hnone) fun _ => .spanFrom fun q' => .pure ⟨?_, hc₃⟩
  rw [Stmt.bare, Stmt.bare, he', hs']

/-- The `else` is taken by the nearest `if` that may have one. The body ends with no such `if`, so
it is taken by this one. -/
theorem phraseRead_ifElse {k o : Lexeme} {rs : List Lexeme} {no : Stmt} (q : Span)
    (hk : k.kind = .keyword .ifKw) (he : e.Parenthesized lax cs) (hs : PhraseRead ls (.stmt s))
    (hclosed : s.endsOpen = false) (ho : o.kind = .keyword .elseKw)
    (hno : PhraseRead rs (.stmt no)) :
    PhraseRead (k :: (cs ++ (ls ++ o :: rs))) (.stmt (.ifElse q e s no)) := by
  intro n bound hb c u rest hn hc hu
  obtain ⟨bound, rfl⟩ : ∃ b, bound = b + 1 := ⟨bound - 1, by omega⟩
  simp only [List.cons_append, List.append_assoc] at hc
  rw [statement]
  refine .peek hc fun t htk _ => ?_
  rw [htk, hk]
  refine .next hc fun _ c₁ _ hc₁ => ?_
  have hlen : c.lexemes.length = c₁.lexemes.length + 1 := by rw [hc, hc₁]; rfl
  obtain ⟨v, vs, hv⟩ : ∃ v vs, ls ++ o :: (rs ++ u :: rest) = v :: vs :=
    List.exists_cons_of_ne_nil (by simp)
  refine ((recognizes_parenthesized he (by omega)).accepts (hv ▸ hc₁) trivial).bind
    fun e' c₂ h => ?_
  obtain ⟨he', hc₂⟩ := h
  have hlen₂ : c₂.lexemes.length ≤ c₁.lexemes.length := by
    rw [hc₁, hc₂, ← hv]
    simp
  -- the first branch is closed, so it does not take the second one for itself
  have hopen : s.endsOpen = true → o.kind ≠ .keyword .elseKw := fun h => by
    rw [hclosed] at h
    cases h
  refine ((hs _ bound (by omega)).accepts (hc₂.trans hv.symm) hopen).bind
    fun s' c₃ hs' => .accept hs'.2 (fun _ c₄ hc₄ => ?_) fun h => absurd ho h
  have hlen₄ : c₄.lexemes.length ≤ c₁.lexemes.length := by
    rw [hc₁, hc₄]
    simp
    omega
  refine ((hno _ bound (by omega)).accepts hc₄ hu).bind
    fun no' c₅ hno' => .spanFrom fun q' => .pure ⟨?_, hno'.2⟩
  rw [Stmt.bare, Stmt.bare, he', hs'.1, hno'.1]

/-- A compound statement is read as the block that it is, since its first token tells it from other
statements. -/
theorem phraseRead_compound {is : List Item} (q : Span) (h : PhraseRead ls (.block is))
    (hbegins : Begins (fun k => (Phrase.block is).first k = true) ls) :
    PhraseRead ls (.stmt (.block q is)) := by
  intro n bound hb c u rest hn hc _
  obtain ⟨bound, rfl⟩ : ∃ b, bound = b + 1 := ⟨bound - 1, by omega⟩
  obtain ⟨v, vs, rfl, hv⟩ := hbegins
  rw [statement]
  refine .peek hc fun t htk _ => ?_
  rw [htk, of_decide_eq_true hv]
  refine (h n bound (by omega) c u rest hn hc trivial).bind fun r c₁ h => .pure ⟨?_, h.2⟩
  exact congrArg (Stmt.block .nowhere) h.1

theorem phraseRead_breakLoop {k : Lexeme} (q : Span) (hk : k.kind = .keyword .breakKw)
    (hr : r.kind = .punct .semicolon) : PhraseRead [k, r] (.stmt (.breakLoop q none)) := by
  intro n bound hb c u rest hn hc _
  obtain ⟨bound, rfl⟩ : ∃ b, bound = b + 1 := ⟨bound - 1, by omega⟩
  rw [statement]
  refine .peek hc fun t htk _ => ?_
  rw [htk, hk]
  exact .next hc fun _ c₁ _ hc₁ => .punct hc₁ hr fun _ c₂ hc₂ => .spanFrom fun q' =>
    .pure ⟨rfl, hc₂⟩

theorem phraseRead_continueLoop {k : Lexeme} (q : Span) (hk : k.kind = .keyword .continueKw)
    (hr : r.kind = .punct .semicolon) : PhraseRead [k, r] (.stmt (.continueLoop q none)) := by
  intro n bound hb c u rest hn hc _
  obtain ⟨bound, rfl⟩ : ∃ b, bound = b + 1 := ⟨bound - 1, by omega⟩
  rw [statement]
  refine .peek hc fun t htk _ => ?_
  rw [htk, hk]
  exact .next hc fun _ c₁ _ hc₁ => .punct hc₁ hr fun _ c₂ hc₂ => .spanFrom fun q' =>
    .pure ⟨rfl, hc₂⟩

/-- A loop ends where its body does, so what may stand behind the loop is what may stand behind the
body. -/
theorem phraseRead_whileLoop {k : Lexeme} (q : Span) (hk : k.kind = .keyword .whileKw)
    (he : e.Parenthesized lax cs) (hs : PhraseRead ls (.stmt s)) :
    PhraseRead (k :: (cs ++ ls)) (.stmt (.whileLoop q none e s)) := by
  intro n bound hb c u rest hn hc hu
  obtain ⟨bound, rfl⟩ : ∃ b, bound = b + 1 := ⟨bound - 1, by omega⟩
  simp only [List.cons_append, List.append_assoc] at hc
  rw [statement]
  refine .peek hc fun t htk _ => ?_
  rw [htk, hk]
  refine .next hc fun _ c₁ _ hc₁ => ?_
  have hlen : c.lexemes.length = c₁.lexemes.length + 1 := by rw [hc, hc₁]; rfl
  obtain ⟨v, vs, hv⟩ : ∃ v vs, ls ++ u :: rest = v :: vs := List.exists_cons_of_ne_nil (by simp)
  refine ((recognizes_parenthesized he (by omega)).accepts (hv ▸ hc₁) trivial).bind
    fun e' c₂ h => ?_
  obtain ⟨he', hc₂⟩ := h
  have hlen₂ : c₂.lexemes.length ≤ c₁.lexemes.length := by
    rw [hc₁, hc₂, ← hv]
    simp
  refine ((hs _ bound (by omega)).accepts (hc₂.trans hv.symm) hu).bind
    fun s' c₃ h => .spanFrom fun q' => .pure ⟨?_, h.2⟩
  rw [Stmt.bare, Stmt.bare, he', h.1]

/-- The body of a `do` loop stands in front of `while`, which no `else` can be. -/
theorem phraseRead_doLoop {k w : Lexeme} (q : Span) (hk : k.kind = .keyword .doKw)
    (hs : PhraseRead ls (.stmt s)) (hw : w.kind = .keyword .whileKw) (he : e.Parenthesized lax cs)
    (hr : r.kind = .punct .semicolon) :
    PhraseRead (k :: (ls ++ w :: (cs ++ [r]))) (.stmt (.doLoop q none s e)) := by
  intro n bound hb c u rest hn hc _
  obtain ⟨bound, rfl⟩ : ∃ b, bound = b + 1 := ⟨bound - 1, by omega⟩
  simp only [List.cons_append, List.append_assoc, List.nil_append] at hc
  rw [statement]
  refine .peek hc fun t htk _ => ?_
  rw [htk, hk]
  refine .next hc fun _ c₁ _ hc₁ => ?_
  have hlen : c.lexemes.length = c₁.lexemes.length + 1 := by rw [hc, hc₁]; rfl
  refine ((hs _ bound (by omega)).accepts hc₁ fun _ => by simp [hw]).bind
    fun s' c₂ hs' => .keyword hs'.2 hw fun _ c₃ hc₃ => ?_
  have hlen₃ : c₃.lexemes.length ≤ c₁.lexemes.length := by
    rw [hc₁, hc₃]
    simp
    omega
  refine ((recognizes_parenthesized he (by omega)).accepts hc₃ trivial).bind
    fun e' c₄ he' => .punct he'.2 hr fun _ c₅ hc₅ => .spanFrom fun q' => .pure ⟨?_, hc₅⟩
  rw [Stmt.bare, Stmt.bare, hs'.1, he'.1]

/-- The first semicolon of a `for` header is read with what stands before it, the second one by
itself. -/
theorem phraseRead_forLoop {k m d : Lexeme} {is ps : List Lexeme} {i : ForInit}
    {o post : Option Expr} (q : Span) (hk : k.kind = .keyword .forKw)
    (hl : l.kind = .punct .leftParen) (hi : PhraseRead is (.init i))
    (ho : Expr.OptionDerives lax cs o) (hm : m.kind = .punct .semicolon)
    (hpost : Expr.OptionDerives lax ps post) (hd : d.kind = .punct .rightParen)
    (hs : PhraseRead ls (.stmt s)) :
    PhraseRead (k :: l :: (is ++ (cs ++ m :: (ps ++ d :: ls))))
      (.stmt (.forLoop q none i o post s)) := by
  intro n bound hb c u rest hn hc hu
  obtain ⟨bound, rfl⟩ : ∃ b, bound = b + 1 := ⟨bound - 1, by omega⟩
  simp only [List.cons_append, List.append_assoc] at hc
  rw [statement]
  refine .peek hc fun t htk _ => ?_
  rw [htk, hk]
  refine .next hc fun _ c₁ _ hc₁ => .punct hc₁ hl fun _ c₂ hc₂ => ?_
  have hlen : c.lexemes.length = c₂.lexemes.length + 2 := by rw [hc, hc₂]; rfl
  obtain ⟨v, vs, hv⟩ : ∃ v vs, cs ++ m :: (ps ++ d :: (ls ++ u :: rest)) = v :: vs :=
    List.exists_cons_of_ne_nil (by simp)
  refine ((hi _ bound (by omega)).accepts (hv ▸ hc₂) trivial).bind fun i' c₃ h => ?_
  obtain ⟨hi', hc₃⟩ := h
  have hlen₃ : c₃.lexemes.length ≤ c₂.lexemes.length := by
    rw [hc₂, hc₃, ← hv]
    simp
  -- both expressions end in front of tokens that no expression goes on with
  have hsemicolon : EndsExpr (.punct .semicolon) := ⟨by simp, rfl⟩
  have hparen : EndsExpr (.punct .rightParen) := ⟨by simp, rfl⟩
  refine ((recognizes_optionalExpression ho hsemicolon rfl (by omega)).accepts
    (hc₃.trans hv.symm) hm).bind fun o' c₄ ho' => .punct ho'.2 hm fun _ c₅ hc₅ => ?_
  have hlen₅ : c₅.lexemes.length ≤ c₂.lexemes.length := by
    rw [hc₂, hc₅]
    simp
    omega
  refine ((recognizes_optionalExpression hpost hparen rfl (by omega)).accepts hc₅ hd).bind
    fun post' c₆ hpost' => .punct hpost'.2 hd fun _ c₇ hc₇ => ?_
  have hlen₇ : c₇.lexemes.length ≤ c₅.lexemes.length := by
    rw [hc₅, hc₇]
    simp
    omega
  refine ((hs _ bound (by omega)).accepts hc₇ hu).bind
    fun s' c₈ hs' => .spanFrom fun q' => .pure ⟨?_, hs'.2⟩
  rw [Stmt.bare, Stmt.bare, hi', ho'.1, hpost'.1, hs'.1]

theorem phraseRead_null (q : Span) (hr : r.kind = .punct .semicolon) :
    PhraseRead [r] (.stmt (.null q)) := by
  intro n bound hb c u rest hn hc _
  obtain ⟨bound, rfl⟩ : ∃ b, bound = b + 1 := ⟨bound - 1, by omega⟩
  rw [statement]
  refine .peek hc fun t htk _ => ?_
  rw [htk, hr]
  exact .next hc fun _ c₁ _ hc₁ => .pure ⟨rfl, hc₁⟩

/-- A statement that begins like an expression is one: no keyword begins an operand. -/
theorem phraseRead_expr (q : Span) (he : e.Derives lax 0 ls) (hr : r.kind = .punct .semicolon) :
    PhraseRead (ls ++ [r]) (.stmt (.expr q e)) := by
  intro n bound hb c u rest hn hc _
  obtain ⟨bound, rfl⟩ : ∃ b, bound = b + 1 := ⟨bound - 1, by omega⟩
  rw [List.append_assoc, List.singleton_append] at hc
  obtain ⟨v, vs, hv, hfirst⟩ := he.exists_cons
  have hbehind : ∀ first : Span, Accepts (do
      let e ← expression bound 0
      let _ ← Parser.punct .semicolon
      return Stmt.expr (← spanFrom first) e) c
      fun s' c' => s'.bare = (Stmt.expr q e).bare ∧ c'.lexemes = u :: rest := by
    intro first
    refine (recognizes_expression he (by omega) c r _ hn hc (endsExpr_semicolon hr)).bind
      fun e' c₁ h => .punct h.2 hr fun _ c₂ hc₂ => .spanFrom fun q' => .pure ⟨?_, hc₂⟩
    rw [Stmt.bare, Stmt.bare, h.1]
  rw [statement]
  refine .peek (hc.trans (by rw [hv]; rfl)) fun t htk _ => ?_
  rw [htk]
  -- no other statement begins like an expression
  cases hkind : v.kind with
  | constant | identifier => exact hbehind _
  | punct p =>
      rw [hkind] at hfirst
      cases p <;> first | exact hbehind _ | cases hfirst
  | keyword | endOfInput =>
      rw [hkind] at hfirst
      cases hfirst

/-- An item that begins with no specifier is a statement. -/
theorem phraseRead_stmtItem (h : PhraseRead ls (.stmt s))
    (hbegins : Begins (fun k => (Phrase.stmt s).first k = true) ls) :
    PhraseRead ls (.item (.stmt s)) := by
  intro n bound hb c u rest hn hc hu
  obtain ⟨bound, rfl⟩ : ∃ b, bound = b + 1 := ⟨bound - 1, by omega⟩
  obtain ⟨v, vs, rfl, hv⟩ := hbegins
  have hno : v.kind.isSpecifier = false := by
    simp only [Phrase.first, Bool.and_eq_true, Bool.not_eq_true'] at hv
    exact hv.1.1.1
  rw [item]
  refine .peek hc fun t htk _ => ?_
  rw [Token.isSpecifier_eq, htk, hno]
  refine (h n bound (by omega) c u rest hn hc fun _ => hu).bind fun s' c₁ h => .pure ⟨?_, h.2⟩
  rw [Item.bare, Item.bare, h.1]

/-- An item that begins with a specifier is a declaration. -/
theorem phraseRead_declItem {d : Decl} (h : PhraseRead ls (.decl d))
    (hbegins : Begins (fun k => (Phrase.decl d).first k = true) ls) :
    PhraseRead ls (.item (.decl d)) := by
  intro n bound hb c u rest hn hc _
  obtain ⟨bound, rfl⟩ : ∃ b, bound = b + 1 := ⟨bound - 1, by omega⟩
  obtain ⟨v, vs, rfl, hv⟩ := hbegins
  have hyes : v.kind.isSpecifier = true := hv
  rw [item]
  refine .peek hc fun t htk _ => ?_
  rw [Token.isSpecifier_eq, htk, hyes]
  refine (h n bound (by omega) c u rest hn hc trivial).bind fun d' c₁ h => .pure ⟨?_, h.2⟩
  rw [Item.bare, Item.bare, h.1]

/-- The items of a block are read one after the other, as none of them begins with the closing
brace. -/
theorem phraseRead_block (hl : l.kind = .punct .leftBrace) {items : List (List Lexeme × Item)}
    (h : ∀ x ∈ items, PhraseRead x.1 (.item x.2))
    (hbegins : ∀ x ∈ items, Begins (fun k => (Phrase.item x.2).first k = true) x.1)
    (hr : r.kind = .punct .rightBrace) :
    PhraseRead (l :: ((items.map Prod.fst).flatten ++ [r])) (.block (items.map Prod.snd)) := by
  intro n bound hb c u rest hn hc _
  obtain ⟨bound, rfl⟩ : ∃ b, bound = b + 1 := ⟨bound - 1, by omega⟩
  simp only [List.cons_append, List.append_assoc, List.nil_append] at hc
  rw [block]
  refine .punct hc hl fun first c₁ hc₁ => ?_
  have hlen : c.lexemes.length = c₁.lexemes.length + 1 := by rw [hc, hc₁]; rfl
  have hfirst : ∀ x ∈ items, ∃ v vs, x.1 = v :: vs ∧
      (v.kind ≠ .keyword .elseKw ∧ v.kind ≠ .punct .rightBrace) ∧ v.kind ≠ .endOfInput := by
    intro x hx
    obtain ⟨v, vs, hv, hk⟩ := hbegins x hx
    refine ⟨v, vs, hv, ?_⟩
    simpa [Phrase.first] using hk
  refine (accepts_manyUntil (n := c₁.lexemes.length) (f := Item.bare)
    (fun x hx => h x hx _ bound (by omega))
    (fun x hx => ?_) (fun x hx => ?_) (by simp) (Nat.le_refl _) (by omega) hc₁ hr).bind
      fun is c₂ h => ?_
  · obtain ⟨v, vs, hv, hk⟩ := hfirst x hx
    exact ⟨v, vs, hv, hk.1.2, hk.2⟩
  · obtain ⟨v, vs, hv, hk⟩ := hfirst x hx
    exact ⟨v, vs, hv, hk.1.1⟩
  obtain ⟨his, hc₂⟩ := h
  refine .punct hc₂ hr fun _ c₃ hc₃ => .spanFrom fun q' => .pure ⟨?_, hc₃⟩
  show Item.allBare is = Item.allBare _
  rw [Item.allBare_eq_map, Item.allBare_eq_map, his]

/-- Behind the name an equality sign or a semicolon tells a variable from a function. -/
theorem phraseRead_var {x : Lexeme} {ws : List Lexeme} {s : Specifiers} {init : Option Expr}
    (q : Span) (hs : Specifiers.Derives ws s) (hx : x.kind = .identifier)
    (hinit : Expr.InitializerDerives lax ls init) (hr : r.kind = .punct .semicolon) :
    PhraseRead (ws ++ x :: (ls ++ [r]))
      (.decl (.var ⟨q, x.text, s.type, s.storage, init⟩)) := by
  intro n bound hb c u rest hn hc _
  obtain ⟨bound, rfl⟩ : ∃ b, bound = b + 1 := ⟨bound - 1, by omega⟩
  simp only [List.cons_append, List.append_assoc, List.nil_append] at hc
  rw [declaration]
  refine .look (.specifiers hc hs (by rw [hx]; rfl) fun c₁ hc₁ => ?_)
  refine .identifier hc₁ hx fun t c₂ ht hc₂ => ?_
  have hlen : c₂.lexemes.length < c.lexemes.length := by
    rw [hc, hc₂]
    simp
    omega
  -- with or without an initializer, the declaration ends in the same way
  have hbehind : ∀ (o : Option Expr) (c' : Cursor), c'.lexemes = r :: u :: rest →
      o.map Expr.bare = init.map Expr.bare → Accepts (do
        let _ ← Parser.punct .semicolon
        return Decl.var ⟨← spanFrom c.current.span, t.text, s.type, s.storage, o⟩) c'
        fun d c' => d.bare = (Decl.var ⟨q, x.text, s.type, s.storage, init⟩).bare ∧
          c'.lexemes = u :: rest := by
    refine fun o c' hc' ho => .punct hc' hr fun _ c₄ hc₄ => .spanFrom fun q' => .pure ⟨?_, hc₄⟩
    rw [Decl.bare, Decl.bare, VarDecl.bare, VarDecl.bare, ht, ho]
  cases hinit with
  | none =>
      refine .peek hc₂ fun t' ht' _ => ?_
      rw [if_neg (by simp [ht', hr])]
      refine .accept hc₂ (fun h => ?_) fun _ => hbehind none c₂ hc₂ rfl
      rw [hr] at h
      cases h
  | @some _ _ e hl he =>
      refine .peek hc₂ fun t' ht' _ => ?_
      rw [if_neg (by simp [ht', hl])]
      refine .accept hc₂ (fun _ c₃ hc₃ => ?_) fun h => absurd hl h
      have hlen₃ : c₂.lexemes.length = c₃.lexemes.length + 1 := by rw [hc₂, hc₃]; rfl
      have hvalue : Accepts (some <$> expression bound 0) c₃ fun o c' =>
          o.map Expr.bare = some e.bare ∧ c'.lexemes = r :: u :: rest :=
        .map (((recognizes_expression he (by omega)).accepts hc₃ (endsExpr_semicolon hr)).imp
          fun e' c' h => ⟨congrArg some h.1, h.2⟩)
      exact hvalue.bind fun o c₄ h => hbehind o c₄ h.2 h.1

/-- Parameters begin with a parenthesis. -/
theorem exists_cons_parameters {lax : Bool} {ps : List Param} (h : Param.AllDerive lax ls ps) :
    ∃ p qs, ls = p :: qs ∧ p.kind = .punct .leftParen := by
  cases h with
  | nothing hl | some hl => exact ⟨_, _, rfl, hl⟩

/-- A semicolon behind the parameters ends a declaration without a body. -/
theorem phraseRead_prototype {x : Lexeme} {ws : List Lexeme} {s : Specifiers} {ps : List Param}
    (q : Span) (hs : Specifiers.Derives ws s) (hx : x.kind = .identifier)
    (hps : Param.AllDerive lax ls ps) (hr : r.kind = .punct .semicolon) :
    PhraseRead (ws ++ x :: (ls ++ [r]))
      (.decl (.prototype ⟨q, x.text, s.type, ps, s.storage⟩)) := by
  intro n bound hb c u rest hn hc _
  obtain ⟨bound, rfl⟩ : ∃ b, bound = b + 1 := ⟨bound - 1, by omega⟩
  simp only [List.cons_append, List.append_assoc, List.nil_append] at hc
  rw [declaration]
  refine .look (.specifiers hc hs (by rw [hx]; rfl) fun c₁ hc₁ => ?_)
  refine .identifier hc₁ hx fun t c₂ ht hc₂ => ?_
  have hlen : c₂.lexemes.length < c.lexemes.length := by
    rw [hc, hc₂]
    simp
    omega
  obtain ⟨v, vs, hv, hk⟩ := exists_cons_parameters hps
  refine .peek (hc₂.trans (by rw [hv]; rfl)) fun t' ht' _ => ?_
  rw [if_pos (ht'.trans hk)]
  refine ((recognizes_parameters hps (by omega)).accepts hc₂ trivial).bind
    fun ps' c₃ hps' => .peek hps'.2 fun t₃ ht₃ _ => ?_
  rw [if_neg (by simp [ht₃, hr])]
  refine .punct hps'.2 hr fun _ c₄ hc₄ => .spanFrom fun q' => .pure ⟨?_, hc₄⟩
  rw [Decl.bare, Decl.bare, FunHeader.bare, FunHeader.bare, ht, hps'.1]

/-- Anything else behind the parameters has to begin a body. -/
theorem phraseRead_function {x : Lexeme} {ws bs : List Lexeme} {s : Specifiers} {ps : List Param}
    {is : List Item} (q q' : Span) (hs : Specifiers.Derives ws s) (hx : x.kind = .identifier)
    (hps : Param.AllDerive lax ls ps) (hbody : PhraseRead bs (.block is))
    (hbegins : Begins (fun k => (Phrase.block is).first k = true) bs) :
    PhraseRead (ws ++ x :: (ls ++ bs))
      (.decl (.function ⟨q, x.text, s.type, ps, s.storage⟩ q' is)) := by
  intro n bound hb c u rest hn hc _
  obtain ⟨bound, rfl⟩ : ∃ b, bound = b + 1 := ⟨bound - 1, by omega⟩
  simp only [List.cons_append, List.append_assoc] at hc
  rw [declaration]
  refine .look (.specifiers hc hs (by rw [hx]; rfl) fun c₁ hc₁ => ?_)
  refine .identifier hc₁ hx fun t c₂ ht hc₂ => ?_
  have hlen : c₂.lexemes.length < c.lexemes.length := by
    rw [hc, hc₂]
    simp
    omega
  -- a parenthesis behind the name tells that this is a function, a brace that it has a body
  obtain ⟨v, vs, hv, hk⟩ := exists_cons_parameters hps
  refine .peek (hc₂.trans (by rw [hv]; rfl)) fun t' ht' _ => ?_
  rw [if_pos (ht'.trans hk)]
  obtain ⟨w, ws', rfl, hw⟩ := hbegins
  refine ((recognizes_parameters hps (by omega)).accepts hc₂ trivial).bind
    fun ps' c₃ h => .peek h.2 fun t₃ ht₃ _ => ?_
  obtain ⟨hps', hc₃⟩ := h
  rw [if_pos (ht₃.trans (of_decide_eq_true hw))]
  have hlen₃ : c₃.lexemes.length ≤ c₂.lexemes.length := by
    rw [hc₂, hc₃]
    simp
  refine ((hbody c₃.lexemes.length bound (by omega)).accepts hc₃ trivial).bind
    fun r c₄ h => .spanFrom fun q' => .pure ⟨?_, h.2⟩
  have hr : Item.allBare r.2 = Item.allBare is := h.1
  rw [Decl.bare, Decl.bare, FunHeader.bare, FunHeader.bare, ht, hps', hr]

/-- The header of a `for` loop may declare a variable, with the semicolon of the declaration. -/
theorem phraseRead_declInit {d : VarDecl} (h : PhraseRead ls (.decl (.var d)))
    (hbegins : Begins (fun k => (Phrase.decl (.var d)).first k = true) ls) :
    PhraseRead ls (.init (.decl d)) := by
  intro n bound hb c u rest hn hc _
  obtain ⟨bound, rfl⟩ : ∃ b, bound = b + 1 := ⟨bound - 1, by omega⟩
  obtain ⟨v, vs, rfl, hv⟩ := hbegins
  have hyes : v.kind.isSpecifier = true := hv
  rw [forInit]
  refine .peek hc fun t htk _ => ?_
  rw [Token.isSpecifier_eq, htk, hyes]
  refine (h n bound (by omega) c u rest hn hc trivial).bind fun d' c₁ h => ?_
  obtain ⟨hd', hc₁⟩ := h
  cases d' with
  | var d' => exact .pure ⟨congrArg ForInit.decl (Decl.var.inj hd'), hc₁⟩
  | prototype | function => cases hd'

/-- An expression or nothing is read in front of the first semicolon. -/
theorem phraseRead_optionalInit {o : Option Expr} (ho : Expr.OptionDerives lax ls o)
    (hbegins : Begins (fun k => k.isSpecifier = false) (ls ++ [r]))
    (hr : r.kind = .punct .semicolon) :
    PhraseRead (ls ++ [r]) (.init (match o with | none => .nothing | some e => .expr e)) := by
  intro n bound hb c u rest hn hc _
  obtain ⟨bound, rfl⟩ : ∃ b, bound = b + 1 := ⟨bound - 1, by omega⟩
  obtain ⟨v, vs, hv, hno⟩ := hbegins
  have hsemicolon : EndsExpr (.punct .semicolon) := ⟨nofun, rfl⟩
  rw [forInit]
  refine .peek (hc.trans (by rw [hv]; rfl)) fun t htk _ => ?_
  rw [Token.isSpecifier_eq, htk, hno]
  rw [List.append_assoc, List.singleton_append] at hc
  refine (recognizes_optionalExpression ho hsemicolon rfl (by omega) c r _ hn hc hr).bind
    fun o' c₁ h => .punct h.2 hr fun _ c₂ hc₂ => ?_
  have ho' := h.1
  cases o with
  | none =>
      obtain rfl : o' = none := Option.map_eq_none_iff.1 ho'
      exact .pure ⟨rfl, hc₂⟩
  | some e =>
      obtain ⟨e', rfl, he'⟩ := Option.map_eq_some_iff.1 ho'
      exact .pure ⟨congrArg ForInit.expr he', hc₂⟩

theorem phraseRead_noInit (hr : r.kind = .punct .semicolon) : PhraseRead [r] (.init .nothing) := by
  have hnone : Expr.OptionDerives false [] none := .none
  exact phraseRead_optionalInit hnone ⟨r, [], rfl, by rw [hr]; rfl⟩ hr

theorem phraseRead_exprInit (he : e.Derives lax 0 ls) (hr : r.kind = .punct .semicolon) :
    PhraseRead (ls ++ [r]) (.init (.expr e)) := by
  obtain ⟨u, us, rfl, hu⟩ := he.exists_cons
  refine phraseRead_optionalInit (.some he) ⟨u, _, rfl, ?_⟩ hr
  revert hu
  cases u.kind <;> simp [TokenKind.beginsOperand, TokenKind.isSpecifier]

end

/-- What the grammar derives is read. -/
theorem phraseRead_of_derives {lax : Bool} {ls : List Lexeme} {x : Phrase} (h : x.Derives lax ls) :
    PhraseRead ls x := by
  induction h with
  | ret q hk he hr => exact phraseRead_ret q hk he hr
  | ifThen q hk hc hyes ih => exact phraseRead_ifThen q hk hc ih
  | ifElse q hk hc hyes hclosed ho hno ihyes ihno =>
      exact phraseRead_ifElse q hk hc ihyes hclosed ho ihno
  | compound q h ih => exact phraseRead_compound q ih h.begins
  | breakLoop q hk hr => exact phraseRead_breakLoop q hk hr
  | continueLoop q hk hr => exact phraseRead_continueLoop q hk hr
  | whileLoop q hk hc hbody ih => exact phraseRead_whileLoop q hk hc ih
  | doLoop q hk hbody hw hc hr ih => exact phraseRead_doLoop q hk ih hw hc hr
  | forLoop q hk hl hinit hc hs hpost hr hbody ihinit ihbody =>
      exact phraseRead_forLoop q hk hl ihinit hc hs hpost hr ihbody
  | null q hr => exact phraseRead_null q hr
  | expr q he hr => exact phraseRead_expr q he hr
  | stmtItem h ih => exact phraseRead_stmtItem ih h.begins
  | declItem h ih => exact phraseRead_declItem ih h.begins
  | block hl items hitems hr ih =>
      exact phraseRead_block hl ih (fun x hx => (hitems x hx).begins) hr
  | var q hs hx hinit hr => exact phraseRead_var q hs hx hinit hr
  | prototype q hs hx hparams hr => exact phraseRead_prototype q hs hx hparams hr
  | function q q' hs hx hparams hbody ih =>
      exact phraseRead_function q q' hs hx hparams ih hbody.begins
  | declInit h ih => exact phraseRead_declInit ih h.begins
  | noInit hr => exact phraseRead_noInit hr
  | exprInit he hr => exact phraseRead_exprInit he hr

end Parser

/-! ## Programs -/

/-- A program of the grammar is read, up to spans. -/
theorem Program.ofTokens_of_derives {lax : Bool} {ts : List Token} {last : Token} {p : Program}
    (h : EndsOnce ts last) (hp : p.Derives lax (ts.map Token.lexeme)) :
    Succeeds (ofTokens (ts ++ [last])) fun p' => p'.bare = p.bare := by
  have hstart : (Cursor.start (ts ++ [last])).lexemes = ts.map Token.lexeme ++ [last.lexeme] := by
    rw [Cursor.lexemes, Cursor.start, List.map_append, List.map_singleton]
  have hlen : (Cursor.start (ts ++ [last])).lexemes.length = (ts ++ [last]).length :=
    List.length_map _
  have hbound : 8 * (Cursor.start (ts ++ [last])).lexemes.length + 16 =
      Parser.depthFor (ts ++ [last]).length := by
    rw [hlen, Parser.depthFor]
    omega
  generalize htokens : ts.map Token.lexeme = ls at hp hstart
  have hread : Parser.Accepts (Parser.program (Parser.depthFor (ts ++ [last]).length))
      (.start (ts ++ [last])) fun p' _ => p'.bare = p.bare := by
    cases hp with
    | mk q decls hdecls =>
        have hfirst : ∀ x ∈ decls, Parser.Begins (· ≠ .endOfInput) x.1 := by
          intro x hx
          obtain ⟨u, us, hu, hk⟩ := (hdecls x hx).begins
          refine ⟨u, us, hu, fun h => ?_⟩
          rw [h] at hk
          cases hk
        refine .look ((Parser.accepts_manyUntilEnd (f := Decl.bare)
          (fun x hx => Parser.phraseRead_of_derives (hdecls x hx) _ _ (by omega))
          hfirst (Nat.le_refl _) (by omega) hstart h.kind).bind
          fun ds c hds => .take hds.2 h.kind fun _ _ _ _ => .spanFrom fun _ => .pure ?_)
        rw [Program.bare, Program.bare, hds.1]
  exact Ensures.map hread

end IntegerC
