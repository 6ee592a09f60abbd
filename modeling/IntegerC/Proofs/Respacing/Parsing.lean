import IntegerC.Proofs.Respacing.Mirroring
import IntegerC.Syntax.Parser

set_option autoImplicit false

/-! # Reading without spans

The parser looks at the kinds and the texts of tokens only. Where they stand goes into the spans of
the tree and of faults, and nowhere else. So tokens without spans are read as the tree without
spans.
-/

namespace IntegerC

open IntegerC.Parser

/-! ## Cursors -/

def Cursor.bare (c : Cursor) : Cursor := ⟨c.rest.map Token.bare, c.last.bare, .origin⟩

namespace Cursor

variable (c : Cursor)

theorem current_bare : c.bare.current = c.current.bare := by
  unfold current bare
  cases c.rest <;> rfl

theorem following_bare : c.bare.following = c.following.bare := by
  unfold following bare
  rcases c.rest with _ | ⟨t, _ | ⟨u, us⟩⟩ <;> rfl

theorem advance_bare : c.bare.advance = c.advance.bare := by
  obtain ⟨rest, last, reached⟩ := c
  cases rest <;> rfl

theorem passSpecifiers_bare :
    c.bare.passSpecifiers = (c.passSpecifiers.1, c.passSpecifiers.2.bare) := by
  have hkinds : Token.isSpecifier ∘ Token.bare = Token.isSpecifier := rfl
  have hwords : Token.specifier? ∘ Token.bare = Token.specifier? := rfl
  have hend (o : Option Token) :
      ((o.map Token.bare).map (·.span.stop)).getD .origin = .origin := by cases o <;> rfl
  simp only [passSpecifiers, bare, List.takeWhile_map, List.dropWhile_map, hkinds,
    List.filterMap_map, hwords, List.getLast?_map, hend]

theorem start_bare (ts : List Token) : start (ts.map Token.bare) = (start ts).bare := by
  have hlast : ((ts.map Token.bare).getLast?).getD (.endAt .origin) =
      (ts.getLast?.getD (.endAt .origin)).bare := by
    rw [List.getLast?_map]
    cases ts.getLast? <;> rfl
  have hfirst : ((ts.map Token.bare).head?.getD (.endAt .origin)).span.stop = .origin := by
    cases ts <;> rfl
  simp only [start, bare, hlast, hfirst]

end Cursor

/-! ## Specifiers -/

/-- A run of specifiers is refused without looking at its tokens again. -/
theorem IntType.bare_of_ofWords {words : List Keyword} {cause : Cause}
    (h : IntType.ofWords words = .error cause) : cause.bare = cause := by
  unfold IntType.ofWords at h
  repeat' split at h
  all_goals
    cases h
    try rfl

/-- The causes of faults in specifiers mention no tokens. -/
theorem Specifiers.bare_of_ofWords {words : List Keyword} {cause : Cause}
    (h : Specifiers.ofWords words = .error cause) : cause.bare = cause := by
  unfold Specifiers.ofWords at h
  cases htype : IntType.ofWords (words.filter Keyword.isTypeWord) with
  | error c =>
      rw [htype] at h
      cases h
      exact IntType.bare_of_ofWords htype
  | ok type =>
      rw [htype] at h
      simp only [bind, Except.bind] at h
      split at h
      all_goals cases h
      rfl

namespace Parser

/-- On tokens without spans the parser `p'` reads what `p` reads on the tokens, without spans. -/
abbrev ReadsBare {α α' : Type} (f : α → α') (p : Parser α) (p' : Parser α') : Prop :=
  MirrorsFrom Cursor.bare f p p'

/-! ## Single tokens -/

section

variable {α α' : Type} {f : α → α'}

theorem peek_bare : ReadsBare Token.bare peek peek :=
  fun c => Mirrors.pure (congrArg (·, c.bare) c.current_bare)

theorem next_bare : ReadsBare Token.bare next next :=
  peek_bare.bind fun _ => (MirrorsFrom.update Cursor.advance_bare).bind fun _ => .pure rfl

theorem fail_bare {cause cause' : Cause} {s s' : Span} (hc : cause' = cause.bare)
    (hs : s' = .nowhere) : ReadsBare f (fail cause s) (fail cause' s') := by
  subst hc hs
  exact .throw rfl

theorem unexpected_bare (wanted : Expectation) :
    ReadsBare f (unexpected wanted) (unexpected wanted) :=
  peek_bare.bind fun _ => fail_bare rfl rfl

theorem endless_bare : ReadsBare f endless endless := peek_bare.bind fun _ => fail_bare rfl rfl

theorem spanFrom_bare {s s' : Span} (hs : s' = .nowhere) :
    ReadsBare (fun _ => .nowhere) (spanFrom s) (spanFrom s') := by
  subst hs
  exact MirrorsFrom.get.bind fun _ => .pure rfl

theorem accept_bare (kind : TokenKind) : ReadsBare id (accept kind) (accept kind) :=
  peek_bare.bind fun _ =>
    .ite (fun _ => next_bare.bind fun _ => .pure rfl) fun _ => .pure rfl

theorem punct_bare (p : Punct) : ReadsBare Token.bare (punct p) (punct p) :=
  peek_bare.bind fun _ => .ite (fun _ => next_bare) fun _ => unexpected_bare _

theorem keyword_bare (w : Keyword) : ReadsBare Token.bare (keyword w) (keyword w) :=
  peek_bare.bind fun _ => .ite (fun _ => next_bare) fun _ => unexpected_bare _

theorem identifier_bare : ReadsBare Token.bare identifier identifier :=
  peek_bare.bind fun _ => .ite (fun _ => next_bare) fun _ => unexpected_bare _

theorem endOfInput_bare : ReadsBare Token.bare endOfInput endOfInput :=
  peek_bare.bind fun _ => .ite (fun _ => next_bare) fun _ => unexpected_bare _

theorem specifiers_bare : ReadsBare id specifiers specifiers := by
  refine peek_bare.bind fun first => MirrorsFrom.get.bind fun c => ?_
  rw [c.passSpecifiers_bare]
  refine MirrorsFrom.set.bind fun _ => (spanFrom_bare rfl).bind fun _ => ?_
  dsimp only [Cursor.passSpecifiers]
  cases hwords : Specifiers.ofWords
      ((c.rest.takeWhile Token.isSpecifier).filterMap Token.specifier?) with
  | ok s => exact .pure rfl
  | error cause => exact fail_bare (Specifiers.bare_of_ofWords hwords).symm rfl

/-! ## Repetition -/

/-- A list up to a closing token is read alike without spans. -/
theorem manyUntil_bare (stop : Punct) {element : Parser α} {element' : Parser α'}
    (he : ReadsBare f element element') (bound : Nat) :
    ReadsBare (List.map f) (manyUntil stop element bound) (manyUntil stop element' bound) := by
  induction bound with
  | zero => exact endless_bare
  | succ bound ih =>
      refine peek_bare.bind fun _ => .ite (fun _ => .pure rfl) fun _ =>
        .ite (fun _ => unexpected_bare _) fun _ => ?_
      exact he.bind fun _ => ih.bind fun _ => .pure rfl

theorem manyUntilEnd_bare {element : Parser α} {element' : Parser α'}
    (he : ReadsBare f element element') (bound : Nat) :
    ReadsBare (List.map f) (manyUntilEnd element bound) (manyUntilEnd element' bound) := by
  induction bound with
  | zero => exact endless_bare
  | succ bound ih =>
      refine peek_bare.bind fun _ => .ite (fun _ => .pure rfl) fun _ => ?_
      exact he.bind fun _ => ih.bind fun _ => .pure rfl

/-- A separated list is read alike without spans, a trailing separator included. -/
theorem separatedUntil_bare (stop : Punct) {element : Parser α} {element' : Parser α'}
    (he : ReadsBare f element element') (bound : Nat) :
    ReadsBare (List.map f) (separatedUntil stop element bound)
      (separatedUntil stop element' bound) := by
  induction bound with
  | zero => exact endless_bare
  | succ bound ih =>
      refine peek_bare.bind fun _ => .ite (fun _ => .pure rfl) fun _ =>
        .ite (fun _ => unexpected_bare _) fun _ => he.bind fun _ => ?_
      exact (accept_bare _).bind fun _ =>
        .ite (fun _ => ih.bind fun _ => .pure rfl) fun _ => .pure rfl

end

/-! ## Expressions -/

theorem literal_bare (s : Suffix) : ReadsBare Expr.bare (literal s) (literal s) := by
  refine next_bare.bind fun t => ?_
  dsimp only [Token.bare]
  cases s.constant? t.text with
  | none => exact fail_bare rfl rfl
  | some value => exact .pure rfl

/-- How the parsers of expressions read tokens without spans. -/
structure ExprBare (bound : Nat) : Prop where
  operand : ReadsBare Expr.bare (operand bound) (operand bound)
  expression : ∀ least, ReadsBare Expr.bare (expression bound least) (expression bound least)
  joints : ∀ least left,
    ReadsBare Expr.bare (joints bound least left) (joints bound least left.bare)

section

variable {bound : Nat}

/-- An operand is told by its first token, and of that only by its kind and text. -/
theorem operand_succ_bare (g : ExprBare bound) :
    ReadsBare Expr.bare (operand (bound + 1)) (operand (bound + 1)) := by
  rw [operand]
  refine peek_bare.bind fun t => ?_
  obtain ⟨kind, text, span⟩ := t
  cases kind with
  | constant s => exact literal_bare s
  | identifier =>
      -- a name, alone or in front of arguments
      refine next_bare.bind fun _ => (accept_bare _).bind fun called => .ite (fun _ => ?_)
        fun _ => .pure rfl
      refine (separatedUntil_bare .rightParen (g.expression 0) bound).bind fun args => ?_
      refine (punct_bare _).bind fun _ => (spanFrom_bare rfl).bind fun _ => .pure ?_
      rw [← Expr.allBare_eq_map]
      rfl
  | punct p =>
      cases p with
      | leftParen =>
          -- a cast, or an expression in parentheses
          refine next_bare.bind fun _ => peek_bare.bind fun first => .ite (fun _ => ?_)
            fun _ => ?_
          · refine specifiers_bare.bind fun s => .ite (fun _ => ?_) fun _ => ?_
            · exact (spanFrom_bare rfl).bind fun _ => fail_bare rfl rfl
            · exact (punct_bare _).bind fun _ => g.operand.bind fun _ =>
                (spanFrom_bare rfl).bind fun _ => .pure rfl
          · exact (g.expression 0).bind fun _ => (punct_bare _).bind fun _ => .pure rfl
      | tilde | minus | bang =>
          exact next_bare.bind fun _ => g.operand.bind fun _ =>
            (spanFrom_bare rfl).bind fun _ => .pure rfl
      | _ => exact unexpected_bare _
  | keyword w => exact unexpected_bare _
  | endOfInput => exact unexpected_bare _

/-- Precedences belong to kinds of tokens, so the loop of joints goes the same way. -/
theorem joints_succ_bare (g : ExprBare bound) (least : Nat) (left : Expr) :
    ReadsBare Expr.bare (joints (bound + 1) least left) (joints (bound + 1) least left.bare) := by
  rw [joints, joints]
  refine peek_bare.bind fun t => ?_
  have hjoint : Joint.ofToken? t.bare = Joint.ofToken? t := rfl
  rw [hjoint]
  cases Joint.ofToken? t with
  | none => exact .pure rfl
  | some joint =>
      refine .ite (fun _ => .pure rfl) fun _ => next_bare.bind fun _ => ?_
      cases joint with
      | assignment =>
          exact (g.expression _).bind fun value => (spanFrom_bare left.span_bare).bind fun _ =>
            g.joints least _
      | conditional =>
          exact (g.expression 0).bind fun yes => (punct_bare _).bind fun _ =>
            (g.expression _).bind fun no => (spanFrom_bare left.span_bare).bind fun _ =>
              g.joints least _
      | binary op =>
          exact (g.expression _).bind fun right => (spanFrom_bare left.span_bare).bind fun _ =>
            g.joints least _

theorem exprBare (bound : Nat) : ExprBare bound := by
  induction bound with
  | zero => exact ⟨endless_bare, fun _ => endless_bare, fun _ _ => endless_bare⟩
  | succ bound ih =>
      exact ⟨operand_succ_bare ih, fun least => ih.operand.bind fun left => ih.joints least left,
        fun least left => joints_succ_bare ih least left⟩

theorem expression_bare (bound : Nat) :
    ReadsBare Expr.bare (expression bound 0) (expression bound 0) :=
  (exprBare bound).expression 0

theorem optionalExpression_bare (bound : Nat) (stop : Punct) :
    ReadsBare (Option.map Expr.bare) (optionalExpression bound stop)
      (optionalExpression bound stop) :=
  peek_bare.bind fun _ =>
    .ite (fun _ => .pure rfl) fun _ => (expression_bare bound).bind fun _ => .pure rfl

theorem parenthesized_bare (bound : Nat) :
    ReadsBare Expr.bare (parenthesized bound) (parenthesized bound) :=
  (punct_bare _).bind fun _ => (expression_bare bound).bind fun _ =>
    (punct_bare _).bind fun _ => .pure rfl

end

/-! ## Statements and declarations -/

theorem parameter_bare : ReadsBare Param.bare parameter parameter := by
  refine peek_bare.bind fun first => specifiers_bare.bind fun s => .ite (fun _ => ?_) fun _ => ?_
  · exact (spanFrom_bare rfl).bind fun _ => fail_bare rfl rfl
  · exact identifier_bare.bind fun _ => (spanFrom_bare rfl).bind fun _ => .pure rfl

theorem parameters_bare (bound : Nat) :
    ReadsBare (List.map Param.bare) (parameters bound) (parameters bound) := by
  refine (punct_bare _).bind fun _ => MirrorsFrom.get.bind fun c => ?_
  rw [c.current_bare, c.following_bare]
  refine .ite (fun _ => ?_) fun _ => .ite (fun _ => unexpected_bare _) fun _ => ?_
  · exact next_bare.bind fun _ => next_bare.bind fun _ => .pure rfl
  · exact (separatedUntil_bare _ parameter_bare bound).bind fun _ =>
      (punct_bare _).bind fun _ => .pure rfl

/-- How the parsers of statements and declarations read tokens without spans. -/
structure StmtBare (bound : Nat) : Prop where
  statement : ReadsBare Stmt.bare (statement bound) (statement bound)
  forInit : ReadsBare ForInit.bare (forInit bound) (forInit bound)
  block : ReadsBare (Prod.map (fun _ => Span.nowhere) Item.allBare) (block bound) (block bound)
  item : ReadsBare Item.bare (item bound) (item bound)
  declaration : ReadsBare Decl.bare (declaration bound) (declaration bound)

section

variable {bound : Nat}

/-- A statement is told by its first token or, where that is a name or an operator, read as an
expression. -/
theorem statement_succ_bare (g : StmtBare bound) :
    ReadsBare Stmt.bare (statement (bound + 1)) (statement (bound + 1)) := by
  rw [statement]
  refine peek_bare.bind fun t => ?_
  obtain ⟨kind, text, span⟩ := t
  -- most tokens begin an expression
  have hexpression : ReadsBare Stmt.bare
      (do
        let e ← expression bound 0
        let _ ← punct .semicolon
        return .expr (← spanFrom span) e)
      (do
        let e ← expression bound 0
        let _ ← punct .semicolon
        return .expr (← spanFrom .nowhere) e) :=
    (expression_bare bound).bind fun _ => (punct_bare _).bind fun _ =>
      (spanFrom_bare rfl).bind fun _ => .pure rfl
  cases kind with
  | keyword w =>
      cases w with
      | returnKw =>
          exact next_bare.bind fun _ => (expression_bare bound).bind fun _ =>
            (punct_bare _).bind fun _ => (spanFrom_bare rfl).bind fun _ => .pure rfl
      | ifKw =>
          refine next_bare.bind fun _ => (parenthesized_bare bound).bind fun _ =>
            g.statement.bind fun _ => (accept_bare _).bind fun _ => .ite (fun _ => ?_) fun _ => ?_
          · exact g.statement.bind fun _ => (spanFrom_bare rfl).bind fun _ => .pure rfl
          · exact (spanFrom_bare rfl).bind fun _ => .pure rfl
      | breakKw | continueKw =>
          exact next_bare.bind fun _ => (punct_bare _).bind fun _ =>
            (spanFrom_bare rfl).bind fun _ => .pure rfl
      | whileKw =>
          exact next_bare.bind fun _ => (parenthesized_bare bound).bind fun _ =>
            g.statement.bind fun _ => (spanFrom_bare rfl).bind fun _ => .pure rfl
      | doKw =>
          exact next_bare.bind fun _ => g.statement.bind fun _ => (keyword_bare _).bind fun _ =>
            (parenthesized_bare bound).bind fun _ => (punct_bare _).bind fun _ =>
              (spanFrom_bare rfl).bind fun _ => .pure rfl
      | forKw =>
          refine next_bare.bind fun _ => (punct_bare _).bind fun _ => g.forInit.bind fun _ => ?_
          refine (optionalExpression_bare bound _).bind fun _ => (punct_bare _).bind fun _ => ?_
          refine (optionalExpression_bare bound _).bind fun _ => (punct_bare _).bind fun _ => ?_
          exact g.statement.bind fun _ => (spanFrom_bare rfl).bind fun _ => .pure rfl
      | _ => exact hexpression
  | punct p =>
      cases p with
      | leftBrace => exact g.block.bind fun _ => .pure rfl
      | semicolon => exact next_bare.bind fun _ => .pure rfl
      | _ => exact hexpression
  | _ => exact hexpression

theorem forInit_succ_bare (g : StmtBare bound) :
    ReadsBare ForInit.bare (forInit (bound + 1)) (forInit (bound + 1)) := by
  rw [forInit]
  refine peek_bare.bind fun t => .ite (fun _ => g.declaration.bind fun d => ?_) fun _ => ?_
  · cases d with
    | var d => exact .pure rfl
    | prototype _ | function _ _ _ => exact fail_bare rfl rfl
  · refine (optionalExpression_bare bound _).bind fun o => (punct_bare _).bind fun _ => ?_
    cases o with
    | none => exact .pure rfl
    | some e => exact .pure rfl

theorem block_succ_bare (g : StmtBare bound) :
    ReadsBare (Prod.map (fun _ => Span.nowhere) Item.allBare) (block (bound + 1))
      (block (bound + 1)) := by
  rw [block]
  refine (punct_bare _).bind fun first => (manyUntil_bare _ g.item bound).bind fun items => ?_
  refine (punct_bare _).bind fun _ => (spanFrom_bare rfl).bind fun _ => .pure ?_
  rw [← Item.allBare_eq_map]
  rfl

theorem item_succ_bare (g : StmtBare bound) :
    ReadsBare Item.bare (item (bound + 1)) (item (bound + 1)) := by
  rw [item]
  exact peek_bare.bind fun _ => .ite (fun _ => g.declaration.bind fun _ => .pure rfl) fun _ =>
    g.statement.bind fun _ => .pure rfl

/-- A declaration is of a function if a parenthesis follows the name. The tokens say that without
their spans. -/
theorem declaration_succ_bare (g : StmtBare bound) :
    ReadsBare Decl.bare (declaration (bound + 1)) (declaration (bound + 1)) := by
  rw [declaration]
  refine peek_bare.bind fun first => specifiers_bare.bind fun s =>
    identifier_bare.bind fun name => peek_bare.bind fun behind => .ite (fun _ => ?_) fun _ => ?_
  · -- a function, with its body or without
    refine (parameters_bare bound).bind fun ps => peek_bare.bind fun _ => .ite (fun _ => ?_)
      fun _ => ?_
    · exact g.block.bind fun _ => (spanFrom_bare rfl).bind fun _ => .pure rfl
    · exact (punct_bare _).bind fun _ => (spanFrom_bare rfl).bind fun _ => .pure rfl
  · have hbehind (init : Option Expr) : ReadsBare Decl.bare
        (do
          let _ ← punct .semicolon
          return .var ⟨← spanFrom first.span, name.text, s.type, s.storage, init⟩)
        (do
          let _ ← punct .semicolon
          return .var ⟨← spanFrom .nowhere, name.text, s.type, s.storage, init.map Expr.bare⟩) :=
      (punct_bare _).bind fun _ => (spanFrom_bare rfl).bind fun _ => .pure rfl
    refine (accept_bare _).bind fun _ => .ite (fun _ => ?_) fun _ => ?_
    · have hinit : ReadsBare (Option.map Expr.bare) (some <$> expression bound 0)
          (some <$> expression bound 0) :=
        (expression_bare bound).map fun _ => rfl
      exact hinit.bind hbehind
    · exact hbehind none

theorem stmtBare (bound : Nat) : StmtBare bound := by
  induction bound with
  | zero => exact ⟨endless_bare, endless_bare, endless_bare, endless_bare, endless_bare⟩
  | succ bound ih =>
      exact ⟨statement_succ_bare ih, forInit_succ_bare ih, block_succ_bare ih,
        item_succ_bare ih, declaration_succ_bare ih⟩

end

theorem program_bare (bound : Nat) : ReadsBare Program.bare (program bound) (program bound) :=
  peek_bare.bind fun _ => (manyUntilEnd_bare (stmtBare bound).declaration bound).bind fun _ =>
    endOfInput_bare.bind fun _ => (spanFrom_bare rfl).bind fun _ => .pure rfl

end Parser

/-- Tokens without spans spell the program without spans. -/
theorem Program.ofTokens_bare (ts : List Token) :
    Mirrors Program.bare (ofTokens ts) (ofTokens (ts.map Token.bare)) := by
  rw [ofTokens, ofTokens, Cursor.start_bare, List.length_map]
  exact (Parser.program_bare _).run' _

end IntegerC
