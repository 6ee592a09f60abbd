import IntegerC.Proofs.Grammar
import IntegerC.Proofs.Lexing
import IntegerC.Syntax.Parser

set_option autoImplicit false

/-! # What is read is in the grammar

The tokens between where a parser begins and where it ends spell the tree that it answers. The proof
goes by induction on the bound of the recursion; the only thing to carry along besides is what
stands behind an expression or a statement, where a joint or an `else` would have been taken.
-/

namespace IntegerC

/-! ## Cursors -/

def Cursor.lexemes (c : Cursor) : List Lexeme := c.rest.map Token.lexeme

/-- A cursor in tokens that end with the end of the input, which is not yet taken. -/
structure Cursor.Ended (c : Cursor) : Prop where
  last : c.rest.getLast? = some c.last
  kind : c.last.kind = .endOfInput

namespace Cursor.Ended

variable {c : Cursor}

/-- While the end is ahead the cursor stands in front of its own token. -/
theorem rest_eq (hc : c.Ended) : c.rest = c.current :: c.advance.rest := by
  have hlast := hc.last
  unfold Cursor.current Cursor.advance
  cases h : c.rest with
  | nil =>
      rw [h] at hlast
      cases hlast
  | cons t ts => simp

theorem lexemes_eq (hc : c.Ended) : c.lexemes = c.current.lexeme :: c.advance.lexemes := by
  unfold Cursor.lexemes
  rw [hc.rest_eq, List.map_cons]

theorem advance (hc : c.Ended) (h : c.current.kind ≠ .endOfInput) : c.advance.Ended := by
  have hlast := hc.last
  rw [hc.rest_eq] at hlast
  refine ⟨?_, by rw [Cursor.last_advance]; exact hc.kind⟩
  rw [Cursor.last_advance]
  cases hrest : c.advance.rest with
  | nil =>
      -- then the end of the input would have been taken
      rw [hrest, List.getLast?_singleton, Option.some.injEq] at hlast
      exact absurd (hlast ▸ hc.kind) h
  | cons t ts => rwa [hrest, List.getLast?_cons_cons] at hlast

end Cursor.Ended

theorem Cursor.current_advance (c : Cursor) : c.advance.current = c.following := by
  unfold current following advance
  cases h : c.rest <;> simp [h]

/-! ## Runs of specifiers -/

/-- A specifier is a type word or a storage class. -/
theorem Token.specifier?_eq_some {t : Token} {k : Keyword} :
    t.specifier? = some k ↔ t.kind = .keyword k ∧ (k.isTypeWord ∨ k.storage?.isSome) := by
  unfold specifier?
  split
  · rename_i w hw
    rw [hw, Option.ite_none_right_eq_some, Bool.or_eq_true, Option.some.injEq,
      TokenKind.keyword.injEq]
    constructor
    · rintro ⟨h, rfl⟩
      exact ⟨rfl, h⟩
    · rintro ⟨rfl, h⟩
      exact ⟨h, rfl⟩
  · rename_i hne
    exact ⟨nofun, fun h => absurd h.1 (hne k)⟩

/-- The kinds of specifiers are those of their keywords. -/
theorem Token.kinds_of_isSpecifier {ts : List Token} (h : ∀ t ∈ ts, t.isSpecifier = true) :
    (ts.map Token.lexeme).map Lexeme.kind = (ts.filterMap Token.specifier?).map .keyword ∧
      ∀ k ∈ ts.filterMap Token.specifier?, k.isTypeWord ∨ k.storage?.isSome := by
  induction ts with
  | nil => simp
  | cons t ts ih =>
      obtain ⟨ht, hts⟩ := List.forall_mem_cons.1 h
      obtain ⟨hkinds, hwords⟩ := ih hts
      obtain ⟨k, hk⟩ := Option.isSome_iff_exists.1 ht
      obtain ⟨hkind, hword⟩ := Token.specifier?_eq_some.1 hk
      rw [List.filterMap_cons_some hk]
      refine ⟨?_, List.forall_mem_cons.2 ⟨hword, hwords⟩⟩
      rw [List.map_cons, List.map_cons, List.map_cons, hkinds]
      exact congrArg (· :: _) hkind

/-- The end of the input is no specifier. -/
theorem Cursor.Ended.passSpecifiers {c : Cursor} (hc : c.Ended) : c.passSpecifiers.2.Ended := by
  refine ⟨?_, hc.kind⟩
  obtain ⟨ts, hts⟩ := List.getLast?_eq_some_iff.1 hc.last
  have hend : c.last.isSpecifier = false := by
    simp [Token.isSpecifier, Token.specifier?, hc.kind]
  show (c.rest.dropWhile Token.isSpecifier).getLast? = some c.last
  rw [hts, List.dropWhile_append]
  split
  · simp [hend]
  · exact List.getLast?_concat

namespace Parser

variable {α β : Type} {c : Cursor} {ok : List Lexeme → α → Lexeme → Prop}
  {ok' : List Lexeme → β → Lexeme → Prop}

/-- If `p` answers something, then `ok` holds of the tokens taken, of the answer and of the token
that is next. -/
def Takes (p : Parser α) (c : Cursor) (ok : List Lexeme → α → Lexeme → Prop) : Prop :=
  c.Ended → Answers (p.run c) fun o =>
    ∃ ls, c.lexemes = ls ++ o.2.lexemes ∧ o.2.Ended ∧ ok ls o.1 o.2.current.lexeme

namespace Takes

/-! ## Steps -/

theorem pure {a : α} (h : ok [] a c.current.lexeme) : Takes (Pure.pure a) c ok :=
  fun hc => Ensures.run_pure ⟨[], rfl, hc, h⟩

theorem fail {cause : Cause} {s : Span} : Takes (Parser.fail cause s : Parser α) c ok :=
  fun _ => Ensures.run_throw trivial

theorem bind {p : Parser α} {g : α → Parser β} (h : Takes p c ok)
    (hg : ∀ ls a c', ok ls a c'.current.lexeme → Takes (g a) c' fun ls' => ok' (ls ++ ls')) :
    Takes (p >>= g) c ok' := by
  refine fun hc => Ensures.run_bind (h hc) fun a c' ⟨ls, hls, hc', ha⟩ => ?_
  refine (hg ls a c' ha hc').imp fun o ⟨ls', hls', ho, hok⟩ => ?_
  exact ⟨ls ++ ls', by rw [hls, hls', List.append_assoc], ho, hok⟩

theorem imp {p : Parser α} {ok₁ : List Lexeme → α → Lexeme → Prop} (h : Takes p c ok₁)
    (hok : ∀ ls a u, ok₁ ls a u → ok ls a u) : Takes p c ok := by
  refine fun hc => (h hc).imp ?_
  rintro ⟨a, c'⟩ ⟨ls, hls, hc', ha⟩
  exact ⟨ls, hls, hc', hok _ _ _ ha⟩

theorem map {p : Parser α} {g : α → β} (h : Takes p c fun ls a => ok' ls (g a)) :
    Takes (g <$> p) c ok' :=
  fun hc => Ensures.run_map (h hc)

theorem peek {g : Token → Parser β} (h : Takes (g c.current) c ok') :
    Takes (Parser.peek >>= g) c ok' := h

theorem get {g : Cursor → Parser β} (h : Takes (g c) c ok') :
    Takes (MonadState.get >>= g) c ok' := h

theorem unexpected {wanted : Expectation} : Takes (Parser.unexpected wanted : Parser α) c ok :=
  peek fail

theorem endless : Takes (Parser.endless : Parser α) c ok := peek fail

theorem spanFrom {g : Span → Parser β} {first : Span} (hg : ∀ q, Takes (g q) c ok') :
    Takes (Parser.spanFrom first >>= g) c ok' :=
  hg _

theorem next {g : Token → Parser β} (h : c.current.kind ≠ .endOfInput)
    (hg : Takes (g c.current) c.advance fun ls => ok' (c.current.lexeme :: ls)) :
    Takes (Parser.next >>= g) c ok' := by
  refine fun hc => (hg (hc.advance h)).imp fun o ⟨ls, hls, ho, hok⟩ => ?_
  exact ⟨c.current.lexeme :: ls, by rw [hc.lexemes_eq, hls, List.cons_append], ho, hok⟩

/-! ## Single tokens -/

/-- A token of the kind that is asked for is the next lexeme. -/
theorem take {kind : TokenKind} {wanted : Expectation} {g : Token → Parser β}
    (hk : kind ≠ .endOfInput)
    (hg : ∀ t c', t.kind = kind → Takes (g t) c' fun ls => ok' (t.lexeme :: ls)) :
    Takes ((do if (← Parser.peek).kind = kind then Parser.next else Parser.unexpected wanted) >>= g)
      c ok' := by
  have htake : Takes
      (do if (← Parser.peek).kind = kind then Parser.next else Parser.unexpected wanted) c
      fun ls t _ => ls = [t.lexeme] ∧ t.kind = kind := by
    refine peek ?_
    split
    · rename_i h
      have hne : c.current.kind ≠ .endOfInput := h ▸ hk
      exact fun hc => Ensures.pure ⟨[c.current.lexeme], hc.lexemes_eq, hc.advance hne, rfl, h⟩
    · exact unexpected
  refine htake.bind fun ls t c' ⟨hls, ht⟩ => ?_
  rw [hls]
  exact hg t c' ht

theorem punct {p : Punct} {g : Token → Parser β}
    (hg : ∀ t c', t.kind = .punct p → Takes (g t) c' fun ls => ok' (t.lexeme :: ls)) :
    Takes (Parser.punct p >>= g) c ok' :=
  take (by simp) hg

theorem keyword {k : Keyword} {g : Token → Parser β}
    (hg : ∀ t c', t.kind = .keyword k → Takes (g t) c' fun ls => ok' (t.lexeme :: ls)) :
    Takes (Parser.keyword k >>= g) c ok' :=
  take (by simp) hg

theorem identifier {g : Token → Parser β}
    (hg : ∀ t c', t.kind = .identifier → Takes (g t) c' fun ls => ok' (t.lexeme :: ls)) :
    Takes (Parser.identifier >>= g) c ok' :=
  take (by simp) hg

/-- Whether a token is taken decides which lexemes are left. -/
theorem accept {kind : TokenKind} {g : Bool → Parser β} (hk : kind ≠ .endOfInput)
    (hyes : c.current.kind = kind →
      Takes (g true) c.advance fun ls => ok' (c.current.lexeme :: ls))
    (hno : c.current.kind ≠ kind → Takes (g false) c ok') :
    Takes (Parser.accept kind >>= g) c ok' := by
  have hrun : (Parser.accept kind).run c =
      (if c.current.kind = kind then do let _ ← Parser.next; return true
        else (Pure.pure false : Parser Bool)).run c := rfl
  intro hc
  rw [StateT.run_bind, hrun]
  by_cases h : c.current.kind = kind
  · rw [if_pos h]
    have hne : c.current.kind ≠ .endOfInput := h ▸ hk
    refine (hyes h (hc.advance hne)).imp fun o ⟨ls, hls, ho, hok⟩ => ?_
    exact ⟨c.current.lexeme :: ls, by rw [hc.lexemes_eq, hls, List.cons_append], ho, hok⟩
  · rw [if_neg h]
    exact hno h hc

/-! ## Specifiers -/

theorem set {g : PUnit → Parser β} {c' : Cursor} {ls : List Lexeme}
    (hls : c.lexemes = ls ++ c'.lexemes) (hc' : c.Ended → c'.Ended)
    (hg : Takes (g ⟨⟩) c' fun ls' => ok' (ls ++ ls')) :
    Takes (MonadStateOf.set c' >>= g) c ok' := by
  refine fun hc => (hg (hc' hc)).imp fun o ⟨ls', hls', ho, hok⟩ => ?_
  exact ⟨ls ++ ls', by rw [hls, hls', List.append_assoc], ho, hok⟩

/-- The specifiers that are taken spell the type and the storage class that are answered. -/
theorem specifiers : Takes Parser.specifiers c fun ls s _ => Specifiers.Derives ls s := by
  have hrest : c.lexemes =
      (c.rest.takeWhile Token.isSpecifier).map Token.lexeme ++ c.passSpecifiers.2.lexemes := by
    rw [Cursor.lexemes, Cursor.lexemes, ← List.map_append]
    exact congrArg _ List.takeWhile_append_dropWhile.symm
  refine peek (get (set hrest Cursor.Ended.passSpecifiers (spanFrom fun q => ?_)))
  split
  · rename_i s hs
    have heach : ∀ t ∈ c.rest.takeWhile Token.isSpecifier, t.isSpecifier = true :=
      fun t ht => List.all_eq_true.1 List.all_takeWhile t ht
    obtain ⟨hkinds, hwords⟩ := Token.kinds_of_isSpecifier heach
    refine pure ⟨_, ?_, (Specifiers.ofWords_eq_ok_iff hwords).1 hs⟩
    rw [List.append_nil]
    exact hkinds
  · exact fail

/-! ## Repetition -/

variable {R : List Lexeme → α → Prop}

/-- Pieces that are related to the elements of a list. -/
theorem manyUntil {stop : Punct} {element : Parser α}
    (he : ∀ c, Takes element c fun ls a _ => R ls a) (bound : Nat) :
    ∀ c, Takes (Parser.manyUntil stop element bound) c fun ls as _ =>
      ∃ pieces : List (List Lexeme × α), as = pieces.map Prod.snd ∧
        (∀ x ∈ pieces, R x.1 x.2) ∧ ls = (pieces.map Prod.fst).flatten := by
  induction bound with
  | zero => exact fun c => endless
  | succ bound ih =>
      intro c
      rw [Parser.manyUntil]
      refine peek ?_
      split
      · exact pure ⟨[], rfl, by simp, rfl⟩
      split
      · exact unexpected
      · refine (he c).bind fun ls a c₁ ha => (ih c₁).bind fun ls' as c₂ h => pure ?_
        obtain ⟨pieces, rfl, hpieces, rfl⟩ := h
        exact ⟨(ls, a) :: pieces, rfl, List.forall_mem_cons.2 ⟨ha, hpieces⟩, by simp⟩

theorem manyUntilEnd {element : Parser α}
    (he : ∀ c, Takes element c fun ls a _ => R ls a) (bound : Nat) :
    ∀ c, Takes (Parser.manyUntilEnd element bound) c fun ls as u =>
      (∃ pieces : List (List Lexeme × α), as = pieces.map Prod.snd ∧
        (∀ x ∈ pieces, R x.1 x.2) ∧ ls = (pieces.map Prod.fst).flatten) ∧
        u.kind = .endOfInput := by
  induction bound with
  | zero => exact fun c => endless
  | succ bound ih =>
      intro c
      rw [Parser.manyUntilEnd]
      refine peek ?_
      split
      · rename_i hend
        exact pure ⟨⟨[], rfl, by simp, rfl⟩, hend⟩
      · refine (he c).bind fun ls a c₁ ha => (ih c₁).bind fun ls' as c₂ h => pure ?_
        obtain ⟨⟨pieces, rfl, hpieces, rfl⟩, hend⟩ := h
        exact ⟨⟨(ls, a) :: pieces, rfl, List.forall_mem_cons.2 ⟨ha, hpieces⟩, by simp⟩, hend⟩

/-- There is nothing only in front of the punctuator where the list stops. -/
theorem separatedUntil {stop : Punct} {element : Parser α}
    (he : ∀ c, Takes element c fun ls a _ => R ls a) (bound : Nat) :
    ∀ c, Takes (Parser.separatedUntil stop element bound) c fun ls as _ =>
      (as = [] → c.current.kind = .punct stop) ∧
        ∃ pieces : List (List Lexeme × α), as = pieces.map Prod.snd ∧
          (∀ x ∈ pieces, R x.1 x.2) ∧ Separated true (pieces.map Prod.fst) ls := by
  induction bound with
  | zero => exact fun c => endless
  | succ bound ih =>
      intro c
      rw [Parser.separatedUntil]
      refine peek ?_
      split
      · rename_i hstop
        exact pure ⟨fun _ => hstop, [], rfl, by simp, .nil⟩
      split
      · exact unexpected
      · refine (he c).bind fun ls a c₁ ha => accept (by simp) (fun ht => ?_) fun _ => ?_
        · refine (ih _).bind fun ls' as c₂ h => pure ?_
          obtain ⟨-, pieces, rfl, hpieces, hls⟩ := h
          refine ⟨nofun, (ls, a) :: pieces, rfl, List.forall_mem_cons.2 ⟨ha, hpieces⟩, ?_⟩
          rw [List.append_nil]
          exact .cons ht nofun hls
        · refine pure ⟨nofun, [(ls, a)], rfl, List.forall_mem_singleton.2 ha, ?_⟩
          rw [List.append_nil]
          exact .single

end Takes

/-! ## Expressions -/

/-- What reading expressions takes where the recursion is bounded by `bound`. Behind an expression
there is no joint that binds tightly enough to have been taken. -/
structure ExprTaken (bound : Nat) : Prop where
  operand : ∀ c, Takes (operand bound) c fun ls e _ => e.Derives true Joint.tightest ls
  expression : ∀ least c, Takes (expression bound least) c fun ls e u =>
    e.Derives true least ls ∧ ∀ j, u.kind.joint? = some j → j.strength < least
  joints : ∀ least q left ls₀ c, left.Derives true q ls₀ → least ≤ q →
    (∀ j, c.current.kind.joint? = some j → j.left ≤ q) →
      Takes (joints bound least left) c fun ls e u =>
        e.Derives true least (ls₀ ++ ls) ∧ ∀ j, u.kind.joint? = some j → j.strength < least

variable {bound : Nat}

theorem ExprTaken.whole (g : ExprTaken bound) (c : Cursor) :
    Takes (Parser.expression bound 0) c fun ls e _ => e.Derives true 0 ls :=
  (g.expression 0 c).imp fun _ _ _ h => h.1

/-- The operand that is answered is derived from the lexemes taken. A parenthesis opens a cast if a
specifier stands behind it. -/
theorem takes_operand_succ (g : ExprTaken bound) (c : Cursor) :
    Takes (operand (bound + 1)) c fun ls e _ => e.Derives true Joint.tightest ls := by
  rw [operand]
  refine .peek ?_
  split
  · -- a literal
    rename_i s hk
    refine .next (by simp [hk]) ?_
    split
    · rename_i value hvalue
      exact .pure (.constant _ hk hvalue)
    · exact .fail
  · -- a name, alone or in front of arguments
    rename_i hk
    refine .next (by simp [hk]) (.accept (by simp) (fun hl => ?_) fun _ => ?_)
    · refine (Takes.separatedUntil g.whole bound _).bind fun ls args c₁ h => ?_
      obtain ⟨-, pieces, rfl, hpieces, hls⟩ := h
      refine .punct fun r c₂ hr => .spanFrom fun q => .pure ?_
      exact .call q hk hl pieces hpieces hls hr
    · exact .pure (.var _ hk)
  · -- a cast, or an expression in parentheses
    rename_i hk
    refine .next (by simp [hk]) (.peek ?_)
    split
    · refine Takes.specifiers.bind fun ws s c₁ hs => ?_
      split
      · exact .spanFrom fun q => .fail
      · rename_i hstorage
        refine .punct fun r c₂ hr => (g.operand c₂).bind fun ls e c₃ he => ?_
        refine .spanFrom fun q => .pure ?_
        rw [List.append_nil]
        obtain ⟨t, storage⟩ := s
        obtain rfl : storage = none := by simpa using hstorage
        exact .cast q hk hs hr he
    · refine (g.whole _).bind fun ls e c₁ he => .punct fun r c₂ hr => .pure ?_
      exact .parens hk he hr
  · -- an operator in front of its operand
    rename_i p _ hk
    split
    · rename_i op hop
      refine .next (by simp [hk]) ((g.operand _).bind fun ls e c₁ he => .spanFrom fun q => .pure ?_)
      rw [List.append_nil]
      exact .unary q hk hop he
    · exact .unexpected
  · exact .unexpected
  · exact .unexpected

/-- What is taken is the longest expression at this level: no operator that binds as strongly
follows it. -/
theorem takes_expression_succ (g : ExprTaken bound) (least : Nat) (c : Cursor) :
    Takes (expression (bound + 1) least) c fun ls e u =>
      e.Derives true least ls ∧ ∀ j, u.kind.joint? = some j → j.strength < least := by
  rw [expression]
  refine (g.operand c).bind fun ls left c₁ hleft => ?_
  -- an operand without joints can stand left of every joint
  refine g.joints least (least + Joint.tightest) left ls c₁ (hleft.of_tightest _)
    (Nat.le_add_right _ _) fun j _ => ?_
  exact Nat.le_trans j.left_le_tightest (Nat.le_add_left _ _)

/-- With each joint the derivation of the left operand grows. The loop ends in front of a joint that
binds too loosely to be taken, or of none. -/
theorem takes_joints_succ (g : ExprTaken bound) {least q : Nat} {left : Expr} {ls₀ : List Lexeme}
    (c : Cursor) (hleft : left.Derives true q ls₀) (hq : least ≤ q)
    (hnext : ∀ j, c.current.kind.joint? = some j → j.left ≤ q) :
    Takes (joints (bound + 1) least left) c fun ls e u =>
      e.Derives true least (ls₀ ++ ls) ∧ ∀ j, u.kind.joint? = some j → j.strength < least := by
  rw [joints]
  refine .peek ?_
  have hend : (∀ j, c.current.kind.joint? = some j → j.strength < least) →
      Takes (Pure.pure left) c fun ls e u =>
        e.Derives true least (ls₀ ++ ls) ∧ ∀ j, u.kind.joint? = some j → j.strength < least := by
    refine fun h => .pure ⟨?_, h⟩
    rw [List.append_nil]
    exact hleft.mono hq
  split
  · rename_i hnone
    exact hend fun j hj => absurd (hnone.symm.trans hj) nofun
  · rename_i joint hjoint
    have hjoint : c.current.kind.joint? = some joint := hjoint
    split
    · rename_i hweak
      refine hend fun j hj => ?_
      rw [hjoint] at hj
      cases hj
      exact hweak
    · rename_i hstrong
      have hstrong : least ≤ joint.strength := Nat.not_lt.1 hstrong
      have hk : c.current.kind ≠ .endOfInput := fun h => by
        simp [TokenKind.joint?, h] at hjoint
      have hleft := hleft.mono (hnext joint hjoint)
      -- what the joint makes of its operands is what is extended from here on
      have hmade : ∀ (e : Expr) (ls : List Lexeme) (c' : Cursor),
          e.Derives true joint.strength (ls₀ ++ c.current.lexeme :: ls) →
          (∀ j, c'.current.kind.joint? = some j → j.strength < joint.right) →
          Takes (joints bound least e) c' fun ls' e u =>
            e.Derives true least (ls₀ ++ c.current.lexeme :: (ls ++ ls')) ∧
              ∀ j, u.kind.joint? = some j → j.strength < least := by
        intro e ls c' he hbehind
        refine (g.joints least joint.strength e _ c' he hstrong fun j hj =>
          (Joint.left_le_iff joint j).2 (hbehind j hj)).imp fun ls' e u h => ?_
        rwa [List.append_assoc, List.cons_append] at h
      refine .next hk ?_
      split
      · refine (g.expression _ _).bind fun rs value c₁ ⟨hvalue, hbehind⟩ => .spanFrom fun s => ?_
        exact hmade _ rs c₁ (.assignment s (Nat.le_refl _) hleft hjoint hvalue) hbehind
      · refine (g.whole _).bind fun ms yes c₁ hyes => .punct fun m c₂ hm => ?_
        refine (g.expression _ _).bind fun rs no c₃ ⟨hno, hbehind⟩ => .spanFrom fun s => ?_
        refine (hmade _ (ms ++ m.lexeme :: rs) c₃
          (.conditional s (Nat.le_refl _) hleft hjoint hyes hm hno) hbehind).imp fun ls' e u h => ?_
        simpa using h
      · refine (g.expression _ _).bind fun rs right c₁ ⟨hright, hbehind⟩ => .spanFrom fun s => ?_
        exact hmade _ rs c₁ (.binary s (Nat.le_refl _) hleft hjoint hright) hbehind

theorem exprTaken (bound : Nat) : ExprTaken bound := by
  induction bound with
  | zero => exact ⟨fun _ => .endless, fun _ _ => .endless, fun _ _ _ _ _ _ _ _ => .endless⟩
  | succ bound ih =>
      exact ⟨takes_operand_succ ih, takes_expression_succ ih,
        fun _ _ _ _ c hleft hq hnext => takes_joints_succ ih c hleft hq hnext⟩

/-! ## Parts of statements and declarations -/

theorem takes_optionalExpression (bound : Nat) (stop : Punct) (c : Cursor) :
    Takes (optionalExpression bound stop) c fun ls o _ => Expr.OptionDerives true ls o := by
  refine .peek ?_
  split
  · exact .pure .none
  · refine ((exprTaken bound).whole c).bind fun ls e c₁ he => .pure ?_
    rw [List.append_nil]
    exact .some he

theorem takes_parenthesized (bound : Nat) (c : Cursor) :
    Takes (parenthesized bound) c fun ls e _ => e.Parenthesized true ls :=
  .punct fun _ c₁ hl => ((exprTaken bound).whole c₁).bind fun _ _ _ he => .punct fun _ _ hr =>
    .pure (.mk hl he hr)

theorem takes_parameter (c : Cursor) :
    Takes parameter c fun ls p _ => Param.Derives ls p := by
  refine .peek (Takes.specifiers.bind fun ws s c₁ hs => ?_)
  split
  · exact .spanFrom fun q => .fail
  · rename_i hstorage
    refine .identifier fun x c₂ hx => .spanFrom fun q => .pure ?_
    obtain ⟨t, storage⟩ := s
    obtain rfl : storage = none := by simpa using hstorage
    exact .mk q hs hx

/-- Parameters are derived from the lexemes taken, with their parentheses. -/
theorem takes_parameters (bound : Nat) (c : Cursor) :
    Takes (parameters bound) c fun ls ps _ => Param.AllDerive true ls ps := by
  refine .punct fun l c₁ hl => .get ?_
  split
  · rename_i h
    refine .next (by simp [h.1]) (.next (by simp [Cursor.current_advance, h.2]) (.pure ?_))
    refine .nothing hl h.1 ?_
    rw [Cursor.current_advance]
    exact h.2
  split
  · exact .unexpected
  · rename_i hne
    refine (Takes.separatedUntil takes_parameter bound c₁).bind fun ls ps c₂ h => ?_
    obtain ⟨hsome, pieces, rfl, hpieces, hls⟩ := h
    refine .punct fun r c₃ hr => .pure ?_
    refine .some hl pieces (fun e => hne (hsome ?_)) hpieces hls hr
    rw [e]
    rfl

/-! ## Statements and declarations -/

/-- What reading statements and declarations takes where the recursion is bounded by `bound`. Behind
a statement that an `else` would belong to there is none. -/
structure StmtTaken (bound : Nat) : Prop where
  statement : ∀ c, Takes (statement bound) c fun ls s u =>
    Phrase.Derives true ls (.stmt s) ∧ (s.endsOpen = true → u.kind ≠ .keyword .elseKw)
  forInit : ∀ c, Takes (forInit bound) c fun ls i _ => Phrase.Derives true ls (.init i)
  block : ∀ c, Takes (block bound) c fun ls r _ => Phrase.Derives true ls (.block r.2)
  item : ∀ c, Takes (item bound) c fun ls i _ => Phrase.Derives true ls (.item i)
  declaration : ∀ c, Takes (declaration bound) c fun ls d _ => Phrase.Derives true ls (.decl d)

/-- Each way to read a statement is a rule of the grammar. Behind an `if` without `else` the next
token is no `else`, since it would have been taken. -/
theorem takes_statement_succ (g : StmtTaken bound) (c : Cursor) :
    Takes (statement (bound + 1)) c fun ls s u =>
      Phrase.Derives true ls (.stmt s) ∧ (s.endsOpen = true → u.kind ≠ .keyword .elseKw) := by
  have hwhole := (exprTaken bound).whole
  rw [statement]
  refine .peek ?_
  split
  · -- `return`
    rename_i hk
    refine .next (by simp [hk]) ((hwhole _).bind fun ls e c₁ he => .punct fun r c₂ hr => ?_)
    exact .spanFrom fun q => .pure ⟨.ret q hk he hr, nofun⟩
  · -- `if`, with `else` or without
    rename_i hk
    refine .next (by simp [hk]) ((takes_parenthesized bound _).bind fun cs e c₁ he => ?_)
    refine (g.statement c₁).bind fun ls yes c₂ ⟨hyes, hopen⟩ => ?_
    refine .accept (by simp) (fun ho => ?_) fun hnone => ?_
    · refine (g.statement _).bind fun rs no c₃ ⟨hno, hopen'⟩ => .spanFrom fun q =>
        .pure ⟨?_, hopen'⟩
      rw [List.append_nil]
      exact .ifElse q hk he hyes (Bool.eq_false_iff.2 fun h => hopen h ho) ho hno
    · refine .spanFrom fun q => .pure ⟨?_, fun _ => hnone⟩
      rw [List.append_nil]
      exact .ifThen q hk he hyes
  · -- a block
    refine (g.block c).bind fun ls r c₁ hr => .pure ⟨?_, nofun⟩
    rw [List.append_nil]
    exact .compound r.1 hr
  · -- `break`
    rename_i hk
    refine .next (by simp [hk]) (.punct fun r c₁ hr => .spanFrom fun q => .pure ⟨?_, nofun⟩)
    exact .breakLoop q hk hr
  · -- `continue`
    rename_i hk
    refine .next (by simp [hk]) (.punct fun r c₁ hr => .spanFrom fun q => .pure ⟨?_, nofun⟩)
    exact .continueLoop q hk hr
  · -- `while`
    rename_i hk
    refine .next (by simp [hk]) ((takes_parenthesized bound _).bind fun cs e c₁ he => ?_)
    refine (g.statement c₁).bind fun ls body c₂ ⟨hbody, hopen⟩ => .spanFrom fun q =>
      .pure ⟨?_, hopen⟩
    rw [List.append_nil]
    exact .whileLoop q hk he hbody
  · -- `do`
    rename_i hk
    refine .next (by simp [hk]) ((g.statement _).bind fun ls body c₁ ⟨hbody, _⟩ => ?_)
    refine .keyword fun w c₂ hw => (takes_parenthesized bound c₂).bind fun cs e c₃ he => ?_
    exact .punct fun r c₄ hr => .spanFrom fun q => .pure ⟨.doLoop q hk hbody hw he hr, nofun⟩
  · -- `for`
    rename_i hk
    refine .next (by simp [hk]) (.punct fun l c₁ hl => (g.forInit c₁).bind fun is i c₂ hi => ?_)
    refine (takes_optionalExpression bound _ c₂).bind fun cs e c₃ he => .punct fun s c₄ hs => ?_
    refine (takes_optionalExpression bound _ c₄).bind fun ps post c₅ hpost =>
      .punct fun r c₆ hr => ?_
    refine (g.statement c₆).bind fun ls body c₇ ⟨hbody, hopen⟩ => .spanFrom fun q =>
      .pure ⟨?_, hopen⟩
    rw [List.append_nil]
    exact .forLoop q hk hl hi he hs hpost hr hbody
  · -- a semicolon alone
    rename_i hk
    exact .next (by simp [hk]) (.pure ⟨.null _ hk, nofun⟩)
  · -- an expression
    refine (hwhole c).bind fun ls e c₁ he => .punct fun r c₂ hr => .spanFrom fun q => ?_
    exact .pure ⟨.expr q he hr, nofun⟩

/-- The first semicolon of a `for` header belongs to what stands before it. -/
theorem takes_forInit_succ (g : StmtTaken bound) (c : Cursor) :
    Takes (forInit (bound + 1)) c fun ls i _ => Phrase.Derives true ls (.init i) := by
  rw [forInit]
  refine .peek ?_
  split
  · refine (g.declaration c).bind fun ls d c₁ hd => ?_
    split
    · refine .pure ?_
      rw [List.append_nil]
      exact .declInit hd
    · exact .fail
    · exact .fail
  · refine (takes_optionalExpression bound _ c).bind fun ls o c₁ ho => .punct fun r c₂ hr => ?_
    cases ho with
    | none => exact .pure (.noInit hr)
    | some he => exact .pure (.exprInit he hr)

theorem takes_block_succ (g : StmtTaken bound) (c : Cursor) :
    Takes (block (bound + 1)) c fun ls r _ => Phrase.Derives true ls (.block r.2) := by
  rw [block]
  refine .punct fun l c₁ hl => (Takes.manyUntil g.item bound c₁).bind fun ls is c₂ h => ?_
  obtain ⟨pieces, rfl, hpieces, rfl⟩ := h
  exact .punct fun r c₃ hr => .spanFrom fun q => .pure (.block hl pieces hpieces hr)

theorem takes_item_succ (g : StmtTaken bound) (c : Cursor) :
    Takes (item (bound + 1)) c fun ls i _ => Phrase.Derives true ls (.item i) := by
  rw [item]
  refine .peek ?_
  split
  · refine (g.declaration c).bind fun ls d c₁ hd => .pure ?_
    rw [List.append_nil]
    exact .declItem hd
  · refine (g.statement c).bind fun ls s c₁ ⟨hs, _⟩ => .pure ?_
    rw [List.append_nil]
    exact .stmtItem hs

/-- Behind specifiers and a name the next token tells a variable, a declaration of a function and a
definition apart. -/
theorem takes_declaration_succ (g : StmtTaken bound) (c : Cursor) :
    Takes (declaration (bound + 1)) c fun ls d _ => Phrase.Derives true ls (.decl d) := by
  rw [declaration]
  refine .peek (Takes.specifiers.bind fun ws s c₁ hs => .identifier fun x c₂ hx => .peek ?_)
  split
  · refine (takes_parameters bound c₂).bind fun ls ps c₃ hps => .peek ?_
    split
    · refine (g.block c₃).bind fun bs r c₄ hr => .spanFrom fun q => .pure ?_
      rw [List.append_nil]
      exact .function q r.1 hs hx hps hr
    · exact .punct fun r c₄ hr => .spanFrom fun q => .pure (.prototype q hs hx hps hr)
  · -- with or without an initializer, the declaration ends in the same way
    have hrest : ∀ (o : Option Expr) (ls : List Lexeme) (c' : Cursor),
        Expr.InitializerDerives true ls o → Takes (do
          let _ ← punct .semicolon
          return Decl.var ⟨← spanFrom c.current.span, x.text, s.type, s.storage, o⟩) c'
          fun ls' d _ => Phrase.Derives true (ws ++ x.lexeme :: (ls ++ ls')) (.decl d) :=
      fun o ls c' ho => .punct fun r c₃ hr => .spanFrom fun q => .pure (.var q hs hx ho hr)
    refine .accept (by simp) (fun hl => ?_) fun _ => hrest none [] c₂ .none
    have hvalue : Takes (some <$> expression bound 0) c₂.advance fun ls o _ =>
        Expr.InitializerDerives true (c₂.current.lexeme :: ls) o :=
      .map (((exprTaken bound).whole _).imp fun ls e _ he => .some hl he)
    exact hvalue.bind fun ls o c₃ ho => hrest o _ c₃ ho

/-- Fuel by fuel, what the statement grammar takes is derived by it. -/
theorem stmtTaken (bound : Nat) : StmtTaken bound := by
  induction bound with
  | zero =>
      exact ⟨fun _ => .endless, fun _ => .endless, fun _ => .endless, fun _ => .endless,
        fun _ => .endless⟩
  | succ bound ih =>
      exact ⟨takes_statement_succ ih, takes_forInit_succ ih, takes_block_succ ih,
        takes_item_succ ih, takes_declaration_succ ih⟩

end Parser

/-! ## Programs -/

theorem Cursor.ended_start {ts : List Token} {last : Token} (h : EndsOnce ts last) :
    (Cursor.start (ts ++ [last])).Ended := by
  refine ⟨?_, ?_⟩ <;> simp [Cursor.start, h.kind]

/-- What lies before an end of the input is the whole list. -/
theorem EndsOnce.eq_of_append {ts : List Token} {last : Token} {ls rest : List Lexeme} {l : Lexeme}
    (h : EndsOnce ts last) (hl : l.kind = .endOfInput)
    (he : (ts ++ [last]).map Token.lexeme = ls ++ l :: rest) : ls = ts.map Token.lexeme := by
  rw [List.map_append, List.append_eq_append_iff] at he
  rcases he with ⟨as, hls, has⟩ | ⟨as, hts, has⟩
  · cases as with
    | nil => rwa [List.append_nil] at hls
    | cons a as => simp at has
  · cases as with
    | nil => rw [hts, List.append_nil]
    | cons a as =>
        obtain rfl : l = a := (List.cons.inj has).1
        have hmem : l ∈ ts.map Token.lexeme := hts ▸ List.mem_append_right _ List.mem_cons_self
        obtain ⟨t, ht, rfl⟩ := List.mem_map.1 hmem
        exact absurd hl (h.once t ht)

/-- What is read is a program of the grammar, in which a comma may stand behind the last argument of
a call and behind the last parameter of a function. -/
theorem Program.derives_of_ofTokens {ts : List Token} {last : Token} {p : Program}
    (h : EndsOnce ts last) (hp : ofTokens (ts ++ [last]) = .ok p) :
    p.Derives true (ts.map Token.lexeme) := by
  obtain ⟨⟨p', c'⟩, hrun, rfl⟩ := map_eq_ok.1 hp
  -- the declarations go up to the first end of the input
  obtain ⟨⟨first, c₀⟩, hfirst, hrun⟩ := run_bind_eq_ok.1 hrun
  cases hfirst
  obtain ⟨⟨ds, c₁⟩, hds, hrun⟩ := run_bind_eq_ok.1 hrun
  obtain ⟨ls, hls, hc₁, ⟨pieces, hpieces⟩, hend⟩ :=
    (Parser.Takes.manyUntilEnd (Parser.stmtTaken _).declaration _ _
      (Cursor.ended_start h)).ok_of_eq hds
  obtain ⟨rfl, hpieces, rfl⟩ := hpieces
  obtain ⟨_, -, hrun⟩ := run_bind_eq_ok.1 hrun
  cases hrun
  rw [hc₁.lexemes_eq] at hls
  rw [← h.eq_of_append hend hls]
  exact .mk _ pieces hpieces

end IntegerC
