import IntegerC.Proofs.Nesting.Nodes
import IntegerC.Proofs.Stepping

set_option autoImplicit false

/-! # Reading nodes from tokens

Every node that a parser makes is over the tokens between the place where the parser began and the
place where the node was made. Only expressions need more to be said: a node that a joint makes
begins where its left operand does, and the parentheses that were opened in front of that operand
are not part of it. `Held` keeps these parentheses apart.
-/

namespace IntegerC

/-- A cursor that has taken tokens has reached the end of the last one. -/
theorem Cursor.Passes.hull_eq {c c' : Cursor} {us : List Token} (h : c.Passes us c')
    (hne : us ≠ []) : hull us = ⟨c.current.span.start, c'.reached⟩ := by
  have hstart : (hull us).start = c.current.span.start := by
    cases h with
    | refl => exact absurd rfl hne
    | take h _ =>
        rw [Cursor.current, h]
        rfl
  have hstop : (hull us).stop = c'.reached := by
    clear hstart
    induction h with
    | refl => exact absurd rfl hne
    | @take c c' t ts rest h h' ih =>
        by_cases hts : ts = []
        · subst hts
          cases h'
          rw [Cursor.advance, h]
          rfl
        · rw [← ih hts]
          exact stop_hull_append [t] hts
  rw [← hstart, ← hstop]

namespace Parser

variable {α β : Type} {c : Cursor} {ok : List Token → α → Cursor → Prop}
  {ok' : List Token → β → Cursor → Prop}

/-- If `p` answers something, then `ok` holds of the tokens taken, of the answer and of the cursor
behind them. -/
def Lays (p : Parser α) (c : Cursor) (ok : List Token → α → Cursor → Prop) : Prop :=
  c.Ended → Answers (p.run c) fun o => ∃ us, c.Passes us o.2 ∧ o.2.Ended ∧ ok us o.1 o.2

namespace Lays

/-! ## Steps -/

theorem pure {a : α} (h : ok [] a c) : Lays (Pure.pure a) c ok :=
  fun hc => Ensures.run_pure ⟨[], .refl c, hc, h⟩

theorem fail {cause : Cause} {s : Span} : Lays (Parser.fail cause s : Parser α) c ok :=
  fun _ => Ensures.run_throw trivial

theorem bind {p : Parser α} {g : α → Parser β} (h : Lays p c ok)
    (hg : ∀ us a c', ok us a c' → Lays (g a) c' fun vs => ok' (us ++ vs)) :
    Lays (p >>= g) c ok' := by
  refine fun hc => Ensures.run_bind (h hc) fun a c' ⟨us, hus, hc', ha⟩ => ?_
  refine (hg us a c' ha hc').imp fun o ⟨vs, hvs, ho, hok⟩ => ?_
  exact ⟨us ++ vs, hus.trans hvs, ho, hok⟩

theorem imp {p : Parser α} {ok₁ : List Token → α → Cursor → Prop} (h : Lays p c ok₁)
    (hok : ∀ us a c', ok₁ us a c' → ok us a c') : Lays p c ok := by
  refine fun hc => (h hc).imp ?_
  rintro ⟨a, c'⟩ ⟨us, hus, hc', ha⟩
  exact ⟨us, hus, hc', hok _ _ _ ha⟩

theorem map {p : Parser α} {g : α → β} (h : Lays p c fun us a => ok' us (g a)) :
    Lays (g <$> p) c ok' :=
  fun hc => Ensures.run_map (h hc)

/-- A span from the first token taken to the last one is that of the tokens. -/
theorem spanned {p : Parser α} (h : Lays p c fun us a c' =>
    (us ≠ [] → hull us = ⟨c.current.span.start, c'.reached⟩) → ok us a c') : Lays p c ok := by
  refine fun hc => (h hc).imp fun o ⟨us, hus, ho, hok⟩ => ?_
  exact ⟨us, hus, ho, hok hus.hull_eq⟩

theorem reached {p : Parser α} (h : Lays p c ok) :
    Lays p c fun us a c' => ok us a c' ∧ (us ≠ [] → c'.reached = (hull us).stop) := by
  refine fun hc => (h hc).imp fun o ⟨us, hus, ho, hok⟩ => ⟨us, hus, ho, hok, fun hne => ?_⟩
  rw [hus.hull_eq hne]

theorem peek {g : Token → Parser β} (h : Lays (g c.current) c ok') :
    Lays (Parser.peek >>= g) c ok' := h

theorem get {g : Cursor → Parser β} (h : Lays (g c) c ok') :
    Lays (MonadState.get >>= g) c ok' := h

theorem unexpected {wanted : Expectation} : Lays (Parser.unexpected wanted : Parser α) c ok :=
  peek fail

theorem endless : Lays (Parser.endless : Parser α) c ok := peek fail

theorem spanFrom {g : Span → Parser β} {first : Span}
    (hg : Lays (g ⟨first.start, c.reached⟩) c ok') : Lays (Parser.spanFrom first >>= g) c ok' :=
  hg

theorem next {g : Token → Parser β} (h : c.current.kind ≠ .endOfInput)
    (hg : Lays (g c.current) c.advance fun us => ok' (c.current :: us)) :
    Lays (Parser.next >>= g) c ok' := by
  refine fun hc => (hg (hc.advance h)).imp fun o ⟨us, hus, ho, hok⟩ => ?_
  exact ⟨c.current :: us, .take hc.rest_eq hus, ho, hok⟩

/-! ## Single tokens -/

/-- A token of the kind that is asked for is taken. -/
theorem take {kind : TokenKind} {wanted : Expectation} {g : Token → Parser β}
    (hk : kind ≠ .endOfInput)
    (hg : ∀ t c', t.kind = kind → Lays (g t) c' fun us => ok' (t :: us)) :
    Lays ((do if (← Parser.peek).kind = kind then Parser.next else Parser.unexpected wanted) >>= g)
      c ok' := by
  have htake : Lays
      (do if (← Parser.peek).kind = kind then Parser.next else Parser.unexpected wanted) c
      fun us t _ => us = [t] ∧ t.kind = kind := by
    refine peek ?_
    split
    · rename_i h
      have hne : c.current.kind ≠ .endOfInput := h ▸ hk
      exact fun hc => Ensures.pure ⟨[c.current], .single hc.rest_eq, hc.advance hne, rfl, h⟩
    · exact unexpected
  refine htake.bind fun us t c' ⟨hus, ht⟩ => ?_
  rw [hus]
  exact hg t c' ht

theorem punct {p : Punct} {g : Token → Parser β}
    (hg : ∀ t c', t.kind = .punct p → Lays (g t) c' fun us => ok' (t :: us)) :
    Lays (Parser.punct p >>= g) c ok' :=
  take (by simp) hg

theorem keyword {k : Keyword} {g : Token → Parser β}
    (hg : ∀ t c', t.kind = .keyword k → Lays (g t) c' fun us => ok' (t :: us)) :
    Lays (Parser.keyword k >>= g) c ok' :=
  take (by simp) hg

theorem identifier {g : Token → Parser β}
    (hg : ∀ t c', t.kind = .identifier → Lays (g t) c' fun us => ok' (t :: us)) :
    Lays (Parser.identifier >>= g) c ok' :=
  take (by simp) hg

/-- Both ways on are given, with the token and without it. -/
theorem accept {kind : TokenKind} {g : Bool → Parser β} (hk : kind ≠ .endOfInput)
    (hyes : c.current.kind = kind → Lays (g true) c.advance fun us => ok' (c.current :: us))
    (hno : Lays (g false) c ok') : Lays (Parser.accept kind >>= g) c ok' := by
  have hrun : (Parser.accept kind).run c =
      (if c.current.kind = kind then do let _ ← Parser.next; return true
        else (Pure.pure false : Parser Bool)).run c := rfl
  intro hc
  rw [StateT.run_bind, hrun]
  by_cases h : c.current.kind = kind
  · rw [if_pos h]
    have hne : c.current.kind ≠ .endOfInput := h ▸ hk
    refine (hyes h (hc.advance hne)).imp fun o ⟨us, hus, ho, hok⟩ => ?_
    exact ⟨c.current :: us, .take hc.rest_eq hus, ho, hok⟩
  · rw [if_neg h]
    exact hno hc

/-! ## Specifiers -/

theorem set {g : PUnit → Parser β} {c' : Cursor} {us : List Token} (hus : c.Passes us c')
    (hc' : c.Ended → c'.Ended) (hg : Lays (g ⟨⟩) c' fun vs => ok' (us ++ vs)) :
    Lays (MonadStateOf.set c' >>= g) c ok' := by
  refine fun hc => (hg (hc' hc)).imp fun o ⟨vs, hvs, ho, hok⟩ => ?_
  exact ⟨us ++ vs, hus.trans hvs, ho, hok⟩

theorem specifiers : Lays Parser.specifiers c fun us s _ =>
    Specifiers.Derives (us.map Token.lexeme) s := by
  refine peek (get (set c.passes_passSpecifiers Cursor.Ended.passSpecifiers (spanFrom ?_)))
  split
  · rename_i s hs
    have heach : ∀ t ∈ c.rest.takeWhile Token.isSpecifier, t.isSpecifier = true :=
      fun t ht => List.all_eq_true.1 List.all_takeWhile t ht
    obtain ⟨hkinds, hwords⟩ := Token.kinds_of_isSpecifier heach
    refine pure ⟨_, ?_, (Specifiers.ofWords_eq_ok_iff hwords).1 hs⟩
    rw [List.append_nil]
    exact hkinds
  · exact fail

/-! ## Repetition -/

variable {node : α → Node}

/-- The elements lie behind each other, each over its own run of tokens. -/
theorem manyUntil {stop : Punct} {element : Parser α}
    (he : ∀ c, Lays element c fun us a _ => Over us (node a)) (bound : Nat) :
    ∀ c, Lays (Parser.manyUntil stop element bound) c fun us as _ =>
      Laid Over us (as.map node) := by
  induction bound with
  | zero => exact fun c => endless
  | succ bound ih =>
      intro c
      rw [Parser.manyUntil]
      refine peek ?_
      split
      · exact pure .nil
      split
      · exact unexpected
      · refine (he c).bind fun us a c₁ ha => (ih c₁).bind fun vs as c₂ has => pure ?_
        rw [List.append_nil]
        exact (Laid.single ha).append has

theorem manyUntilEnd {element : Parser α}
    (he : ∀ c, Lays element c fun us a _ => Over us (node a)) (bound : Nat) :
    ∀ c, Lays (Parser.manyUntilEnd element bound) c fun us as c' =>
      Laid Over us (as.map node) ∧ c'.current.kind = .endOfInput := by
  induction bound with
  | zero => exact fun c => endless
  | succ bound ih =>
      intro c
      rw [Parser.manyUntilEnd]
      refine peek ?_
      split
      · rename_i hend
        exact pure ⟨.nil, hend⟩
      · refine (he c).bind fun us a c₁ ha => (ih c₁).bind fun vs as c₂ h => pure ?_
        obtain ⟨has, hend⟩ := h
        rw [List.append_nil]
        exact ⟨(Laid.single ha).append has, hend⟩

/-- The pieces between the commas are related to the elements, and these have their nodes. -/
theorem separatedUntil {stop : Punct} {element : Parser α} (node : α → Node)
    (R : List Lexeme → α → Prop)
    (he : ∀ c, Lays element c fun us a _ => Laid Over us [node a] ∧ R (us.map Token.lexeme) a)
    (bound : Nat) : ∀ c, Lays (Parser.separatedUntil stop element bound) c fun us as _ =>
      Laid Over us (as.map node) ∧
        ∃ pieces : List (List Lexeme × α), as = pieces.map Prod.snd ∧
          (∀ x ∈ pieces, R x.1 x.2) ∧
          Separated true (pieces.map Prod.fst) (us.map Token.lexeme) := by
  induction bound with
  | zero => exact fun c => endless
  | succ bound ih =>
      intro c
      rw [Parser.separatedUntil]
      refine peek ?_
      split
      · exact pure ⟨.nil, [], rfl, by simp, .nil⟩
      split
      · exact unexpected
      · refine (he c).bind fun us a c₁ h => ?_
        obtain ⟨hlaid, ha⟩ := h
        refine accept (by simp) (fun ht => ?_) ?_
        · refine (ih _).bind fun vs as c₂ h => pure ?_
          obtain ⟨has, pieces, rfl, hpieces, hvs⟩ := h
          rw [List.append_nil]
          refine ⟨hlaid.append (has.token _), (us.map Token.lexeme, a) :: pieces, rfl,
            List.forall_mem_cons.2 ⟨ha, hpieces⟩, ?_⟩
          rw [List.map_append, List.map_cons]
          exact .cons ht (by simp) hvs
        · refine pure ?_
          rw [List.append_nil]
          exact ⟨hlaid, [(us.map Token.lexeme, a)], rfl, List.forall_mem_singleton.2 ha, .single⟩

end Lays

end Parser

/-! ## Expressions -/

/-- The expression spans a run of the tokens that spell it; in front of the run there are only
parentheses that open. -/
structure Held (p : Nat) (us : List Token) (e : Expr) : Prop where
  derives : e.Derives true p (us.map Token.lexeme)
  core : ∃ opened core tail, us = opened ++ (core ++ tail) ∧
    (∀ t ∈ opened, t.kind = .punct .leftParen) ∧ Over core (.expr e)

namespace Held

variable {p q : Nat} {us vs : List Token} {e : Expr}

theorem mono (h : Held q us e) (hp : p ≤ q) : Held p us e := ⟨h.derives.mono hp, h.core⟩

/-- An operand without joints can stand everywhere. -/
theorem of_tightest (h : Held Joint.tightest us e) (p : Nat) : Held p us e :=
  ⟨h.derives.of_tightest p, h.core⟩

theorem laid (h : Held p us e) : Laid Over us [.expr e] := by
  obtain ⟨opened, core, tail, rfl, -, hover⟩ := h.core
  exact ((Laid.single hover).behind tail).front opened

theorem ne_nil (h : Held p us e) : us ≠ [] := by
  obtain ⟨opened, core, tail, rfl, -, hover⟩ := h.core
  simp [hover.ne_nil]

/-- A node that spans all of the tokens. -/
theorem node (hne : us ≠ []) (hspan : e.span = hull us)
    (hd : e.Derives true p (us.map Token.lexeme))
    (h : Laid Over us (Node.expr e).children) : Held p us e :=
  ⟨hd, [], us, [], by simp, nofun, hne, hspan, ⟨[], nofun, hd.mono (Nat.zero_le p)⟩, h⟩

theorem parens {l r : Token} (hl : l.kind = .punct .leftParen) (h : Held 0 us e)
    (hr : r.kind = .punct .rightParen) : Held p (l :: (us ++ [r])) e := by
  refine ⟨?_, ?_⟩
  · rw [List.map_cons, List.map_append]
    exact .parens hl h.derives hr
  · obtain ⟨opened, core, tail, rfl, hopened, hover⟩ := h.core
    exact ⟨l :: opened, core, tail ++ [r], by simp, List.forall_mem_cons.2 ⟨hl, hopened⟩, hover⟩

/-- A node that begins with its left operand and ends with its right one. -/
theorem joined {left : Expr} {ns : List Node} (gap : List Token) (hleft : Held q us left)
    (hne : vs ≠ []) (hspan : e.span = ⟨left.span.start, (hull vs).stop⟩)
    (hd : e.Derives true p ((us ++ (gap ++ vs)).map Token.lexeme))
    (hchildren : (Node.expr e).children = .expr left :: ns) (h : Laid Over (gap ++ vs) ns) :
    Held p (us ++ (gap ++ vs)) e := by
  refine ⟨hd, ?_⟩
  obtain ⟨opened, core, tail, rfl, hopened, hover⟩ := hleft.core
  have hcore : hull (core ++ (tail ++ (gap ++ vs))) = ⟨(hull core).start, (hull vs).stop⟩ := by
    rw [← List.append_assoc, ← List.append_assoc, ← stop_hull_append (core ++ tail ++ gap) hne]
    cases core with
    | nil => exact absurd rfl hover.ne_nil
    | cons t core => rfl
  refine ⟨opened, core ++ (tail ++ (gap ++ vs)), [], by simp, hopened, by simp [hover.ne_nil], ?_,
    ⟨opened, hopened, ?_⟩, ?_⟩
  · rw [hcore, ← hover.span_eq]
    exact hspan
  · simpa only [List.append_assoc] using hd.mono (Nat.zero_le p)
  · rw [hchildren]
    exact (Laid.single hover).append (h.front tail)

end Held

namespace Parser

/-- What reading expressions lays out where the recursion is bounded by `bound`. Behind an
expression there is no joint that binds tightly enough to have been taken. -/
structure ExprLaid (bound : Nat) : Prop where
  operand : ∀ c, Lays (operand bound) c fun us e _ => Held Joint.tightest us e
  expression : ∀ least c, Lays (expression bound least) c fun us e c' =>
    Held least us e ∧ ∀ j, c'.current.kind.joint? = some j → j.strength < least
  joints : ∀ least q left ls c, Held q ls left → least ≤ q →
    (∀ j, c.current.kind.joint? = some j → j.left ≤ q) →
      Lays (joints bound least left) c fun us e c' =>
        Held least (ls ++ us) e ∧ ∀ j, c'.current.kind.joint? = some j → j.strength < least

variable {bound : Nat}

theorem ExprLaid.whole (g : ExprLaid bound) (c : Cursor) :
    Lays (Parser.expression bound 0) c fun us e _ => Held 0 us e :=
  (g.expression 0 c).imp fun _ _ _ h => h.1

/-- An operand lies over the tokens taken, once the parentheses in front of it are put back. -/
theorem lays_operand_succ (g : ExprLaid bound) (c : Cursor) :
    Lays (operand (bound + 1)) c fun us e _ => Held Joint.tightest us e := by
  rw [operand]
  refine .spanned (.peek ?_)
  split
  · -- a literal
    rename_i s hk
    refine .next (by simp [hk]) ?_
    split
    · rename_i value hvalue
      exact .pure fun hspan => .node (by simp) rfl (.constant _ hk hvalue) .nil
    · exact .fail
  · -- a name, alone or in front of arguments
    rename_i hk
    refine .next (by simp [hk]) (.accept (by simp) (fun hl => ?_) ?_)
    · have hargs : ∀ c, Lays (Parser.expression bound 0) c fun us e _ =>
          Laid Over us [.expr e] ∧ e.Derives true 0 (us.map Token.lexeme) :=
        fun c => (g.whole c).imp fun _ _ _ h => ⟨h.laid, h.derives⟩
      refine (Lays.separatedUntil .expr (fun ls e => e.Derives true 0 ls) hargs bound _).bind
        fun us args c₁ h => ?_
      obtain ⟨hlaid, pieces, rfl, hpieces, hus⟩ := h
      refine .punct fun r c₂ hr => .spanFrom (.pure fun hspan => ?_)
      refine .node (by simp) (hspan (by simp)).symm ?_ (((hlaid.behind [r]).token _).token _)
      simp only [List.map_cons, List.map_append]
      exact .call _ hk hl pieces hpieces hus hr
    · exact .pure fun _ => .node (by simp) rfl (.var _ hk) .nil
  · -- a cast, or an expression in parentheses
    rename_i hk
    refine .next (by simp [hk]) (.peek ?_)
    split
    · refine Lays.specifiers.bind fun ws s c₁ hs => ?_
      split
      · exact .spanFrom .fail
      · rename_i hstorage
        refine .punct fun r c₂ hr => (g.operand c₂).bind fun us e c₃ he => ?_
        refine .spanFrom (.pure fun hspan => ?_)
        rw [List.append_nil] at hspan ⊢
        obtain ⟨t, storage⟩ := s
        obtain rfl : storage = none := by simpa using hstorage
        refine .node (by simp) (hspan (by simp)).symm ?_ (((he.laid.token r).front ws).token _)
        simpa using Expr.Derives.cast _ hk hs hr he.derives
    · refine (g.whole _).bind fun us e c₁ he => .punct fun r c₂ hr => .pure fun _ => ?_
      exact .parens hk he hr
  · -- an operator in front of its operand
    rename_i p _ hk
    split
    · rename_i op hop
      refine .next (by simp [hk]) ((g.operand _).bind fun us e c₁ he => .spanFrom ?_)
      refine .pure fun hspan => ?_
      rw [List.append_nil] at hspan ⊢
      exact .node (by simp) (hspan (by simp)).symm (.unary _ hk hop he.derives) (he.laid.token _)
    · exact .unexpected
  · exact .unexpected
  · exact .unexpected

/-- What is read lies over the tokens that were taken, with no operator as strong behind it. -/
theorem lays_expression_succ (g : ExprLaid bound) (least : Nat) (c : Cursor) :
    Lays (expression (bound + 1) least) c fun us e c' =>
      Held least us e ∧ ∀ j, c'.current.kind.joint? = some j → j.strength < least := by
  rw [expression]
  refine (g.operand c).bind fun us left c₁ hleft => ?_
  -- an operand without joints can stand left of every joint
  refine g.joints least (least + Joint.tightest) left us c₁ (hleft.of_tightest _)
    (Nat.le_add_right _ _) fun j _ => ?_
  exact Nat.le_trans j.left_le_tightest (Nat.le_add_left _ _)

/-- Where no joint binds tightly enough, the operand is the whole expression. -/
theorem lays_pure_of_held {least q : Nat} {left : Expr} {ls : List Token} {c : Cursor}
    (hleft : Held q ls left) (hq : least ≤ q)
    (h : ∀ j, c.current.kind.joint? = some j → j.strength < least) :
    Lays (pure left) c fun us e c' =>
      Held least (ls ++ us) e ∧ ∀ j, c'.current.kind.joint? = some j → j.strength < least := by
  refine .pure ⟨?_, h⟩
  rw [List.append_nil]
  exact hleft.mono hq

/-- What a joint makes of its operands is extended by the joints behind them. -/
theorem ExprLaid.extended (g : ExprLaid bound) {least : Nat} {joint : Joint} {ls : List Token}
    {t : Token} {c : Cursor} (hstrong : least ≤ joint.strength) (e : Expr) (us : List Token)
    (he : Held joint.strength (ls ++ t :: us) e)
    (hbehind : ∀ j, c.current.kind.joint? = some j → j.strength < joint.right) :
    Lays (Parser.joints bound least e) c fun vs e c' => Held least (ls ++ t :: (us ++ vs)) e ∧
      ∀ j, c'.current.kind.joint? = some j → j.strength < least := by
  refine (g.joints least joint.strength e _ c he hstrong fun j hj =>
    (Joint.left_le_iff joint j).2 (hbehind j hj)).imp fun vs e c' h => ?_
  rwa [List.append_assoc, List.cons_append] at h

/-- The left operand and the joint with what it takes lie behind each other. Parentheses that stand
open in front of the left operand stay in front of the whole. -/
theorem lays_joints_succ (g : ExprLaid bound) {least q : Nat} {left : Expr} {ls : List Token}
    (c : Cursor) (hleft : Held q ls left) (hq : least ≤ q)
    (hnext : ∀ j, c.current.kind.joint? = some j → j.left ≤ q) :
    Lays (joints (bound + 1) least left) c fun us e c' =>
      Held least (ls ++ us) e ∧ ∀ j, c'.current.kind.joint? = some j → j.strength < least := by
  rw [joints]
  refine .peek ?_
  split
  · rename_i hnone
    exact lays_pure_of_held hleft hq fun j hj => absurd (hnone.symm.trans hj) (by simp)
  · rename_i joint hjoint
    have hjoint : c.current.kind.joint? = some joint := hjoint
    split
    · rename_i hweak
      refine lays_pure_of_held hleft hq fun j hj => ?_
      rw [hjoint] at hj
      cases hj
      exact hweak
    · rename_i hstrong
      have hstrong : least ≤ joint.strength := Nat.not_lt.1 hstrong
      -- a joint is not the end of the input
      have hk : c.current.kind ≠ .endOfInput := fun h => by
        simp [TokenKind.joint?, h] at hjoint
      have hleft := hleft.mono (hnext joint hjoint)
      refine .next hk ?_
      split
      · refine (g.expression _ _).reached.bind fun rs value c₁ h => ?_
        obtain ⟨⟨hvalue, hbehind⟩, hreached⟩ := h
        have hr := hreached hvalue.ne_nil
        refine .spanFrom (g.extended hstrong _ rs (hleft.joined [c.current] hvalue.ne_nil ?_ ?_ rfl
          (hvalue.laid.token _)) hbehind)
        · rw [← hr]
          rfl
        · simpa using Expr.Derives.assignment _ (Nat.le_refl _) hleft.derives hjoint hvalue.derives
      · refine (g.whole _).bind fun ms yes c₁ hyes => .punct fun m c₂ hm => ?_
        refine (g.expression _ _).reached.bind fun rs no c₃ h => ?_
        obtain ⟨⟨hno, hbehind⟩, hreached⟩ := h
        have hr := hreached hno.ne_nil
        have hlaid := (hyes.laid.append (hno.laid.token m)).token c.current
        -- the question mark and the colon belong to the choice, like its operands
        have hheld : Held Joint.conditional.strength (ls ++ (c.current :: (ms ++ [m]) ++ rs))
            (.conditional (Span.note ⟨left.span.start, c₃.reached⟩) left yes no) := by
          refine hleft.joined _ hno.ne_nil ?_ ?_ rfl (by simpa using hlaid)
          · rw [← hr]
            rfl
          · simpa using Expr.Derives.conditional (m := m.lexeme) _ (Nat.le_refl _) hleft.derives
              hjoint hyes.derives hm hno.derives
        refine .spanFrom ((g.extended hstrong _ (ms ++ m :: rs) (by simpa using hheld)
          hbehind).imp fun vs e c' h => ?_)
        simpa using h
      · refine (g.expression _ _).reached.bind fun rs right c₁ h => ?_
        obtain ⟨⟨hright, hbehind⟩, hreached⟩ := h
        have hr := hreached hright.ne_nil
        refine .spanFrom (g.extended hstrong _ rs (hleft.joined [c.current] hright.ne_nil ?_ ?_ rfl
          (hright.laid.token _)) hbehind)
        · rw [← hr]
          rfl
        · simpa using Expr.Derives.binary _ (Nat.le_refl _) hleft.derives hjoint hright.derives

theorem exprLaid (bound : Nat) : ExprLaid bound := by
  induction bound with
  | zero => exact ⟨fun _ => .endless, fun _ _ => .endless, fun _ _ _ _ _ _ _ _ => .endless⟩
  | succ bound ih =>
      exact ⟨lays_operand_succ ih, lays_expression_succ ih,
        fun _ _ _ _ c hleft hq hnext => lays_joints_succ ih c hleft hq hnext⟩

/-! ## Parts of statements and declarations -/

theorem lays_optionalExpression (bound : Nat) (stop : Punct) (c : Cursor) :
    Lays (optionalExpression bound stop) c fun us o _ => Laid Over us (Expr.optionNodes o) := by
  refine .peek ?_
  split
  · exact .pure .nil
  · refine ((exprLaid bound).whole c).bind fun us e c₁ he => .pure ?_
    rw [List.append_nil]
    exact he.laid

theorem lays_parenthesized (bound : Nat) (c : Cursor) :
    Lays (parenthesized bound) c fun us e _ => Laid Over us [.expr e] :=
  .punct fun l c₁ _ => ((exprLaid bound).whole c₁).bind fun _ _ _ he => .punct fun r _ _ =>
    .pure ((he.laid.behind [r]).token l)

theorem lays_parameter (c : Cursor) : Lays parameter c fun us q _ => Over us (.param q) := by
  refine .spanned (.peek (Lays.specifiers.bind fun ws s c₁ _ => ?_))
  split
  · exact .spanFrom .fail
  · refine .identifier fun x c₂ _ => .spanFrom (.pure fun hspan => ?_)
    exact .mk (by simp) (hspan (by simp)).symm trivial .nil

/-- The parameters lie behind each other between the parentheses. -/
theorem lays_parameters (bound : Nat) (c : Cursor) :
    Lays (parameters bound) c fun us ps _ => Laid Over us (ps.map .param) := by
  refine .punct fun l c₁ _ => .get ?_
  split
  · rename_i h
    exact .next (by simp [h.1]) (.next (by simp [Cursor.current_advance, h.2]) (.pure .nil))
  split
  · exact .unexpected
  · have hparams : ∀ c, Lays parameter c fun us q _ => Laid Over us [.param q] ∧ True :=
      fun c => (lays_parameter c).imp fun _ _ _ h => ⟨.single h, trivial⟩
    refine (Lays.separatedUntil .param (fun _ _ => True) hparams bound c₁).bind
      fun us ps c₂ h => ?_
    exact .punct fun r c₃ _ => .pure ((h.1.behind [r]).token l)

/-! ## Statements and declarations -/

/-- A variable is over the same tokens wherever it is declared. -/
theorem over_item {us : List Token} {d : Decl} (h : Over us d.node) :
    Over us (Item.node (.decl d)) := by
  cases d with
  | var d =>
      cases h with
      | mk hne hspan hread hlaid => exact ⟨hne, hspan, hread, hlaid⟩
  | prototype f => exact h
  | function f s body => exact h

/-- What reading statements and declarations lays out where the recursion is bounded by `bound`. -/
structure StmtLaid (bound : Nat) : Prop where
  statement : ∀ c, Lays (statement bound) c fun us s _ => Over us (.stmt s)
  forInit : ∀ c, Lays (forInit bound) c fun us i _ => Laid Over us i.nodes
  block : ∀ c, Lays (block bound) c fun us r _ => Over us (.block r.1 r.2)
  item : ∀ c, Lays (item bound) c fun us i _ => Over us i.node
  declaration : ∀ c, Lays (declaration bound) c fun us d _ => Over us d.node

/-- The span of a statement goes from the token at the cursor to the token taken last, and what it
is made of lies in between, in the order of the text. -/
theorem lays_statement_succ (g : StmtLaid bound) (c : Cursor) :
    Lays (statement (bound + 1)) c fun us s _ => Over us (.stmt s) := by
  have hwhole := (exprLaid bound).whole
  rw [statement]
  refine .spanned (.peek ?_)
  split
  · -- `return`
    rename_i hk
    refine .next (by simp [hk]) ((hwhole _).bind fun us e c₁ he => .punct fun r c₂ _ => ?_)
    refine .spanFrom (.pure fun hspan => .mk (by simp) (hspan (by simp)).symm trivial ?_)
    exact (he.laid.behind [r]).token _
  · -- `if`, with `else` or without
    rename_i hk
    refine .next (by simp [hk]) ((lays_parenthesized bound _).bind fun cs e c₁ he => ?_)
    refine (g.statement c₁).bind fun us yes c₂ hyes => .accept (by simp) (fun _ => ?_) ?_
    · refine (g.statement _).bind fun vs no c₃ hno => .spanFrom (.pure fun hspan => ?_)
      rw [List.append_nil] at hspan ⊢
      refine .mk (by simp) (hspan (by simp)).symm trivial (Laid.token _ ?_)
      exact he.append ((Laid.single hyes).append ((Laid.single hno).token _))
    · refine .spanFrom (.pure fun hspan => ?_)
      rw [List.append_nil] at hspan ⊢
      refine .mk (by simp) (hspan (by simp)).symm trivial (Laid.token _ ?_)
      exact he.append (.single hyes)
  · -- a block
    refine (g.block c).bind fun us r c₁ hr => .pure fun _ => ?_
    rw [List.append_nil]
    exact .mk hr.ne_nil hr.span_eq trivial (.single hr)
  · -- `break`
    rename_i hk
    refine .next (by simp [hk]) (.punct fun r c₁ _ => .spanFrom (.pure fun hspan => ?_))
    exact .mk (by simp) (hspan (by simp)).symm trivial .nil
  · -- `continue`
    rename_i hk
    refine .next (by simp [hk]) (.punct fun r c₁ _ => .spanFrom (.pure fun hspan => ?_))
    exact .mk (by simp) (hspan (by simp)).symm trivial .nil
  · -- `while`
    rename_i hk
    refine .next (by simp [hk]) ((lays_parenthesized bound _).bind fun cs e c₁ he => ?_)
    refine (g.statement c₁).bind fun us body c₂ hbody => .spanFrom (.pure fun hspan => ?_)
    rw [List.append_nil] at hspan ⊢
    refine .mk (by simp) (hspan (by simp)).symm trivial (Laid.token _ ?_)
    exact he.append (.single hbody)
  · -- `do`
    rename_i hk
    refine .next (by simp [hk]) ((g.statement _).bind fun us body c₁ hbody => ?_)
    refine .keyword fun w c₂ _ => (lays_parenthesized bound c₂).bind fun cs e c₃ he => ?_
    refine .punct fun r c₄ _ => .spanFrom (.pure fun hspan => ?_)
    refine .mk (by simp) (hspan (by simp)).symm trivial (Laid.token _ ?_)
    exact (Laid.single hbody).append ((he.behind [r]).token w)
  · -- `for`
    rename_i hk
    refine .next (by simp [hk]) (.punct fun l c₁ _ => (g.forInit c₁).bind fun is i c₂ hi => ?_)
    refine (lays_optionalExpression bound _ c₂).bind fun cs e c₃ he => .punct fun s c₄ _ => ?_
    refine (lays_optionalExpression bound _ c₄).bind fun ps post c₅ hpost => ?_
    refine .punct fun r c₆ _ => (g.statement c₆).bind fun us body c₇ hbody => ?_
    refine .spanFrom (.pure fun hspan => ?_)
    rw [List.append_nil] at hspan ⊢
    refine .mk (by simp) (hspan (by simp)).symm trivial (Laid.token _ (Laid.token l ?_))
    exact hi.append (he.append ((hpost.append ((Laid.single hbody).token r)).token s))
  · -- a semicolon alone
    rename_i hk
    exact .next (by simp [hk]) (.pure fun _ => .mk (by simp) rfl trivial .nil)
  · -- an expression
    refine (hwhole c).bind fun us e c₁ he => .punct fun r c₂ _ => .spanFrom ?_
    exact .pure fun hspan => .mk (by simp) (hspan (by simp)).symm trivial (he.laid.behind [r])

theorem lays_forInit_succ (g : StmtLaid bound) (c : Cursor) :
    Lays (forInit (bound + 1)) c fun us i _ => Laid Over us i.nodes := by
  rw [forInit]
  refine .peek ?_
  split
  · refine (g.declaration c).bind fun us d c₁ hd => ?_
    split
    · refine .pure ?_
      rw [List.append_nil]
      exact .single (over_item hd)
    · exact .fail
    · exact .fail
  · refine (lays_optionalExpression bound _ c).bind fun us o c₁ ho => .punct fun r c₂ _ => ?_
    cases o with
    | none => exact .pure .nil
    | some e => exact .pure (ho.behind [r])

theorem lays_block_succ (g : StmtLaid bound) (c : Cursor) :
    Lays (block (bound + 1)) c fun us r _ => Over us (.block r.1 r.2) := by
  rw [block]
  refine .spanned (.punct fun l c₁ _ => ?_)
  refine (Lays.manyUntil g.item bound c₁).bind fun us is c₂ his => ?_
  refine .punct fun r c₃ _ => .spanFrom (.pure fun hspan => ?_)
  have hstart : (hull (l :: (us ++ [r]))).start = c.current.span.start := by rw [hspan (by simp)]
  refine .mk (by simp) ?_ trivial ((his.behind [r]).token l)
  rw [hspan (by simp), ← hstart]
  rfl

theorem lays_item_succ (g : StmtLaid bound) (c : Cursor) :
    Lays (item (bound + 1)) c fun us i _ => Over us i.node := by
  rw [item]
  refine .peek ?_
  split
  · refine (g.declaration c).bind fun us d c₁ hd => .pure ?_
    rw [List.append_nil]
    exact over_item hd
  · refine (g.statement c).bind fun us s c₁ hs => .pure ?_
    rw [List.append_nil]
    exact hs

/-- The span of a declaration goes from its first specifier to its last token. -/
theorem lays_declaration_succ (g : StmtLaid bound) (c : Cursor) :
    Lays (declaration (bound + 1)) c fun us d _ => Over us d.node := by
  rw [declaration]
  refine .spanned (.peek (Lays.specifiers.bind fun ws s c₁ _ => .identifier fun x c₂ _ => ?_))
  refine .peek ?_
  split
  · refine (lays_parameters bound c₂).bind fun us ps c₃ hps => .peek ?_
    split
    · refine (g.block c₃).bind fun bs r c₄ hr => .spanFrom (.pure fun hspan => ?_)
      rw [List.append_nil] at hspan ⊢
      refine .mk (by simp) (hspan (by simp)).symm trivial (Laid.front ws (Laid.token x ?_))
      exact hps.append (.single hr)
    · refine .punct fun r c₄ _ => .spanFrom (.pure fun hspan => ?_)
      refine .mk (by simp) (hspan (by simp)).symm trivial (Laid.front ws (Laid.token x ?_))
      exact hps.behind [r]
  · -- with or without an initializer, the declaration ends in the same way
    have hrest : ∀ (o : Option Expr) (us : List Token) (c' : Cursor),
        Laid Over us (Expr.optionNodes o) → Lays (do
          let _ ← punct .semicolon
          return Decl.var ⟨← spanFrom c.current.span, x.text, s.type, s.storage, o⟩) c'
          fun vs d c'' => (ws ++ x :: (us ++ vs) ≠ [] →
            hull (ws ++ x :: (us ++ vs)) = ⟨c.current.span.start, c''.reached⟩) →
              Over (ws ++ x :: (us ++ vs)) d.node := by
      refine fun o us c' ho => .punct fun r c₃ _ => .spanFrom (.pure fun hspan => ?_)
      refine .mk (by simp) (hspan (by simp)).symm trivial (Laid.front ws (Laid.token x ?_))
      exact ho.behind [r]
    refine .accept (by simp) (fun _ => ?_) (hrest none [] c₂ .nil)
    have hvalue : Lays (some <$> expression bound 0) c₂.advance fun us o _ =>
        Laid Over (c₂.current :: us) (Expr.optionNodes o) :=
      .map (((exprLaid bound).whole _).imp fun us e _ he => he.laid.token _)
    exact hvalue.bind fun us o c₃ ho => hrest o _ c₃ ho

/-- Fuel by fuel, everything that the statement grammar reads lies over its tokens. -/
theorem stmtLaid (bound : Nat) : StmtLaid bound := by
  induction bound with
  | zero =>
      exact ⟨fun _ => .endless, fun _ => .endless, fun _ => .endless, fun _ => .endless,
        fun _ => .endless⟩
  | succ bound ih =>
      exact ⟨lays_statement_succ ih, lays_forInit_succ ih, lays_block_succ ih,
        lays_item_succ ih, lays_declaration_succ ih⟩

end Parser

/-! ## Programs -/

/-- A program spans all tokens; its declarations are over those before the end of the input. -/
theorem Program.laid_of_ofTokens {ts : List Token} {last : Token} {p : Program}
    (h : EndsOnce ts last) (hp : ofTokens (ts ++ [last]) = .ok p) :
    p.span = hull (ts ++ [last]) ∧ Laid Over ts (Node.program p).children := by
  obtain ⟨⟨p', c'⟩, hrun, rfl⟩ := map_eq_ok.1 hp
  -- the declarations go up to the first end of the input
  obtain ⟨⟨first, c₀⟩, hfirst, hrun⟩ := run_bind_eq_ok.1 hrun
  cases hfirst
  obtain ⟨⟨ds, c₁⟩, hds, hrun⟩ := run_bind_eq_ok.1 hrun
  obtain ⟨us, hus, hc₁, hlaid, hend⟩ :=
    (Parser.Lays.manyUntilEnd (Parser.stmtLaid _).declaration _ _
      (Cursor.ended_start h)).ok_of_eq hds
  have hrest := hus.rest_eq
  rw [hc₁.rest_eq, hc₁.rest_advance h hus.rest_eq hend] at hrest
  obtain ⟨rfl, hlast⟩ := List.append_inj' hrest rfl
  have hspan := (hus.trans (.single hc₁.rest_eq)).hull_eq (by simp)
  have hlastRun : Parser.endOfInput.run c₁ = (if c₁.current.kind = .endOfInput then Parser.next
      else Parser.unexpected .endOfInput).run c₁ := rfl
  rw [StateT.run_bind, hlastRun, if_pos hend] at hrun
  cases hrun
  exact ⟨hspan.symm.trans (congrArg (fun us => hull (ts ++ us)) hlast.symm), hlaid⟩

end IntegerC
