import IntegerC.Proofs.Grammar.Soundness

set_option autoImplicit false

/-! # Steps of a parser

`Parser.Run` follows a parser step by step: it looks at the cursor, takes the token at the cursor,
which has to be one of the list, or fails. No step puts a token back. A cursor in tokens that end
with the end of the input never gets behind them before that end is taken, so nothing depends on the
token that is seen there: `Stops` compares two runs, with different bounds of the recursion and
with different tokens behind the end of the list.
-/

namespace IntegerC

/-! ## Runs -/

/-- The cursor `c'` is reached from `c` by taking tokens of the list. -/
inductive Cursor.Passes : Cursor → List Token → Cursor → Prop
  | refl (c : Cursor) : Passes c [] c
  | take {c c' : Cursor} {t : Token} {ts rest : List Token} (h : c.rest = t :: rest)
      (h' : Passes c.advance ts c') : Passes c (t :: ts) c'

/-- From the cursor `c` on, a parser takes tokens of the list one after the other, and ends with a
result or a fault. -/
inductive Parser.Run :
    {α : Type} → Parser α → Cursor → List Token → Except Fault (α × Cursor) → Prop
  | pure {α : Type} {a : α} {c : Cursor} : Run (Pure.pure a) c [] (.ok (a, c))
  | fail {α : Type} {cause : Cause} {s : Span} {c : Cursor} :
      Run (Parser.fail cause s : Parser α) c [] (.error (cause.at s))
  | look {c : Cursor} : Run MonadState.get c [] (.ok (c, c))
  | take {c : Cursor} {t : Token} {ts : List Token} (h : c.rest = t :: ts) :
      Run Parser.next c [t] (.ok (t, c.advance))
  | pass {c c' : Cursor} {ts : List Token} (h : c.Passes ts c') :
      Run (MonadStateOf.set c') c ts (.ok (⟨⟩, c'))
  | bind {α β : Type} {p : Parser α} {g : α → Parser β} {c c' : Cursor} {a : α}
      {ts ts' : List Token} {r : Except Fault (β × Cursor)} (h : Run p c ts (.ok (a, c')))
      (h' : Run (g a) c' ts' r) : Run (p >>= g) c (ts ++ ts') r
  | stop {α β : Type} {p : Parser α} {g : α → Parser β} {c : Cursor} {ts : List Token} {f : Fault}
      (h : Run p c ts (.error f)) : Run (p >>= g) c ts (.error f)

namespace Cursor

variable {c c' c'' : Cursor} {ts ts' : List Token}

namespace Passes

theorem single {t : Token} {ts : List Token} (h : c.rest = t :: ts) : c.Passes [t] c.advance :=
  .take h (.refl _)

theorem rest_eq (h : c.Passes ts c') : c.rest = ts ++ c'.rest := by
  induction h with
  | refl => rfl
  | take h _ ih =>
      rw [h, List.cons_append, ← ih, Cursor.advance, h]

theorem trans (h : c.Passes ts c') (h' : c'.Passes ts' c'') : c.Passes (ts ++ ts') c'' := by
  induction h with
  | refl => exact h'
  | take h _ ih => exact .take h (ih h')

end Passes

/-- The cursor with another token to be seen behind the end of the list. -/
def seeing (c : Cursor) (seen : Token) : Cursor := { c with last := seen }

variable {seen : Token}

theorem advance_seeing (c : Cursor) : (c.seeing seen).advance = c.advance.seeing seen := by
  unfold advance
  cases h : c.rest <;> simp [seeing, h]

theorem Ended.current_seeing (hc : c.Ended) : (c.seeing seen).current = c.current := by
  rw [current, seeing, current, hc.rest_eq]
  rfl

theorem Passes.seeing (h : c.Passes ts c') : (c.seeing seen).Passes ts (c'.seeing seen) := by
  induction h with
  | refl => exact .refl _
  | take h _ ih => exact .take h (by rwa [advance_seeing])

/-- Behind the only end of the input there is nothing. -/
theorem Ended.rest_advance {taken : List Token} {last : Token} (hc : c.Ended)
    (h : EndsOnce ts last) (hts : ts ++ [last] = taken ++ c.rest)
    (hend : c.current.kind = .endOfInput) : c.advance.rest = [] := by
  rw [hc.rest_eq] at hts
  have hlexemes : (ts ++ [last]).map Token.lexeme =
      taken.map Token.lexeme ++ c.current.lexeme :: c.advance.rest.map Token.lexeme := by
    rw [hts, List.map_append, List.map_cons]
  have htaken : taken.map Token.lexeme = ts.map Token.lexeme := h.eq_of_append hend hlexemes
  have hlen := congrArg List.length hts
  have hlen' := congrArg List.length htaken
  simp only [List.length_append, List.length_cons, List.length_map, List.length_nil] at hlen hlen'
  exact List.eq_nil_of_length_eq_zero (by omega)

/-- A run of specifiers is passed token by token. -/
theorem passes_passSpecifiers (c : Cursor) :
    c.Passes (c.rest.takeWhile Token.isSpecifier) c.passSpecifiers.2 := by
  obtain ⟨rest, last, reached⟩ := c
  induction rest generalizing reached with
  | nil => exact .refl _
  | cons t ts ih =>
      by_cases ht : t.isSpecifier = true
      · have hrun : (Cursor.mk (t :: ts) last reached).passSpecifiers.2 =
            (Cursor.mk ts last t.span.stop).passSpecifiers.2 := by
          simp only [passSpecifiers, List.takeWhile_cons, ht, if_true, List.dropWhile_cons,
            List.getLast?_cons, Option.map_some, Option.getD_some]
          cases (ts.takeWhile Token.isSpecifier).getLast? <;> rfl
        rw [hrun, List.takeWhile_cons, if_pos ht]
        exact .take rfl (ih t.span.stop)
      · have hrun : (Cursor.mk (t :: ts) last reached).passSpecifiers.2 =
            Cursor.mk (t :: ts) last reached := by
          simp [passSpecifiers, ht]
        rw [hrun, List.takeWhile_cons, if_neg ht]
        exact .refl _

end Cursor

namespace Parser.Run

variable {α : Type} {p : Parser α} {c : Cursor} {ts : List Token} {r : Except Fault (α × Cursor)}

/-- The tokens that a run takes are the next ones, each of them once. -/
theorem taken_prefix (h : Run p c ts r) : ts <+: c.rest ∧ ∀ o, r = .ok o → c.Passes ts o.2 := by
  induction h with
  | pure | look => exact ⟨List.nil_prefix, by rintro _ ⟨⟩; exact .refl _⟩
  | fail => exact ⟨List.nil_prefix, nofun⟩
  | take h => exact ⟨⟨_, h.symm⟩, by rintro _ ⟨⟩; exact .single h⟩
  | pass h => exact ⟨⟨_, h.rest_eq.symm⟩, by rintro _ ⟨⟩; exact h⟩
  | @bind _ _ _ _ c c' a ts ts' r _ _ ih ih' =>
      have hpass := ih.2 _ rfl
      refine ⟨?_, fun o ho => hpass.trans (ih'.2 o ho)⟩
      rw [hpass.rest_eq]
      exact (List.prefix_append_right_inj ts).2 ih'.1
  | stop _ ih => exact ⟨ih.1, nofun⟩

end Parser.Run

/-! ## Faults -/

/-- A cause for which a parser refuses tokens; giving up at the bound of the recursion is none. -/
def Cause.OfParser (cause : Cause) : Prop :=
  cause ≠ .endlessTokens ∧ (cause.category = .parseError ∨ cause.category = .invalidSpecifier)

/-- The causes that a list of specifiers can have are causes of the parser. -/
theorem ofParser_of_ofWords_eq_error {words : List Keyword} {cause : Cause}
    (h : Specifiers.ofWords words = .error cause) : cause.OfParser := by
  have htype : ∀ ws cause, IntType.ofWords ws = .error cause → cause.OfParser := by
    intro ws cause h
    unfold IntType.ofWords at h
    repeat' split at h
    all_goals cases h
    all_goals exact ⟨by simp, .inr rfl⟩
  unfold Specifiers.ofWords at h
  cases ht : IntType.ofWords (words.filter Keyword.isTypeWord) with
  | error c =>
      rw [ht] at h
      cases h
      exact htype _ _ ht
  | ok t =>
      rw [ht] at h
      simp only [bind, Except.bind] at h
      split at h
      all_goals cases h
      exact ⟨by simp, .inr rfl⟩

/-! ## Two runs at a time -/

namespace Parser

variable {α β : Type} {seen : Token} {n k : Nat} {c : Cursor} {ok ok' : Cursor → Prop}

/-- Both `p`, from `c` on, and `q`, with `seen` behind the end of the list, take the same tokens
and end alike: refused for a cause that parsers have, or at a cursor with `ok`. -/
def Alike (seen : Token) (p q : Parser α) (c : Cursor) (ok : Cursor → Prop) : Prop :=
  ∃ ts r, Run p c ts r ∧ Run q (c.seeing seen) ts (r.map fun o => (o.1, o.2.seeing seen)) ∧
    Ensures r (fun f => f.cause.OfParser) fun o => ok o.2

namespace Alike

theorem pure {a : α} (hc : ok c) : Alike seen (Pure.pure a) (Pure.pure a) c ok :=
  ⟨[], _, .pure, .pure, .pure hc⟩

theorem fail {cause : Cause} {s : Span} (h : cause.OfParser) :
    Alike seen (Parser.fail cause s : Parser α) (Parser.fail cause s) c ok :=
  ⟨[], _, .fail, .fail, .error h⟩

/-- Steps that are read alike may be followed by steps that are. -/
theorem bind {p q : Parser α} {g h : α → Parser β} (hp : Alike seen p q c ok)
    (hg : ∀ a c', ok c' → Alike seen (g a) (h a) c' ok') :
    Alike seen (p >>= g) (q >>= h) c ok' := by
  obtain ⟨ts, r, hrun, hrun', hr⟩ := hp
  cases r with
  | error f => exact ⟨ts, .error f, .stop hrun, .stop hrun', hr⟩
  | ok o =>
      obtain ⟨ts', r', hnext, hnext', hr'⟩ := hg o.1 o.2 hr
      exact ⟨ts ++ ts', r', .bind hrun hnext, .bind hrun' hnext', hr'⟩

theorem imp {p q : Parser α} (h : Alike seen p q c ok) (hok : ∀ c', ok c' → ok' c') :
    Alike seen p q c ok' := by
  obtain ⟨ts, r, hrun, hrun', hr⟩ := h
  exact ⟨ts, r, hrun, hrun', hr.imp fun o => hok o.2⟩

/-- A cursor that is reached is reached by taking tokens. -/
theorem passes {p q : Parser α} (h : Alike seen p q c ok) :
    Alike seen p q c fun c' => ok c' ∧ ∃ ts, c.Passes ts c' := by
  obtain ⟨ts, r, hrun, hrun', hr⟩ := h
  refine ⟨ts, r, hrun, hrun', ?_⟩
  cases r with
  | error f => exact hr
  | ok o => exact ⟨hr, ts, hrun.taken_prefix.2 o rfl⟩

theorem ite {b : Prop} [Decidable b] {p p' q q' : Parser α}
    (hyes : b → Alike seen p q c ok) (hno : ¬ b → Alike seen p' q' c ok) :
    Alike seen (if b then p else p') (if b then q else q') c ok := by
  by_cases h : b
  · rw [if_pos h, if_pos h]
    exact hyes h
  · rw [if_neg h, if_neg h]
    exact hno h

/-- A step that both parsers make alike at first. -/
theorem first {p q : Parser α} {g h : α → Parser β} {a b : α} {c' : Cursor} {ts : List Token}
    (hp : Run p c ts (.ok (a, c'))) (hq : Run q (c.seeing seen) ts (.ok (b, c'.seeing seen)))
    (hg : Alike seen (g a) (h b) c' ok) : Alike seen (p >>= g) (q >>= h) c ok := by
  obtain ⟨ts', r, hrun, hrun', hr⟩ := hg
  exact ⟨ts ++ ts', r, .bind hp hrun, .bind hq hrun', hr⟩

theorem peek {g h : Token → Parser β} (hc : c.Ended)
    (hg : Alike seen (g c.current) (h c.current) c ok) :
    Alike seen (Parser.peek >>= g) (Parser.peek >>= h) c ok := by
  have hpeek : ∀ c' : Cursor, Run Parser.peek c' [] (.ok (c'.current, c')) :=
    fun c' => .bind .look .pure
  refine first (hpeek c) ?_ hg
  rw [← hc.current_seeing]
  exact hpeek _

theorem unexpected {wanted : Expectation} (hc : c.Ended) :
    Alike seen (Parser.unexpected wanted : Parser α) (Parser.unexpected wanted) c ok :=
  peek hc (fail ⟨by simp, .inl rfl⟩)

theorem spanFrom {g h : Span → Parser β} {s : Span} (hg : ∀ s, Alike seen (g s) (h s) c ok) :
    Alike seen (Parser.spanFrom s >>= g) (Parser.spanFrom s >>= h) c ok := by
  have hspan : ∀ c' : Cursor, Run (Parser.spanFrom s) c' [] (.ok (⟨s.start, c'.reached⟩, c')) :=
    fun c' => .bind .look .pure
  exact first (hspan c) (hspan _) (hg _)

/-- Taking a token of the list. -/
theorem next {g h : Token → Parser β} (hc : c.Ended)
    (hg : Alike seen (g c.current) (h c.current) c.advance ok) :
    Alike seen (Parser.next >>= g) (Parser.next >>= h) c ok := by
  refine first (.take hc.rest_eq) ?_ hg
  rw [← Cursor.advance_seeing]
  exact .take hc.rest_eq

end Alike

/-- The same in front of less than `n` tokens that end with the end of the input. -/
abbrev Stops (seen : Token) (n : Nat) (p q : Parser α) (c : Cursor) : Prop :=
  Alike seen p q c fun c' => c'.Ended ∧ c'.rest.length < n

namespace Stops

theorem pure {a : α} (hc : c.Ended) (hn : c.rest.length < n) :
    Stops seen n (Pure.pure a) (Pure.pure a) c :=
  Alike.pure ⟨hc, hn⟩

theorem bind {p q : Parser α} {g h : α → Parser β} (hp : Stops seen k p q c)
    (hg : ∀ a c', c'.Ended → c'.rest.length < k → Alike seen (g a) (h a) c' ok) :
    Alike seen (p >>= g) (q >>= h) c ok :=
  Alike.bind hp fun a c' hc' => hg a c' hc'.1 hc'.2

theorem map {p q : Parser α} {g : α → β} (hp : Stops seen n p q c) :
    Stops seen n (g <$> p) (g <$> q) c := by
  have hmap : ∀ p : Parser α, g <$> p = p >>= fun a => Pure.pure (g a) := fun _ => rfl
  rw [hmap, hmap]
  exact hp.bind fun a c' hc' hlen => pure hc' hlen

theorem mono {p q : Parser α} (h : Stops seen k p q c) (hk : k ≤ n) : Stops seen n p q c :=
  h.imp fun c' hc' => ⟨hc'.1, by omega⟩

/-- Taking a token other than the end of the input makes progress. -/
theorem next {g h : Token → Parser β} (hc : c.Ended) (hk : c.current.kind ≠ .endOfInput)
    (hg : c.advance.Ended → c.advance.rest.length < c.rest.length →
      Alike seen (g c.current) (h c.current) c.advance ok) :
    Alike seen (Parser.next >>= g) (Parser.next >>= h) c ok := by
  refine Alike.next hc (hg (hc.advance hk) ?_)
  rw [hc.rest_eq, List.length_cons]
  exact Nat.lt_succ_self _

/-! ### Single tokens -/

theorem take {kind : TokenKind} {wanted : Expectation} (hc : c.Ended)
    (hk : kind ≠ .endOfInput) :
    Stops seen c.rest.length
      (do if (← Parser.peek).kind = kind then Parser.next else Parser.unexpected wanted)
      (do if (← Parser.peek).kind = kind then Parser.next else Parser.unexpected wanted) c := by
  refine .peek hc (.ite (fun h => ?_) fun _ => .unexpected hc)
  exact next (g := Pure.pure) hc (h ▸ hk) pure

theorem punct (hc : c.Ended) (x : Punct) :
    Stops seen c.rest.length (Parser.punct x) (Parser.punct x) c :=
  take hc (by simp)

theorem keyword (hc : c.Ended) (w : Keyword) :
    Stops seen c.rest.length (Parser.keyword w) (Parser.keyword w) c :=
  take hc (by simp)

theorem identifier (hc : c.Ended) :
    Stops seen c.rest.length Parser.identifier Parser.identifier c :=
  take hc (by simp)

theorem accept (hc : c.Ended) {kind : TokenKind} (hk : kind ≠ .endOfInput) :
    Stops seen (c.rest.length + 1) (Parser.accept kind) (Parser.accept kind) c := by
  refine Alike.peek hc (Alike.ite (fun h => ?_) fun _ => pure hc (Nat.lt_succ_self _))
  exact next hc (h ▸ hk) fun hc' hlen => pure hc' (by omega)

theorem specifiersOf (r : Except Cause Specifiers) {s : Span} {ok : Cursor → Prop} :
    (∀ cause, r = .error cause → cause.OfParser) → ok c →
      Alike seen (match r with | .ok o => return o | .error cause => Parser.fail cause s)
        (match r with | .ok o => return o | .error cause => Parser.fail cause s) c ok := by
  intro hr hc
  cases r with
  | ok o => exact Alike.pure hc
  | error cause => exact Alike.fail (hr cause rfl)

/-- A run of specifiers is read alike whatever is seen behind the end. -/
theorem specifiers (hc : c.Ended) :
    Stops seen (c.rest.length + 1) Parser.specifiers Parser.specifiers c := by
  have hpass := c.passes_passSpecifiers
  have hle : c.passSpecifiers.2.rest.length ≤ c.rest.length := by
    rw [hpass.rest_eq, List.length_append]
    omega
  refine Alike.peek hc (Alike.first .look .look ?_)
  refine Alike.first (.pass hpass) (.pass hpass.seeing) (Alike.spanFrom fun s => ?_)
  refine specifiersOf (Specifiers.ofWords c.passSpecifiers.1)
    (fun _ => ofParser_of_ofWords_eq_error) ?_
  exact ⟨hc.passSpecifiers, Nat.lt_succ_of_le hle⟩

/-! ### Repetition -/

/-- Every element takes a token, so neither bound is reached. -/
theorem manyUntil (stop : Punct) {p q : Parser α} (limit : Nat)
    (he : ∀ c', c'.Ended → c'.rest.length ≤ limit → Stops seen c'.rest.length p q c') :
    ∀ (b b' : Nat) (c : Cursor), c.Ended → c.rest.length ≤ limit → c.rest.length < b →
      c.rest.length < b' →
      Stops seen (c.rest.length + 1) (Parser.manyUntil stop p b)
        (Parser.manyUntil stop q b') c := by
  intro b
  induction b with
  | zero => intro b' c _ _ hb; omega
  | succ b ih =>
      intro b' c hc hl hb hb'
      cases b' with
      | zero => omega
      | succ b' =>
          rw [Parser.manyUntil, Parser.manyUntil]
          refine Alike.peek hc (Alike.ite (fun _ => pure hc (Nat.lt_succ_self _)) fun _ => ?_)
          refine Alike.ite (fun _ => Alike.unexpected hc) fun _ => ?_
          refine (he c hc hl).bind fun x c₁ hc₁ h₁ => ?_
          refine (ih b' c₁ hc₁ (by omega) (by omega) (by omega)).bind fun xs c₂ hc₂ h₂ => ?_
          exact pure hc₂ (by omega)

/-- Two bounds that are larger than the number of tokens make the loop go the same way. -/
theorem separatedUntil (stop : Punct) {p q : Parser α} (limit : Nat)
    (he : ∀ c', c'.Ended → c'.rest.length ≤ limit → Stops seen c'.rest.length p q c') :
    ∀ (b b' : Nat) (c : Cursor), c.Ended → c.rest.length ≤ limit → c.rest.length < b →
      c.rest.length < b' →
      Stops seen (c.rest.length + 1) (Parser.separatedUntil stop p b)
        (Parser.separatedUntil stop q b') c := by
  intro b
  induction b with
  | zero => intro b' c _ _ hb; omega
  | succ b ih =>
      intro b' c hc hl hb hb'
      cases b' with
      | zero => omega
      | succ b' =>
          rw [Parser.separatedUntil, Parser.separatedUntil]
          refine Alike.peek hc (Alike.ite (fun _ => pure hc (Nat.lt_succ_self _)) fun _ => ?_)
          refine Alike.ite (fun _ => Alike.unexpected hc) fun _ => ?_
          refine (he c hc hl).bind fun x c₁ hc₁ h₁ => ?_
          refine (accept hc₁ (by simp)).bind fun more c₂ hc₂ h₂ => ?_
          refine Alike.ite (fun _ => ?_) fun _ => ?_
          · refine (ih b' c₂ hc₂ (by omega) (by omega) (by omega)).bind fun xs c₃ hc₃ h₃ => ?_
            exact pure hc₃ (by omega)
          · exact pure hc₂ (by omega)

end Stops

end Parser

end IntegerC
