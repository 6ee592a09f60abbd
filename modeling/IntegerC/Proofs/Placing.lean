import IntegerC.Proofs.Tiling
import IntegerC.Proofs.Reading

set_option autoImplicit false

/-! # Where spans end

A span that a parser makes runs from the start of a token to the end of the token taken last, so its
ends are in order once that first token has been taken. `Parser.Places m ts n p c ok` follows a
parser through the tokens `ts` of a text with lines `m`. It says that a fault has its ends in the
text and in order, unless it misses a type where nothing has been taken yet.
-/

namespace IntegerC

/-! ## Pieces of a text -/

/-- The ends of the piece are places of the text, and in order. -/
structure LineMap.Covers (m : LineMap) (s : Span) : Prop where
  start : s.start = m.position s.start.offset
  stop : s.stop = m.position s.stop.offset
  ordered : s.start.offset ≤ s.stop.offset
  inside : s.stop.offset ≤ m.size

namespace LineMap

variable {m : LineMap}

theorem offset_position_le (m : LineMap) (o : Int) : (m.position o).offset ≤ m.size :=
  Nat.min_le_right _ _

theorem position_offset (m : LineMap) (o : Int) :
    m.position (m.position o).offset = m.position o := by
  have hclamp : m.clamp (m.clamp o : Int) = m.clamp o := by
    show min (min o.toNat m.size) m.size = min o.toNat m.size
    omega
  simp only [position, hclamp]

theorem covers_span {start stop : Int} (h : start ≤ stop) : m.Covers (m.span start stop) where
  start := (m.position_offset start).symm
  stop := (m.position_offset stop).symm
  ordered := by
    show min start.toNat m.size ≤ min stop.toNat m.size
    omega
  inside := m.offset_position_le stop

/-- A piece may be stretched to the end of another one that does not end before it. -/
theorem Covers.stretch {s : Span} {u : Span} (hs : m.Covers s) (hu : m.Covers u)
    (h : s.stop.offset ≤ u.stop.offset) : m.Covers ⟨s.start, u.stop⟩ where
  start := hs.start
  stop := hu.stop
  ordered := Nat.le_trans hs.ordered h
  inside := hu.inside

end LineMap

/-! ## Tokens in order -/

/-- The tokens of a text with lines `m`: pieces of it, one behind the other. -/
structure TokensInOrder (m : LineMap) (ts : List Token) : Prop where
  covers : ∀ t ∈ ts, m.Covers t.span
  ordered : ts.Pairwise fun t t' => t.span.stop.offset ≤ t'.span.start.offset
  ended : ∃ t, ts.getLast? = some t ∧ t.kind = .endOfInput

/-- The span of every tile covers the characters of its token. -/
theorem Tiles.covers {m : LineMap} {before cs : List Char} {ts : List Token}
    (h : Tiles m before cs ts) : ∀ t ∈ ts, m.Covers t.span := by
  induction h with
  | @last before gap hgap =>
      exact List.forall_mem_singleton.2
        (m.covers_span (Int.le_refl ((Text.unitsOf (before ++ gap) : Nat) : Int)))
  | @token before gap _ t _ hgap hkind hspells hmaximal hspan h ih =>
      refine List.forall_mem_cons.2 ⟨?_, ih⟩
      rw [hspan]
      refine LineMap.covers_span ?_
      have hunits := Text.unitsOf_append (before ++ gap) t.text.toList
      omega

theorem tokensInOrder {text : String} {ts : List Token} (h : tokens text = .ok ts) :
    TokensInOrder (.ofChars text.toList) ts :=
  ⟨(tokens_tiles h).covers, ((tokens_tiles h).slices rfl).2,
    ((tokens_ensures text).ok_of_eq h).ended⟩

namespace TokensInOrder

variable {m : LineMap} {ts : List Token}

/-- The ends of tokens are in order as well. -/
theorem stop_le (h : TokensInOrder m ts) {i j : Nat} {t u : Token} (ht : ts[i]? = some t)
    (hu : ts[j]? = some u) (hij : i ≤ j) : t.span.stop.offset ≤ u.span.stop.offset := by
  rcases Nat.lt_or_eq_of_le hij with hlt | rfl
  · obtain ⟨hi, rfl⟩ := List.getElem?_eq_some_iff.1 ht
    obtain ⟨hj, rfl⟩ := List.getElem?_eq_some_iff.1 hu
    exact Nat.le_trans (List.pairwise_iff_getElem.1 h.ordered i j hi hj hlt)
      (h.covers _ (List.getElem_mem hj)).ordered
  · rw [ht] at hu
    cases hu
    exact Nat.le_refl _

end TokensInOrder

/-! ## Cursors -/

/-- The cursor has taken the first `k` of the tokens `ts`. Before the first is taken, what it has
reached is the end of that one. -/
structure Cursor.At (ts : List Token) (k : Nat) (c : Cursor) : Prop where
  rest : c.rest = ts.drop k
  le : k ≤ ts.length
  last : ts.getLast? = some c.last
  reached : ∃ t, ts[k - 1]? = some t ∧ c.reached = t.span.stop

/-- A cursor in tokens that are in order. -/
structure Cursor.In (m : LineMap) (ts : List Token) (c : Cursor) : Prop where
  order : TokensInOrder m ts
  taken : ∃ k, c.At ts k

section

variable {m : LineMap} {ts : List Token} {k : Nat} {c c' : Cursor}

namespace Cursor.At

theorem length_rest (hc : c.At ts k) : c.rest.length = ts.length - k := by
  rw [hc.rest, List.length_drop]

/-- Behind the end of the list the last token is seen again. -/
theorem current (hc : c.At ts k) :
    k < ts.length ∧ ts[k]? = some c.current ∨ k = ts.length ∧ ts[k - 1]? = some c.current := by
  have hlen := hc.length_rest
  have hle := hc.le
  cases hrest : c.rest with
  | nil =>
      rw [hrest, List.length_nil] at hlen
      have hk : k = ts.length := by omega
      refine .inr ⟨hk, ?_⟩
      rw [hk, ← List.getLast?_eq_getElem?, hc.last]
      simp [Cursor.current, hrest]
  | cons t us =>
      rw [hrest, List.length_cons] at hlen
      refine .inl ⟨by omega, ?_⟩
      rw [← List.head?_drop, ← hc.rest, hrest]
      simp [Cursor.current, hrest]

theorem advance (hc : c.At ts k) (h : c.rest ≠ []) : c.advance.At ts (k + 1) := by
  obtain ⟨t, us, hrest⟩ := List.exists_cons_of_ne_nil h
  have hadvance : c.advance = { c with rest := us, reached := t.span.stop } := by
    rw [Cursor.advance, hrest]
  have hlen := hc.length_rest
  rw [hrest, List.length_cons] at hlen
  rw [hadvance]
  refine ⟨?_, by omega, hc.last, t, ?_, rfl⟩
  · show us = _
    rw [← List.tail_drop, ← hc.rest, hrest]
    rfl
  · rw [Nat.add_sub_cancel, ← List.head?_drop, ← hc.rest, hrest]
    rfl

/-- Skipping the specifiers leaves the cursor behind as many tokens as there are specifiers. -/
theorem passSpecifiers (hc : c.At ts k) :
    c.passSpecifiers.2.At ts (k + (c.rest.takeWhile Token.isSpecifier).length) := by
  have hsplit := List.takeWhile_append_dropWhile (p := Token.isSpecifier) (l := c.rest)
  have hlen := congrArg List.length hsplit
  rw [List.length_append, hc.length_rest] at hlen
  have hle := hc.le
  refine ⟨?_, by omega, hc.last, ?_⟩
  · show c.rest.dropWhile Token.isSpecifier = _
    have hdrop := congrArg (List.drop (c.rest.takeWhile Token.isSpecifier).length) hsplit
    rw [List.drop_left, hc.rest, List.drop_drop] at hdrop
    rw [hc.rest]
    exact hdrop
  · show ∃ t, _ ∧ ((c.rest.takeWhile Token.isSpecifier).getLast?.map (·.span.stop)).getD _ = _
    cases hrun : (c.rest.takeWhile Token.isSpecifier).getLast? with
    | none =>
        rw [List.getLast?_eq_none_iff] at hrun
        rw [hrun]
        exact hc.reached
    | some t =>
        refine ⟨t, ?_, rfl⟩
        have hpos : 0 < (c.rest.takeWhile Token.isSpecifier).length :=
          List.length_pos_iff.2 fun hnil => by rw [hnil] at hrun; cases hrun
        rw [List.getLast?_eq_getElem?] at hrun
        have hget := congrArg (·[(c.rest.takeWhile Token.isSpecifier).length - 1]?) hsplit
        simp only [List.getElem?_append_left (Nat.sub_lt hpos Nat.one_pos), hrun] at hget
        rw [Nat.add_sub_assoc hpos, ← List.getElem?_drop, ← hc.rest]
        exact hget.symm

end Cursor.At

namespace Cursor.In

theorem current_mem (hc : c.In m ts) : c.current ∈ ts := by
  obtain ⟨k, hk⟩ := hc.taken
  rcases hk.current with ⟨-, ht⟩ | ⟨-, ht⟩ <;> exact List.mem_of_getElem? ht

theorem covers_span (hc : c.In m ts) : m.Covers c.current.span := hc.order.covers _ hc.current_mem

/-- Only the end of the input is seen behind the end of the list. -/
theorem rest_ne_nil (hc : c.In m ts) (h : c.current.kind ≠ .endOfInput) : c.rest ≠ [] := by
  intro hrest
  obtain ⟨k, hk⟩ := hc.taken
  obtain ⟨t, hlast, hend⟩ := hc.order.ended
  rw [hk.last] at hlast
  cases hlast
  apply h
  simpa [Cursor.current, hrest] using hend

theorem advance (hc : c.In m ts) : c.advance.In m ts := by
  by_cases h : c.rest = []
  · rw [Cursor.advance, h]
    exact hc
  · obtain ⟨k, hk⟩ := hc.taken
    exact ⟨hc.order, k + 1, hk.advance h⟩

theorem length_advance_lt (hc : c.In m ts) (h : c.current.kind ≠ .endOfInput) :
    c.advance.rest.length < c.rest.length := by
  have := List.length_pos_iff.2 (hc.rest_ne_nil h)
  rw [Cursor.length_rest_advance]
  omega

theorem passSpecifiers (hc : c.In m ts) : c.passSpecifiers.2.In m ts := by
  obtain ⟨k, hk⟩ := hc.taken
  exact ⟨hc.order, _, hk.passSpecifiers⟩

/-- A run of specifiers that begins at the cursor moves it on. -/
theorem length_passSpecifiers_lt (hc : c.In m ts) (h : c.current.isSpecifier = true) :
    c.passSpecifiers.2.rest.length < c.rest.length := by
  have hkind : c.current.kind ≠ .endOfInput := fun hend => by
    rw [Token.isSpecifier, Token.specifier?, hend] at h
    cases h
  obtain ⟨t, us, hrest⟩ := List.exists_cons_of_ne_nil (hc.rest_ne_nil hkind)
  have hcurrent : c.current = t := by simp [Cursor.current, hrest]
  rw [hcurrent] at h
  show (c.rest.dropWhile Token.isSpecifier).length < _
  rw [hrest, List.dropWhile_cons_of_pos h]
  exact Nat.lt_succ_of_le (List.dropWhile_sublist _).length_le

/-- Once the token at a cursor has been taken, the piece from its start has its ends in order. -/
theorem covers_taken (hc : c.In m ts) (hc' : c'.In m ts) (h : c'.rest.length < c.rest.length) :
    m.Covers ⟨c.current.span.start, c'.reached⟩ := by
  obtain ⟨k, hk⟩ := hc.taken
  obtain ⟨k', hk'⟩ := hc'.taken
  obtain ⟨u, hu, hreached⟩ := hk'.reached
  have hlen := hk.length_rest
  have hlen' := hk'.length_rest
  have hle' := hk'.le
  rw [hreached]
  rcases hk.current with ⟨-, ht⟩ | ⟨hend, -⟩
  · exact hc.covers_span.stretch (hc.order.covers u (List.mem_of_getElem? hu))
      (hc.order.stop_le ht hu (by omega))
  · omega

/-- The end that is reached never moves back. -/
theorem covers_later (hc : c.In m ts) (hc' : c'.In m ts) {p : Position}
    (hp : m.Covers ⟨p, c.reached⟩) (h : c'.rest.length ≤ c.rest.length) :
    m.Covers ⟨p, c'.reached⟩ := by
  obtain ⟨k, hk⟩ := hc.taken
  obtain ⟨k', hk'⟩ := hc'.taken
  obtain ⟨t, ht, hreached⟩ := hk.reached
  obtain ⟨u, hu, hreached'⟩ := hk'.reached
  have hlen := hk.length_rest
  have hlen' := hk'.length_rest
  have hle := hk.le
  rw [hreached']
  rw [hreached] at hp
  exact hp.stretch (hc.order.covers u (List.mem_of_getElem? hu))
    (hc.order.stop_le ht hu (by omega))

end Cursor.In

theorem Cursor.in_start (h : TokensInOrder m ts) : (Cursor.start ts).In m ts := by
  obtain ⟨last, hlast, -⟩ := h.ended
  refine ⟨h, 0, rfl, Nat.zero_le _, by simp [Cursor.start, hlast], ?_⟩
  cases ts with
  | nil => cases hlast
  | cons t us => exact ⟨t, rfl, rfl⟩

theorem Cursor.takeWhile_of_not_isSpecifier (h : c.current.isSpecifier = false) :
    c.rest.takeWhile Token.isSpecifier = [] ∧ c.rest.dropWhile Token.isSpecifier = c.rest := by
  cases hrest : c.rest with
  | nil => exact ⟨rfl, rfl⟩
  | cons t us =>
      have hcurrent : c.current = t := by simp [Cursor.current, hrest]
      rw [hcurrent] at h
      simp [h]

end

/-! ## Faults -/

/-- The fault of a missing type at a token `t` that is no specifier, with `prev` before it. Its span
begins where `t` does, and ends where `prev` ends. -/
def Fault.MissesType (ts : List Token) (f : Fault) (s : Span) : Prop :=
  f.cause = .missingType ∧ ∃ before prev t after, ts = before ++ prev :: t :: after ∧
    t.isSpecifier = false ∧ s = ⟨t.span.start, prev.span.stop⟩

/-- A fault at a piece with its ends in order, or with a missing type at a token. -/
def Fault.Placed (m : LineMap) (ts : List Token) (f : Fault) : Prop :=
  ∃ s, f.span = some s ∧ (m.Covers s ∨ f.MissesType ts s)

/-- Where no specifier stands, the piece from the cursor back to what was reached is that of a
missing type, or of the token at the cursor. -/
theorem Cursor.In.missesType {m : LineMap} {ts : List Token} {c : Cursor} (hc : c.In m ts)
    (h : c.current.isSpecifier = false) :
    (Cause.missingType.at ⟨c.current.span.start, c.reached⟩).Placed m ts := by
  obtain ⟨k, hk⟩ := hc.taken
  obtain ⟨prev, hprev, hreached⟩ := hk.reached
  -- at either end of the list the token at the cursor is the one that was reached
  have hends (hsame : ts[k - 1]? = some c.current) :
      (Cause.missingType.at ⟨c.current.span.start, c.reached⟩).Placed m ts := by
    rw [hprev] at hsame
    cases hsame
    exact ⟨_, rfl, .inl (by rw [hreached]; exact hc.covers_span)⟩
  rcases hk.current with ⟨hlt, hcurrent⟩ | ⟨-, hcurrent⟩
  · rcases Nat.eq_zero_or_pos k with rfl | hpos
    · exact hends hcurrent
    · refine ⟨_, rfl, .inr ⟨rfl, ts.take (k - 1), prev, c.current, ts.drop (k + 1), ?_, h, ?_⟩⟩
      · obtain ⟨hk₀, hprev⟩ := List.getElem?_eq_some_iff.1 hprev
        obtain ⟨_, hcurrent⟩ := List.getElem?_eq_some_iff.1 hcurrent
        have hfrom := List.drop_eq_getElem_cons hk₀
        rw [Nat.sub_add_cancel hpos, List.drop_eq_getElem_cons hlt, hprev, hcurrent] at hfrom
        rw [← hfrom, List.take_append_drop]
      · rw [hreached]
  · exact hends hcurrent

namespace Parser

variable {α β : Type} {m : LineMap} {ts : List Token} {n k : Nat} {c c' : Cursor}
  {ok : α → Cursor → Prop} {ok' : β → Cursor → Prop}

/-- Read from `c`, the parser `p` leaves fewer than `n` tokens and something with `ok`, or it fails
at a piece whose ends are in order. -/
def Places (m : LineMap) (ts : List Token) (n : Nat) (p : Parser α) (c : Cursor)
    (ok : α → Cursor → Prop) : Prop :=
  Ensures (p.run c) (Fault.Placed m ts) fun r => r.2.In m ts ∧ r.2.rest.length < n ∧ ok r.1 r.2

namespace Places

/-! ## Steps -/

theorem pure {a : α} (hc : c.In m ts) (hn : c.rest.length < n) (ha : ok a c) :
    Places m ts n (Pure.pure a) c ok :=
  Ensures.run_pure ⟨hc, hn, ha⟩

theorem fail {cause : Cause} {s : Span} (hs : m.Covers s) :
    Places m ts n (Parser.fail cause s : Parser α) c ok :=
  Ensures.run_throw ⟨s, rfl, .inl hs⟩

theorem bind {p : Parser α} {g : α → Parser β} (h : Places m ts k p c ok)
    (hg : ∀ a c', c'.In m ts → c'.rest.length < k → ok a c' → Places m ts n (g a) c' ok') :
    Places m ts n (p >>= g) c ok' :=
  Ensures.run_bind h fun a c' ⟨hc, hk, ha⟩ => hg a c' hc hk ha

theorem map {p : Parser α} {g : α → β} (h : Places m ts n p c (fun a c' => ok' (g a) c')) :
    Places m ts n (g <$> p) c ok' :=
  Ensures.run_map h

theorem mono {p : Parser α} {ok₁ : α → Cursor → Prop} (h : Places m ts k p c ok₁) (hk : k ≤ n)
    (hok : ∀ a c', ok₁ a c' → ok a c') : Places m ts n p c ok :=
  Ensures.imp h fun r ⟨hc, hn, ha⟩ => ⟨hc, by omega, hok r.1 r.2 ha⟩

theorem peek {g : Token → Parser β} (h : Places m ts n (g c.current) c ok') :
    Places m ts n (Parser.peek >>= g) c ok' := h

theorem get {g : Cursor → Parser β} (h : Places m ts n (g c) c ok') :
    Places m ts n (MonadState.get >>= g) c ok' := h

theorem set {g : PUnit → Parser β} (h : Places m ts n (g ⟨⟩) c' ok') :
    Places m ts n (MonadStateOf.set c' >>= g) c ok' := h

theorem unexpected {wanted : Expectation} (hc : c.In m ts) :
    Places m ts n (Parser.unexpected wanted : Parser α) c ok :=
  peek (fail hc.covers_span)

theorem endless (hc : c.In m ts) : Places m ts n (Parser.endless : Parser α) c ok :=
  peek (fail hc.covers_span)

/-- Taking a token other than the end of the input makes progress. -/
theorem next {g : Token → Parser β} (hc : c.In m ts) (h : c.current.kind ≠ .endOfInput)
    (hg : ∀ c', c'.In m ts → c'.rest.length < c.rest.length →
      Places m ts n (g c.current) c' ok') :
    Places m ts n (Parser.next >>= g) c ok' :=
  hg c.advance hc.advance (hc.length_advance_lt h)

/-- Taking any token does not move the cursor back. -/
theorem skip {g : Token → Parser β} (hc : c.In m ts)
    (hg : ∀ c', c'.In m ts → c'.rest.length ≤ c.rest.length →
      Places m ts n (g c.current) c' ok') :
    Places m ts n (Parser.next >>= g) c ok' :=
  hg c.advance hc.advance Cursor.Of.length_advance_le

theorem spanFrom {g : Span → Parser β} {first : Span}
    (h : Places m ts n (g ⟨first.start, c.reached⟩) c ok') :
    Places m ts n (Parser.spanFrom first >>= g) c ok' := h

/-! ## Single tokens -/

theorem take {kind : TokenKind} {wanted : Expectation} (hc : c.In m ts)
    (hk : kind ≠ .endOfInput) :
    Places m ts c.rest.length
      (do if (← Parser.peek).kind = kind then Parser.next else Parser.unexpected wanted) c
      (fun t _ => t = c.current) := by
  refine peek ?_
  split
  · rename_i h
    have hne : c.current.kind ≠ .endOfInput := by rw [h]; exact hk
    exact Ensures.pure ⟨hc.advance, hc.length_advance_lt hne, rfl⟩
  · exact unexpected hc

theorem punct (hc : c.In m ts) (p : Punct) :
    Places m ts c.rest.length (Parser.punct p) c (fun t _ => t = c.current) :=
  take hc (by simp)

theorem keyword (hc : c.In m ts) (w : Keyword) :
    Places m ts c.rest.length (Parser.keyword w) c (fun t _ => t = c.current) :=
  take hc (by simp)

theorem identifier (hc : c.In m ts) :
    Places m ts c.rest.length Parser.identifier c (fun t _ => t = c.current) :=
  take hc (by simp)

theorem endOfInput (hc : c.In m ts) :
    Places m ts (c.rest.length + 1) Parser.endOfInput c (fun _ _ => True) := by
  refine peek ?_
  split
  · exact Ensures.pure ⟨hc.advance, Nat.lt_succ_of_le Cursor.Of.length_advance_le, trivial⟩
  · exact unexpected hc

theorem accept (hc : c.In m ts) (kind : TokenKind) :
    Places m ts (c.rest.length + 1) (Parser.accept kind) c (fun _ _ => True) := by
  refine peek ?_
  split
  · exact Ensures.pure ⟨hc.advance, Nat.lt_succ_of_le Cursor.Of.length_advance_le, trivial⟩
  · exact pure hc (by omega) trivial

/-- Specifiers that cannot be combined are blamed together, and missing ones at the token in their
place. -/
theorem specifiers (hc : c.In m ts) :
    Places m ts c.rest.length Parser.specifiers c (fun _ _ => True) := by
  refine peek (get (set (spanFrom ?_)))
  by_cases h : c.current.isSpecifier
  · have hlt := hc.length_passSpecifiers_lt h
    split
    · exact pure hc.passSpecifiers hlt trivial
    · exact fail (hc.covers_taken hc.passSpecifiers hlt)
  · rw [Bool.not_eq_true] at h
    obtain ⟨hrun, hrest⟩ := Cursor.takeWhile_of_not_isSpecifier h
    rw [hrun, hrest]
    exact Ensures.run_throw (hc.missesType h)

/-! ## Repetition -/

/-- Each round takes a token, so that what a round reads places its errors and the loop does too. -/
theorem manyUntil (stop : Punct) {element : Parser α} {q : α → Prop}
    (he : ∀ c', c'.In m ts → Places m ts c'.rest.length element c' (fun x _ => q x)) :
    ∀ (bound : Nat) (c : Cursor), c.In m ts →
      Places m ts (c.rest.length + 1) (Parser.manyUntil stop element bound) c
        (fun xs _ => ∀ x ∈ xs, q x) := by
  intro bound
  induction bound with
  | zero => exact fun c hc => endless hc
  | succ bound ih =>
      intro c hc
      rw [Parser.manyUntil]
      refine peek ?_
      split
      · exact pure hc (by omega) (by simp)
      split
      · exact unexpected hc
      · refine (he c hc).bind fun x c₁ hc₁ h₁ hx => ?_
        refine (ih c₁ hc₁).bind fun xs c₂ hc₂ h₂ hxs => ?_
        exact pure hc₂ (by omega) (by simpa using ⟨hx, hxs⟩)

theorem manyUntilEnd {element : Parser α} {q : α → Prop}
    (he : ∀ c', c'.In m ts → Places m ts c'.rest.length element c' (fun x _ => q x)) :
    ∀ (bound : Nat) (c : Cursor), c.In m ts →
      Places m ts (c.rest.length + 1) (Parser.manyUntilEnd element bound) c
        (fun xs _ => ∀ x ∈ xs, q x) := by
  intro bound
  induction bound with
  | zero => exact fun c hc => endless hc
  | succ bound ih =>
      intro c hc
      rw [Parser.manyUntilEnd]
      refine peek ?_
      split
      · exact pure hc (by omega) (by simp)
      · refine (he c hc).bind fun x c₁ hc₁ h₁ hx => ?_
        refine (ih c₁ hc₁).bind fun xs c₂ hc₂ h₂ hxs => ?_
        exact pure hc₂ (by omega) (by simpa using ⟨hx, hxs⟩)

/-- A separator may stand before the end of the list, in which case the loop stops in front of
`stop`. -/
theorem separatedUntil (stop : Punct) {element : Parser α} {q : α → Prop}
    (he : ∀ c', c'.In m ts → Places m ts c'.rest.length element c' (fun x _ => q x)) :
    ∀ (bound : Nat) (c : Cursor), c.In m ts →
      Places m ts (c.rest.length + 1) (Parser.separatedUntil stop element bound) c
        (fun xs _ => ∀ x ∈ xs, q x) := by
  intro bound
  induction bound with
  | zero => exact fun c hc => endless hc
  | succ bound ih =>
      intro c hc
      rw [Parser.separatedUntil]
      refine peek ?_
      split
      · exact pure hc (by omega) (by simp)
      split
      · exact unexpected hc
      · refine (he c hc).bind fun x c₁ hc₁ h₁ hx => ?_
        refine (accept hc₁ _).bind fun more c₂ hc₂ h₂ _ => ?_
        split
        · refine (ih c₂ hc₂).bind fun xs c₃ hc₃ h₃ hxs => ?_
          exact pure hc₃ (by omega) (by simpa using ⟨hx, hxs⟩)
        · exact pure hc₂ (by omega) (by simpa using hx)

end Places

end Parser

end IntegerC
