import IntegerC.Proofs.Lexing
import IntegerC.Syntax.Specifier

set_option autoImplicit false

/-! # What a parser ensures

`Reads m n p c ok` follows a parser through the tokens of a text with lines `m`. It says that a
fault points into the text, that a result has `ok`, and that the cursor is then in front of fewer
than `n` tokens. The count is what the bounds of the recursion are measured against.
-/

namespace IntegerC

/-! ## Cursors -/

/-- A cursor in the tokens of a text with lines `m`. -/
structure Cursor.Of (m : LineMap) (c : Cursor) : Prop where
  rest : ∀ t ∈ c.rest, t.Of m
  last : c.last.Of m
  ended : c.last.kind = .endOfInput

namespace Cursor.Of

variable {m : LineMap} {c : Cursor}

theorem current (hc : c.Of m) : c.current.Of m := by
  unfold Cursor.current
  cases h : c.rest with
  | nil => exact hc.last
  | cons t ts => exact hc.rest t (by simp [h])

/-- Only the end of the input is seen behind the end of the list. -/
theorem rest_ne_nil (hc : c.Of m) (h : c.current.kind ≠ .endOfInput) : c.rest ≠ [] := by
  intro e
  apply h
  simp only [Cursor.current, e, List.head?_nil, Option.getD_none]
  exact hc.ended

theorem advance (hc : c.Of m) : c.advance.Of m where
  rest := by
    intro t ht
    apply hc.rest t
    unfold Cursor.advance at ht
    cases h : c.rest with
    | nil => simp [h] at ht
    | cons u us =>
        rw [h] at ht
        exact List.mem_cons_of_mem _ ht
  last := by rw [Cursor.last_advance]; exact hc.last
  ended := by rw [Cursor.last_advance]; exact hc.ended

theorem length_advance_le : c.advance.rest.length ≤ c.rest.length := by
  rw [Cursor.length_rest_advance]
  omega

theorem length_advance_lt (hc : c.Of m) (h : c.current.kind ≠ .endOfInput) :
    c.advance.rest.length < c.rest.length := by
  have := List.length_pos_iff.2 (hc.rest_ne_nil h)
  rw [Cursor.length_rest_advance]
  omega

theorem passSpecifiers (hc : c.Of m) : c.passSpecifiers.2.Of m where
  rest := fun t ht => hc.rest t ((List.dropWhile_sublist _).subset ht)
  last := hc.last
  ended := hc.ended

theorem length_passSpecifiers_le : c.passSpecifiers.2.rest.length ≤ c.rest.length :=
  (List.dropWhile_sublist _).length_le

end Cursor.Of

theorem Cursor.of_start {m : LineMap} {ts : List Token} (h : TokensOf m ts) :
    (Cursor.start ts).Of m := by
  obtain ⟨t, ht, hk⟩ := h.ended
  have e : (Cursor.start ts).last = t := by simp [Cursor.start, ht]
  refine ⟨h.each, ?_, ?_⟩
  · rw [e]
    exact h.each t (List.mem_of_getLast? ht)
  · rw [e, hk]

/-! ## Specifiers -/

/-- All faults of a list of specifiers are faults that a text can have. -/
theorem fromText_of_ofWords_eq_error {words : List Keyword} {cause : Cause}
    (h : Specifiers.ofWords words = .error cause) : cause.FromText := by
  have htype : ∀ ws cause, IntType.ofWords ws = .error cause → cause.FromText := by
    intro ws cause h
    unfold IntType.ofWords at h
    repeat' split at h
    all_goals cases h
    all_goals simp
  unfold Specifiers.ofWords at h
  cases ht : IntType.ofWords (words.filter Keyword.isTypeWord) with
  | error c =>
      rw [ht] at h
      cases h
      exact htype _ _ ht
  | ok t =>
      rw [ht] at h
      simp only [bind, Except.bind] at h
      split at h
      all_goals cases h
      decide

namespace Parser

variable {α β : Type} {m : LineMap} {n k : Nat} {c : Cursor} {ok : α → Prop} {ok' : β → Prop}

/-- Read from `c`, the parser `p` answers something with `ok` and leaves fewer than `n` tokens, or
it fails at a piece that begins in the text. -/
def Reads (m : LineMap) (n : Nat) (p : Parser α) (c : Cursor) (ok : α → Prop) : Prop :=
  Ensures (p.run c) (Fault.At m.Begins) fun r => ok r.1 ∧ r.2.Of m ∧ r.2.rest.length < n

namespace Reads

/-! ## Steps -/

theorem pure {a : α} (hc : c.Of m) (hn : c.rest.length < n) (ha : ok a) :
    Reads m n (Pure.pure a) c ok :=
  Ensures.run_pure ⟨ha, hc, hn⟩

theorem fail {cause : Cause} {s : Span} (hcause : cause.FromText) (hs : m.Begins s) :
    Reads m n (Parser.fail cause s : Parser α) c ok :=
  Ensures.run_throw (.of hcause hs)

theorem bind {p : Parser α} {g : α → Parser β} (h : Reads m k p c ok)
    (hg : ∀ a c', ok a → c'.Of m → c'.rest.length < k → Reads m n (g a) c' ok') :
    Reads m n (p >>= g) c ok' :=
  Ensures.run_bind h fun a c' ⟨ha, hc, hk⟩ => hg a c' ha hc hk

theorem map {p : Parser α} {g : α → β} (h : Reads m n p c (fun a => ok' (g a))) :
    Reads m n (g <$> p) c ok' :=
  Ensures.run_map h

theorem mono {p : Parser α} {ok₁ : α → Prop} (h : Reads m k p c ok₁) (hk : k ≤ n)
    (hok : ∀ a, ok₁ a → ok a) : Reads m n p c ok :=
  Ensures.imp h fun r ⟨ha, hc, hn⟩ => ⟨hok r.1 ha, hc, by omega⟩

theorem peek {g : Token → Parser β} (h : Reads m n (g c.current) c ok') :
    Reads m n (Parser.peek >>= g) c ok' := h

theorem unexpected {wanted : Expectation} (hc : c.Of m) :
    Reads m n (Parser.unexpected wanted : Parser α) c ok := by
  refine peek (fail ?_ hc.current.begins)
  simp

theorem get {g : Cursor → Parser β} (h : Reads m n (g c) c ok') :
    Reads m n (MonadState.get >>= g) c ok' := h

theorem set {g : PUnit → Parser β} {c' : Cursor} (h : Reads m n (g ⟨⟩) c' ok') :
    Reads m n (MonadStateOf.set c' >>= g) c ok' := h

/-- Taking a token other than the end of the input makes progress. -/
theorem next {g : Token → Parser β} (hc : c.Of m) (h : c.current.kind ≠ .endOfInput)
    (hg : ∀ c', c'.Of m → c'.rest.length < c.rest.length → Reads m n (g c.current) c' ok') :
    Reads m n (Parser.next >>= g) c ok' :=
  hg c.advance hc.advance (hc.length_advance_lt h)

/-- Taking any token does not move the cursor back. -/
theorem skip {g : Token → Parser β} (hc : c.Of m)
    (hg : ∀ c', c'.Of m → c'.rest.length ≤ c.rest.length → Reads m n (g c.current) c' ok') :
    Reads m n (Parser.next >>= g) c ok' :=
  hg c.advance hc.advance Cursor.Of.length_advance_le

theorem spanFrom {g : Span → Parser β} {first : Span} (hs : m.Begins first)
    (hg : ∀ s, m.Begins s → Reads m n (g s) c ok') :
    Reads m n (Parser.spanFrom first >>= g) c ok' :=
  hg _ hs

/-! ## Single tokens -/

theorem take {kind : TokenKind} {wanted : Expectation} (hc : c.Of m) (hk : kind ≠ .endOfInput) :
    Reads m c.rest.length
      (do if (← Parser.peek).kind = kind then Parser.next else Parser.unexpected wanted) c
      (fun t => t.Of m ∧ t.kind = kind) := by
  refine peek ?_
  split
  · rename_i h
    have hne : c.current.kind ≠ .endOfInput := by rw [h]; exact hk
    exact Ensures.pure ⟨⟨hc.current, h⟩, hc.advance, hc.length_advance_lt hne⟩
  · exact unexpected hc

theorem punct (hc : c.Of m) (p : Punct) :
    Reads m c.rest.length (Parser.punct p) c (fun t => t.Of m) :=
  (take hc (by simp)).mono (Nat.le_refl _) fun _ h => h.1

theorem keyword (hc : c.Of m) (w : Keyword) :
    Reads m c.rest.length (Parser.keyword w) c (fun t => t.Of m) :=
  (take hc (by simp)).mono (Nat.le_refl _) fun _ h => h.1

theorem identifier (hc : c.Of m) :
    Reads m c.rest.length Parser.identifier c (fun t => t.Of m ∧ Plain t.text) :=
  (take hc (by simp)).mono (Nat.le_refl _) fun _ h => ⟨h.1, h.1.plain h.2⟩

theorem endOfInput (hc : c.Of m) :
    Reads m (c.rest.length + 1) Parser.endOfInput c (fun t => t.Of m) := by
  refine peek ?_
  split
  · exact Ensures.pure ⟨hc.current, hc.advance, Nat.lt_succ_of_le Cursor.Of.length_advance_le⟩
  · exact unexpected hc

theorem accept (hc : c.Of m) (kind : TokenKind) :
    Reads m (c.rest.length + 1) (Parser.accept kind) c (fun _ => True) := by
  refine peek ?_
  split
  · exact Ensures.pure ⟨trivial, hc.advance, Nat.lt_succ_of_le Cursor.Of.length_advance_le⟩
  · exact pure hc (by omega) trivial

theorem specifiers (hc : c.Of m) :
    Reads m (c.rest.length + 1) Parser.specifiers c (fun _ => True) := by
  refine peek (get (set (spanFrom hc.current.begins fun s hs => ?_)))
  split
  · exact pure hc.passSpecifiers (Nat.lt_succ_of_le Cursor.Of.length_passSpecifiers_le) trivial
  · rename_i cause h
    exact fail (fromText_of_ofWords_eq_error h) hs

/-! ## Repetition -/

/-- Every element takes a token, so the bound is not reached. -/
theorem manyUntil (stop : Punct) {element : Parser α} (limit : Nat)
    (he : ∀ c', c'.Of m → c'.rest.length ≤ limit → Reads m c'.rest.length element c' ok) :
    ∀ (bound : Nat) (c : Cursor), c.Of m → c.rest.length ≤ limit → c.rest.length < bound →
      Reads m (c.rest.length + 1) (Parser.manyUntil stop element bound) c
        (fun xs => ∀ x ∈ xs, ok x) := by
  intro bound
  induction bound with
  | zero => intro c _ _ hb; omega
  | succ bound ih =>
      intro c hc hl hb
      rw [Parser.manyUntil]
      refine peek ?_
      split
      · exact pure hc (by omega) (by simp)
      split
      · exact unexpected hc
      · refine (he c hc hl).bind fun x c₁ hx hc₁ hlen => ?_
        refine (ih c₁ hc₁ (by omega) (by omega)).bind fun xs c₂ hxs hc₂ hlen₂ => ?_
        exact pure hc₂ (by omega) (by simpa using ⟨hx, hxs⟩)

theorem manyUntilEnd {element : Parser α} (limit : Nat)
    (he : ∀ c', c'.Of m → c'.rest.length ≤ limit → Reads m c'.rest.length element c' ok) :
    ∀ (bound : Nat) (c : Cursor), c.Of m → c.rest.length ≤ limit → c.rest.length < bound →
      Reads m (c.rest.length + 1) (Parser.manyUntilEnd element bound) c
        (fun xs => ∀ x ∈ xs, ok x) := by
  intro bound
  induction bound with
  | zero => intro c _ _ hb; omega
  | succ bound ih =>
      intro c hc hl hb
      rw [Parser.manyUntilEnd]
      refine peek ?_
      split
      · exact pure hc (by omega) (by simp)
      · refine (he c hc hl).bind fun x c₁ hx hc₁ hlen => ?_
        refine (ih c₁ hc₁ (by omega) (by omega)).bind fun xs c₂ hxs hc₂ hlen₂ => ?_
        exact pure hc₂ (by omega) (by simpa using ⟨hx, hxs⟩)

/-- The loop is bounded by the tokens that are left, since every round takes one. -/
theorem separatedUntil (stop : Punct) {element : Parser α} (limit : Nat)
    (he : ∀ c', c'.Of m → c'.rest.length ≤ limit → Reads m c'.rest.length element c' ok) :
    ∀ (bound : Nat) (c : Cursor), c.Of m → c.rest.length ≤ limit → c.rest.length < bound →
      Reads m (c.rest.length + 1) (Parser.separatedUntil stop element bound) c
        (fun xs => ∀ x ∈ xs, ok x) := by
  intro bound
  induction bound with
  | zero => intro c _ _ hb; omega
  | succ bound ih =>
      intro c hc hl hb
      rw [Parser.separatedUntil]
      refine peek ?_
      split
      · exact pure hc (by omega) (by simp)
      split
      · exact unexpected hc
      · refine (he c hc hl).bind fun x c₁ hx hc₁ hlen => ?_
        refine (accept hc₁ _).bind fun more c₂ _ hc₂ hlen₂ => ?_
        split
        · refine (ih c₂ hc₂ (by omega) (by omega)).bind fun xs c₃ hxs hc₃ hlen₃ => ?_
          exact pure hc₃ (by omega) (by simpa using ⟨hx, hxs⟩)
        · exact pure hc₂ (by omega) (by simpa using hx)

end Reads

end Parser

end IntegerC
