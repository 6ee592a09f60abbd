import IntegerC.Proofs.Grammar.Soundness

set_option autoImplicit false

/-! # Parsers that accept

`Accepts` says that a parser succeeds from a cursor; its rules follow the steps of a parser, given
the lexemes that are left. `Recognizes` says that it reads given lexemes up to spans, in front of
tokens of certain kinds.
-/

namespace IntegerC

/-! ## Specifiers -/

def TokenKind.isSpecifier : TokenKind → Bool
  | .keyword k => k.isTypeWord || k.storage?.isSome
  | _ => false

theorem Token.isSpecifier_eq (t : Token) : t.isSpecifier = t.kind.isSpecifier := by
  unfold Token.isSpecifier Token.specifier? TokenKind.isSpecifier
  cases t.kind with
  | keyword k => cases k <;> rfl
  | _ => rfl

/-- No type is named without a word. -/
theorem Specifiers.Derives.exists_cons {ls : List Lexeme} {s : Specifiers} (h : s.Derives ls) :
    ∃ l rest, ls = l :: rest ∧ l.kind.isSpecifier = true := by
  obtain ⟨words, hkinds, hs⟩ := h
  obtain ⟨w, hw, -⟩ := hs.type_word
  cases ls with
  | nil =>
      rw [List.map_nil, List.nil_eq, List.map_eq_nil_iff] at hkinds
      rw [hkinds] at hw
      cases hw
  | cons l rest =>
      refine ⟨l, rest, rfl, ?_⟩
      cases words with
      | nil => cases hw
      | cons k ks =>
          rw [(List.cons.inj hkinds).1]
          simpa [TokenKind.isSpecifier] using hs.each k List.mem_cons_self
/-! ## Cursors -/

namespace Cursor

variable {c : Cursor} {l : Lexeme} {ls : List Lexeme}

theorem current_of_lexemes (h : c.lexemes = l :: ls) : c.current.lexeme = l := by
  obtain ⟨t, ts, hrest, ht, -⟩ := List.map_eq_cons_iff.1 h
  rw [current, hrest]
  exact ht

theorem lexemes_advance (h : c.lexemes = l :: ls) : c.advance.lexemes = ls := by
  obtain ⟨t, ts, hrest, -, hts⟩ := List.map_eq_cons_iff.1 h
  rw [lexemes, advance, hrest]
  exact hts

end Cursor

/-- Tokens with the kinds of specifiers are specifiers. -/
theorem Token.specifiers_of_kinds {ts : List Token} {words : List Keyword}
    (h : (ts.map Token.lexeme).map Lexeme.kind = words.map .keyword)
    (heach : ∀ w ∈ words, w.isTypeWord ∨ w.storage?.isSome) :
    (∀ t ∈ ts, t.isSpecifier = true) ∧ ts.filterMap Token.specifier? = words := by
  induction ts generalizing words with
  | nil =>
      rw [List.map_nil, List.map_nil, List.nil_eq, List.map_eq_nil_iff] at h
      simp [h]
  | cons t ts ih =>
      obtain ⟨w, ws, rfl, hw, hws⟩ := List.map_eq_cons_iff.1 h.symm
      obtain ⟨hword, heach⟩ := List.forall_mem_cons.1 heach
      obtain ⟨hts, hrest⟩ := ih hws.symm heach
      have ht : t.specifier? = some w := Token.specifier?_eq_some.2 ⟨hw.symm, hword⟩
      refine ⟨List.forall_mem_cons.2 ⟨by rw [isSpecifier, ht]; rfl, hts⟩, ?_⟩
      rw [List.filterMap_cons_some ht, hrest]

namespace Parser

variable {α β : Type} {c : Cursor} {ok : α → Cursor → Prop} {ok' : β → Cursor → Prop}
  {l : Lexeme} {ls : List Lexeme}

/-- The parser answers something, and `ok` holds of the answer and of the cursor behind it. -/
def Accepts (p : Parser α) (c : Cursor) (ok : α → Cursor → Prop) : Prop :=
  Succeeds (p.run c) fun o => ok o.1 o.2

namespace Accepts

/-! ## Steps -/

theorem pure {a : α} (h : ok a c) : Accepts (Pure.pure a) c ok := h

theorem bind {p : Parser α} {g : α → Parser β} (h : Accepts p c ok)
    (hg : ∀ a c', ok a c' → Accepts (g a) c' ok') : Accepts (p >>= g) c ok' :=
  Ensures.run_bind h fun a c' => hg a c'

theorem imp {p : Parser α} {ok₁ : α → Cursor → Prop} (h : Accepts p c ok₁)
    (hok : ∀ a c', ok₁ a c' → ok a c') : Accepts p c ok :=
  Ensures.imp h fun o => hok o.1 o.2

theorem map {p : Parser α} {g : α → β} (h : Accepts p c fun a => ok' (g a)) :
    Accepts (g <$> p) c ok' :=
  Ensures.run_map h

theorem spanFrom {g : Span → Parser β} {first : Span} (hg : ∀ q, Accepts (g q) c ok') :
    Accepts (Parser.spanFrom first >>= g) c ok' :=
  hg _

theorem get {g : Cursor → Parser β} (h : Accepts (g c) c ok') :
    Accepts (MonadState.get >>= g) c ok' := h

theorem set {g : PUnit → Parser β} {c' : Cursor} (h : Accepts (g ⟨⟩) c' ok') :
    Accepts (MonadStateOf.set c' >>= g) c ok' := h

theorem look {g : Token → Parser β} (h : Accepts (g c.current) c ok') :
    Accepts (Parser.peek >>= g) c ok' := h

theorem peek {g : Token → Parser β} (h : c.lexemes = l :: ls)
    (hg : ∀ t : Token, t.kind = l.kind → t.text = l.text → Accepts (g t) c ok') :
    Accepts (Parser.peek >>= g) c ok' := by
  have htoken := Cursor.current_of_lexemes h
  exact hg c.current (congrArg Lexeme.kind htoken) (congrArg Lexeme.text htoken)

theorem next {g : Token → Parser β} (h : c.lexemes = l :: ls)
    (hg : ∀ (t : Token) (c' : Cursor), t.text = l.text → c'.lexemes = ls → Accepts (g t) c' ok') :
    Accepts (Parser.next >>= g) c ok' :=
  hg c.current c.advance (congrArg Lexeme.text (Cursor.current_of_lexemes h))
    (Cursor.lexemes_advance h)

/-- A token of the kind that is asked for is taken. -/
theorem take {kind : TokenKind} {wanted : Expectation} {g : Token → Parser β}
    (h : c.lexemes = l :: ls) (hl : l.kind = kind)
    (hg : ∀ (t : Token) (c' : Cursor), t.text = l.text → c'.lexemes = ls → Accepts (g t) c' ok') :
    Accepts
      ((do if (← Parser.peek).kind = kind then Parser.next else Parser.unexpected wanted) >>= g)
      c ok' := by
  have hnext : Accepts Parser.next c fun t c' => t.text = l.text ∧ c'.lexemes = ls :=
    ⟨congrArg Lexeme.text (Cursor.current_of_lexemes h), Cursor.lexemes_advance h⟩
  have htake : Accepts
      (do if (← Parser.peek).kind = kind then Parser.next else Parser.unexpected wanted) c
      fun t c' => t.text = l.text ∧ c'.lexemes = ls := by
    refine peek h fun t hk _ => ?_
    rw [if_pos (hk.trans hl)]
    exact hnext
  exact htake.bind fun t c' h => hg t c' h.1 h.2

theorem punct {p : Punct} {g : Token → Parser β} (h : c.lexemes = l :: ls)
    (hl : l.kind = .punct p)
    (hg : ∀ (t : Token) (c' : Cursor), c'.lexemes = ls → Accepts (g t) c' ok') :
    Accepts (Parser.punct p >>= g) c ok' :=
  take h hl fun t c' _ => hg t c'

theorem keyword {k : Keyword} {g : Token → Parser β} (h : c.lexemes = l :: ls)
    (hl : l.kind = .keyword k)
    (hg : ∀ (t : Token) (c' : Cursor), c'.lexemes = ls → Accepts (g t) c' ok') :
    Accepts (Parser.keyword k >>= g) c ok' :=
  take h hl fun t c' _ => hg t c'

theorem identifier {g : Token → Parser β} (h : c.lexemes = l :: ls) (hl : l.kind = .identifier)
    (hg : ∀ (t : Token) (c' : Cursor), t.text = l.text → c'.lexemes = ls → Accepts (g t) c' ok') :
    Accepts (Parser.identifier >>= g) c ok' :=
  take h hl hg

/-- Both ways on are given, with the token and without it. -/
theorem accept {kind : TokenKind} {g : Bool → Parser β} (h : c.lexemes = l :: ls)
    (hyes : l.kind = kind → ∀ c' : Cursor, c'.lexemes = ls → Accepts (g true) c' ok')
    (hno : l.kind ≠ kind → Accepts (g false) c ok') : Accepts (Parser.accept kind >>= g) c ok' := by
  have haccept : Accepts (Parser.accept kind) c fun taken c' =>
      (l.kind = kind ∧ taken = true ∧ c'.lexemes = ls) ∨
        (l.kind ≠ kind ∧ taken = false ∧ c' = c) := by
    refine peek h fun t hkind _ => ?_
    split
    · rename_i hk
      exact next h fun _ c' _ hc' => pure (.inl ⟨hkind ▸ hk, rfl, hc'⟩)
    · rename_i hk
      exact pure (.inr ⟨hkind ▸ hk, rfl, rfl⟩)
  refine haccept.bind fun taken c' h => ?_
  rcases h with ⟨hk, rfl, hc'⟩ | ⟨hk, rfl, rfl⟩
  · exact hyes hk c' hc'
  · exact hno hk

/-! ## Specifiers -/

/-- A run of specifiers is read as a whole, since what stands behind it is no specifier. -/
theorem specifiers {ws : List Lexeme} {s : Specifiers} {g : Specifiers → Parser β}
    (h : c.lexemes = ws ++ l :: ls) (hs : s.Derives ws) (hl : l.kind.isSpecifier = false)
    (hg : ∀ c' : Cursor, c'.lexemes = l :: ls → Accepts (g s) c' ok') :
    Accepts (Parser.specifiers >>= g) c ok' := by
  obtain ⟨words, hkinds, hnamed⟩ := hs
  obtain ⟨run, rest, hrest, rfl, htail⟩ := List.map_eq_append_iff.1 h
  obtain ⟨t, ts, rfl, ht, hts⟩ := List.map_eq_cons_iff.1 htail
  obtain ⟨hrun, hwords⟩ := Token.specifiers_of_kinds hkinds hnamed.each
  have hstop : t.isSpecifier = false := by
    rw [Token.isSpecifier_eq, show t.kind = l.kind from congrArg Lexeme.kind ht, hl]
  have htake : c.rest.takeWhile Token.isSpecifier = run := by
    rw [hrest, List.takeWhile_append_of_pos hrun, List.takeWhile_cons, if_neg (by simp [hstop]),
      List.append_nil]
  have hdrop : c.rest.dropWhile Token.isSpecifier = t :: ts := by
    rw [hrest, List.dropWhile_append_of_pos hrun, List.dropWhile_cons, if_neg (by simp [hstop])]
  have hbehind : c.passSpecifiers.2.lexemes = l :: ls := by
    show (c.rest.dropWhile Token.isSpecifier).map Token.lexeme = l :: ls
    rw [hdrop, List.map_cons, ht, hts]
  have hspecifiers : Accepts Parser.specifiers c fun s' c' => s' = s ∧ c'.lexemes = l :: ls := by
    refine look (get (set (spanFrom fun q => ?_)))
    rw [htake, hwords, (Specifiers.ofWords_eq_ok_iff hnamed.each).2 hnamed]
    exact pure ⟨rfl, hbehind⟩
  refine hspecifiers.bind fun s' c' h => ?_
  obtain ⟨hs', hc'⟩ := h
  rw [hs']
  exact hg c' hc'

end Accepts

/-! ## Repetition -/

variable {f : α → β} {element : Parser α} {n : Nat} {lax : Bool}

/-- From wherever at most `n` lexemes are left, `p` reads the lexemes `ls` in front of one of a kind
with `next`, and what it answers is `a` up to what `f` leaves out. -/
def Recognizes (f : α → β) (p : Parser α) (n : Nat) (next : TokenKind → Prop) (ls : List Lexeme)
    (a : α) : Prop :=
  ∀ (c : Cursor) (l : Lexeme) (rest : List Lexeme), c.lexemes.length ≤ n →
    c.lexemes = ls ++ l :: rest → next l.kind →
      Accepts p c fun a' c' => f a' = f a ∧ c'.lexemes = l :: rest

/-- A list that begins with a lexeme of a kind with `first`. -/
def Begins (first : TokenKind → Prop) (ls : List Lexeme) : Prop :=
  ∃ l rest, ls = l :: rest ∧ first l.kind

/-- A list with commas is read up to `stop` if each piece is read in front of a comma or of `stop`.
A comma at the end is read too, which is what `lax` allows. -/
theorem accepts_separatedUntil {stop : Punct} (hstop : stop ≠ .comma)
    {pieces : List (List Lexeme × α)} {ls : List Lexeme}
    (hls : Separated lax (pieces.map Prod.fst) ls)
    (he : ∀ x ∈ pieces,
      Recognizes f element n (fun k => k = .punct .comma ∨ k = .punct stop) x.1 x.2)
    (hbegins : ∀ x ∈ pieces, Begins (fun k => k ≠ .punct stop ∧ k ≠ .endOfInput) x.1)
    {bound : Nat} {c : Cursor} {l : Lexeme} {rest : List Lexeme} (hn : c.lexemes.length ≤ n)
    (hbound : c.lexemes.length < bound) (hc : c.lexemes = ls ++ l :: rest)
    (hl : l.kind = .punct stop) :
    Accepts (separatedUntil stop element bound) c fun as c' =>
      as.map f = (pieces.map Prod.snd).map f ∧ c'.lexemes = l :: rest := by
  induction pieces generalizing ls bound c with
  | nil =>
      obtain ⟨bound, rfl⟩ : ∃ b, bound = b + 1 := ⟨bound - 1, by omega⟩
      cases hls
      rw [separatedUntil]
      refine .peek hc fun t hk _ => ?_
      rw [if_pos (hk.trans hl)]
      exact .pure ⟨rfl, hc⟩
  | cons x pieces ih =>
      obtain ⟨bound, rfl⟩ : ∃ b, bound = b + 1 := ⟨bound - 1, by omega⟩
      obtain ⟨hx, hpieces⟩ := List.forall_mem_cons.1 he
      obtain ⟨⟨first, ls', hcons, hne, hne'⟩, hbegins⟩ := List.forall_mem_cons.1 hbegins
      -- whatever stands behind the element, it is read first
      have hread : ∀ (u : Lexeme) (us : List Lexeme), c.lexemes = x.1 ++ u :: us →
          u.kind = .punct .comma ∨ u.kind = .punct stop →
          (∀ a c', f a = f x.2 → c'.lexemes = u :: us → Accepts (do
            if ← accept (.punct .comma) then return a :: (← separatedUntil stop element bound)
            else return [a]) c' fun as c' =>
              as.map f = ((x :: pieces).map Prod.snd).map f ∧ c'.lexemes = l :: rest) →
          Accepts (separatedUntil stop element (bound + 1)) c fun as c' =>
            as.map f = ((x :: pieces).map Prod.snd).map f ∧ c'.lexemes = l :: rest := by
        intro u us hc hu hrest
        rw [separatedUntil]
        refine .peek (hc.trans (by rw [hcons]; rfl)) fun t hk _ => ?_
        rw [if_neg (hk ▸ hne), if_neg (hk ▸ hne')]
        exact (hx c u us hn hc hu).bind fun a c' h => hrest a c' h.1 h.2
      have hlength : x.1.length ≠ 0 := by simp [hcons]
      rw [List.map_cons] at hls
      generalize htail : pieces.map Prod.fst = tail at hls
      cases hls with
      | single =>
          obtain rfl := List.map_eq_nil_iff.1 htail
          refine hread l rest hc (.inr hl) fun a c' ha hc' => ?_
          refine .accept hc' (fun h => ?_) fun _ => .pure ⟨?_, hc'⟩
          · rw [hl] at h
            exact absurd (TokenKind.punct.inj h) hstop
          · rw [List.map_singleton, ha]
            rfl
      | @cons _ rest' _ comma hcomma _ hrest =>
          subst htail
          rw [List.append_assoc] at hc
          refine hread comma _ hc (.inl hcomma) fun a c' ha hc' => ?_
          refine .accept hc' (fun _ c₂ hc₂ => ?_) fun h => absurd hcomma h
          have hlen : c₂.lexemes.length < c.lexemes.length := by
            rw [hc₂, hc]
            simp
            omega
          refine (ih hrest hpieces hbegins (by omega) (by omega) hc₂).bind fun as c₃ h => .pure ?_
          exact ⟨by rw [List.map_cons, List.map_cons, List.map_cons, ha, h.1], h.2⟩

/-- What stands in front of `l` begins as a piece does, or is `l`. -/
theorem exists_cons_flatten {next : TokenKind → Prop} {pieces : List (List Lexeme × α)}
    (hbegins : ∀ x ∈ pieces, Begins next x.1) {l : Lexeme} (hl : next l.kind)
    (rest : List Lexeme) :
    ∃ u us, (pieces.map Prod.fst).flatten ++ l :: rest = u :: us ∧ next u.kind := by
  cases pieces with
  | nil => exact ⟨l, rest, rfl, hl⟩
  | cons x pieces =>
      obtain ⟨u, us, hx, hu⟩ := hbegins x List.mem_cons_self
      exact ⟨u, _, by rw [List.map_cons, List.flatten_cons, hx]; rfl, hu⟩

/-- Pieces without separators are read up to `stop` if each of them may stand in front of what the
next one begins with. -/
theorem accepts_manyUntil {stop : Punct} {next : TokenKind → Prop}
    {pieces : List (List Lexeme × α)}
    (he : ∀ x ∈ pieces, Recognizes f element n next x.1 x.2)
    (hbegins : ∀ x ∈ pieces, Begins (fun k => k ≠ .punct stop ∧ k ≠ .endOfInput) x.1)
    (hnext : ∀ x ∈ pieces, Begins next x.1) (hstop : next (.punct stop))
    {bound : Nat} {c : Cursor} {l : Lexeme} {rest : List Lexeme} (hn : c.lexemes.length ≤ n)
    (hbound : c.lexemes.length < bound)
    (hc : c.lexemes = (pieces.map Prod.fst).flatten ++ l :: rest) (hl : l.kind = .punct stop) :
    Accepts (manyUntil stop element bound) c fun as c' =>
      as.map f = (pieces.map Prod.snd).map f ∧ c'.lexemes = l :: rest := by
  induction pieces generalizing bound c with
  | nil =>
      obtain ⟨bound, rfl⟩ : ∃ b, bound = b + 1 := ⟨bound - 1, by omega⟩
      rw [manyUntil]
      refine .peek hc fun t hk _ => ?_
      rw [if_pos (hk.trans hl)]
      exact .pure ⟨rfl, hc⟩
  | cons x pieces ih =>
      obtain ⟨bound, rfl⟩ : ∃ b, bound = b + 1 := ⟨bound - 1, by omega⟩
      obtain ⟨hx, hpieces⟩ := List.forall_mem_cons.1 he
      obtain ⟨⟨first, ls, hcons, hne, hne'⟩, hbegins⟩ := List.forall_mem_cons.1 hbegins
      have hnext := (List.forall_mem_cons.1 hnext).2
      rw [List.map_cons, List.flatten_cons, List.append_assoc] at hc
      obtain ⟨u, us, hu, hunext⟩ := exists_cons_flatten hnext (hl ▸ hstop) rest
      rw [manyUntil]
      refine .peek (hc.trans (by rw [hcons]; rfl)) fun t hk _ => ?_
      rw [if_neg (hk ▸ hne), if_neg (hk ▸ hne')]
      refine (hx c u us hn (hu ▸ hc) hunext).bind fun a c' h => ?_
      obtain ⟨ha, hc'⟩ := h
      -- a piece has a token at least, so the bound is still larger than the rest
      have hlen : c'.lexemes.length < c.lexemes.length := by
        rw [hc', hc, hu, hcons]
        simp only [List.length_append, List.length_cons]
        omega
      refine (ih hpieces hbegins hnext (by omega) (by omega) (hc'.trans hu.symm)).bind
        fun as c₂ h => .pure ⟨?_, h.2⟩
      rw [List.map_cons, List.map_cons, List.map_cons, ha, h.1]

/-- The same up to the end of the input. -/
theorem accepts_manyUntilEnd {pieces : List (List Lexeme × α)}
    (he : ∀ x ∈ pieces, Recognizes f element n (fun _ => True) x.1 x.2)
    (hbegins : ∀ x ∈ pieces, Begins (fun k => k ≠ .endOfInput) x.1)
    {bound : Nat} {c : Cursor} {l : Lexeme} {rest : List Lexeme} (hn : c.lexemes.length ≤ n)
    (hbound : c.lexemes.length < bound)
    (hc : c.lexemes = (pieces.map Prod.fst).flatten ++ l :: rest) (hl : l.kind = .endOfInput) :
    Accepts (manyUntilEnd element bound) c fun as c' =>
      as.map f = (pieces.map Prod.snd).map f ∧ c'.lexemes = l :: rest := by
  induction pieces generalizing bound c with
  | nil =>
      obtain ⟨bound, rfl⟩ : ∃ b, bound = b + 1 := ⟨bound - 1, by omega⟩
      rw [manyUntilEnd]
      refine .peek hc fun t hk _ => ?_
      rw [if_pos (hk.trans hl)]
      exact .pure ⟨rfl, hc⟩
  | cons x pieces ih =>
      obtain ⟨bound, rfl⟩ : ∃ b, bound = b + 1 := ⟨bound - 1, by omega⟩
      obtain ⟨hx, hpieces⟩ := List.forall_mem_cons.1 he
      obtain ⟨⟨first, ls, hcons, hne⟩, hbegins⟩ := List.forall_mem_cons.1 hbegins
      rw [List.map_cons, List.flatten_cons, List.append_assoc] at hc
      obtain ⟨u, us, hu⟩ : ∃ u us, (pieces.map Prod.fst).flatten ++ l :: rest = u :: us :=
        List.exists_cons_of_ne_nil (by simp)
      rw [manyUntilEnd]
      refine .peek (hc.trans (by rw [hcons]; rfl)) fun t hk _ => ?_
      rw [if_neg (hk ▸ hne)]
      refine (hx c u us hn (hu ▸ hc) trivial).bind fun a c' h => ?_
      obtain ⟨ha, hc'⟩ := h
      -- a piece has a token at least, so the bound is still larger than the rest
      have hlen : c'.lexemes.length < c.lexemes.length := by
        rw [hc', hc, hu, hcons]
        simp only [List.length_append, List.length_cons]
        omega
      refine (ih hpieces hbegins (by omega) (by omega) (hc'.trans hu.symm)).bind
        fun as c₂ h => .pure ⟨?_, h.2⟩
      rw [List.map_cons, List.map_cons, List.map_cons, ha, h.1]

end Parser

end IntegerC
