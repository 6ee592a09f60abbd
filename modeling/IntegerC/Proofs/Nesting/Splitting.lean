import IntegerC.Proofs.Grammar.Lexemes
import IntegerC.Proofs.Nesting.Nodes

set_option autoImplicit false

/-! # Splitting a piece of a text

`Splits fresh cs behind ls` says that the characters `cs`, in front of `behind`, split into the
lexemes `ls`, of which the last one ends where they do. Of what stands behind only the first
character matters, and any of the `separators` will do there. So the piece of a text from one of its
tokens to another, `exists_of_tokens`, splits into the same lexemes wherever a separator follows it:
`Splits.before`.
-/

namespace IntegerC

open Text

/-! ## Pieces of a text -/

/-- The characters `gap`, in front of `behind`, are passed over. -/
inductive Passed : Bool → List Char → List Char → Prop
  | nil {fresh : Bool} {behind : List Char} : Passed fresh [] behind
  | cons {fresh : Bool} {c : Char} {more gap behind : List Char}
      (h : Piece.at fresh c (more ++ (gap ++ behind)) = .gap more.length)
      (hgap : Passed ((c :: more).foldl freshAfter fresh) gap behind) :
      Passed fresh (c :: (more ++ gap)) behind

/-- The characters split into the lexemes in front of `behind`. Behind a token the line is no longer
fresh. -/
inductive Splits : Bool → List Char → List Char → List Lexeme → Prop
  | nil {fresh : Bool} {behind : List Char} : Splits fresh [] behind []
  | token {fresh : Bool} {gap more cs behind : List Char} {c : Char} {kind : TokenKind}
      {ls : List Lexeme} (hgap : Passed fresh gap (c :: (more ++ (cs ++ behind))))
      (h : Piece.at (gap.foldl freshAfter fresh) c (more ++ (cs ++ behind)) =
        .token kind more.length)
      (hcs : Splits false cs behind ls) :
      Splits fresh (gap ++ c :: (more ++ cs)) behind (⟨kind, String.ofList (c :: more)⟩ :: ls)

/-! ## Fresh lines -/

theorem freshAfter_eq_false {c : Char} (h : isBlank c = false) (fresh : Bool) :
    freshAfter fresh c = false := by
  have hline : c ≠ '\n' := fun e => by rw [e] at h; cases h
  have hindent : isIndent c = false := by
    cases hc : isIndent c with
    | false => rfl
    | true => rw [isBlank_of_isIndent hc] at h; cases h
  simp [freshAfter, hline, hindent]

/-- Behind characters that are no blanks, more than indentation stands on the line. -/
theorem foldl_freshAfter_eq_false (cs : List Char) : ∀ {c : Char} (fresh : Bool),
    (∀ d ∈ c :: cs, isBlank d = false) → (c :: cs).foldl freshAfter fresh = false := by
  induction cs with
  | nil => exact fun fresh h => freshAfter_eq_false (h _ List.mem_cons_self) fresh
  | cons d cs ih =>
      intro c fresh h
      rw [List.foldl_cons]
      exact ih _ (List.forall_mem_cons.1 h).2

/-- No blank is part of a token. -/
theorem TokenKind.Spells.not_blank {kind : TokenKind} {text : String} (h : kind.Spells text) :
    ∀ c ∈ text.toList, isBlank c = false := by
  cases kind with
  | keyword k =>
      obtain rfl : text = k.text := h
      obtain ⟨c, cs, hword, hc, hcs⟩ := k.word
      rw [hword]
      exact List.forall_mem_cons.2 ⟨isBlank_of_isWordChar (isWordChar_of_first hc),
        fun d hd => isBlank_of_isWordChar (hcs d hd)⟩
  | punct p =>
      obtain rfl : text = p.text := h
      rw [Punct.text, String.toList_ofList]
      exact fun c hc => (p.of_mem_chars c hc).1
  | constant s =>
      obtain ⟨digits, letters, htext, -, hdigits, hletters⟩ := h
      rw [htext]
      refine List.forall_mem_append.2 ⟨fun c hc => isBlank_of_isWordChar ?_,
        fun c hc => isBlank_of_isWordChar (isWordChar_of_mem_spelling hletters c hc)⟩
      simp [isWordChar, hdigits c hc]
  | identifier => exact fun c hc => isBlank_of_isWordChar (IsIdentifier.plain h c hc)
  | endOfInput =>
      obtain rfl : text = "" := h
      simp

/-- Behind a token the line is no longer fresh. -/
theorem freshAfter_token {fresh fresh' : Bool} {c : Char} {more behind : List Char}
    {kind : TokenKind} (h : Piece.at fresh c (more ++ behind) = .token kind more.length) :
    (c :: more).foldl freshAfter fresh' = false := by
  refine foldl_freshAfter_eq_false more fresh' fun d hd => ?_
  refine (Piece.at_eq_token_iff.1 h).2.1.not_blank d ?_
  rwa [String.toList_ofList]

theorem Piece.at_token_refresh {fresh fresh' : Bool} {c : Char} {more behind : List Char}
    {kind : TokenKind} (h : Piece.at fresh c (more ++ behind) = .token kind more.length) :
    Piece.at fresh' c (more ++ behind) = .token kind more.length :=
  Piece.at_eq_token_iff.2 (Piece.at_eq_token_iff.1 h)

/-! ## What stands behind -/

/-- How far a class of characters goes is seen from the next character alone. -/
theorem length_takeWhile_append {p : Char → Bool} {behind behind' : List Char}
    (hhead : behind'.head? = behind.head?) (cs : List Char) :
    ((cs ++ behind).takeWhile p).length = cs.length →
      ((cs ++ behind').takeWhile p).length = cs.length := by
  induction cs with
  | nil =>
      cases behind with
      | nil => simp [List.head?_eq_none_iff.1 hhead]
      | cons d behind =>
          obtain ⟨rest, rfl⟩ := List.head?_eq_some_iff.1 hhead
          cases hp : p d <;> simp [hp]
  | cons c cs ih =>
      cases hp : p c with
      | false => simp [hp]
      | true => simpa [hp] using ih

/-- A comment ends at its first `*/`. -/
theorem commentLength?_cons (c : Char) (cs : List Char) : commentLength? (c :: cs) =
    if c = '*' ∧ cs.head? = some '/' then some 2 else (commentLength? cs).map (· + 1) := by
  split
  · rename_i h
    obtain ⟨rfl, hhead⟩ := h
    obtain ⟨rest, rfl⟩ := List.head?_eq_some_iff.1 hhead
    rfl
  · rename_i h
    rw [commentLength?]
    rintro rest rfl rfl
    exact h ⟨rfl, rfl⟩

/-- A comment that is closed is closed whatever stands behind it. -/
theorem commentLength?_append {behind : List Char} (behind' cs : List Char) : ∀ {n : Nat},
    commentLength? (cs ++ behind) = some n → n ≤ cs.length →
      commentLength? (cs ++ behind') = some n := by
  have htwo : ∀ {ds : List Char} {n : Nat}, commentLength? ds = some n → 2 ≤ n := by
    intro ds n h
    obtain ⟨_, _, _, rfl, _⟩ := commentLength?_eq_some h
    omega
  induction cs with
  | nil =>
      intro n h hn
      have hge := htwo h
      exact absurd hge (by simp at hn; omega)
  | cons c cs ih =>
      intro n h hn
      have hge := htwo h
      obtain ⟨d, cs, rfl⟩ := List.exists_cons_of_ne_nil
        (show cs ≠ [] from fun e => by subst e; simp at hn; omega)
      have hhead : (d :: cs ++ behind').head? = (d :: cs ++ behind).head? := rfl
      rw [List.cons_append, commentLength?_cons] at h ⊢
      rw [hhead]
      split at h
      · rename_i hclosed
        rw [if_pos hclosed]
        exact h
      · rename_i hopen
        rw [if_neg hopen]
        obtain ⟨k, hk, rfl⟩ := Option.map_eq_some_iff.1 h
        rw [ih hk (by simpa using hn)]
        rfl

/-- What is passed over is passed over in front of anything that begins with the same character. -/
theorem Piece.at_gap_of_head {fresh : Bool} {c : Char} {more behind behind' : List Char}
    (h : Piece.at fresh c (more ++ behind) = .gap more.length)
    (hhead : behind'.head? = behind.head?) :
    Piece.at fresh c (more ++ behind') = .gap more.length := by
  -- the scanner looks at one character behind the piece at most
  have hheads : (more ++ behind').head? = (more ++ behind).head? := by
    rw [List.head?_append, List.head?_append, hhead]
  unfold Piece.at at h ⊢
  rw [hheads]
  split at h
  · rename_i hblank
    rw [if_pos hblank, h]
  split at h
  · rename_i hblank hline
    rw [if_neg hblank, if_pos hline]
    exact congrArg Piece.gap (length_takeWhile_append hhead more (Piece.gap.inj h))
  split at h
  · rename_i hblank hline hopen
    rw [if_neg hblank, if_neg hline, if_pos hopen]
    split at h
    · rename_i n hn
      have hlength := Piece.gap.inj h
      obtain ⟨d, more, rfl⟩ := List.exists_cons_of_length_eq_add_one hlength.symm
      rw [List.length_cons, Nat.add_right_cancel_iff] at hlength
      rw [List.cons_append, List.tail_cons] at hn ⊢
      rw [commentLength?_append behind' more hn (Nat.le_of_eq hlength), List.length_cons, hlength]
    · cases h
  split at h
  · cases h
  split at h
  · split at h <;> cases h
  · split at h <;> cases h

/-- Whether a gap is passed over depends on the first character behind it alone. -/
theorem Passed.of_head {fresh : Bool} {gap behind behind' : List Char}
    (h : Passed fresh gap behind) (hhead : behind'.head? = behind.head?) :
    Passed fresh gap behind' := by
  induction h with
  | nil => exact .nil
  | cons h _ ih =>
      refine .cons (Piece.at_gap_of_head h ?_) (ih hhead)
      rw [List.head?_append, List.head?_append, hhead]

/-- Gaps one behind the other make one gap. -/
theorem Passed.append {fresh : Bool} {gap gap' behind : List Char}
    (h : Passed fresh gap (gap' ++ behind))
    (h' : Passed (gap.foldl freshAfter fresh) gap' behind) :
    Passed fresh (gap ++ gap') behind := by
  generalize hbehind : gap' ++ behind = rest at h
  induction h with
  | nil => exact h'
  | @cons fresh c more gap _ h _ ih =>
      subst hbehind
      rw [List.cons_append, List.append_assoc]
      refine .cons (by rwa [List.append_assoc]) (ih ?_ rfl)
      rwa [← List.foldl_append]

/-- In front of a separator the characters split as they do anywhere else. -/
theorem Splits.before {fresh : Bool} {cs behind behind' : List Char} {ls : List Lexeme}
    (h : Splits fresh cs behind ls) (hbehind : ∀ d ∈ behind'.head?, d ∈ separators) :
    Splits fresh cs behind' ls := by
  induction h with
  | nil => exact .nil
  | @token fresh gap more cs behind c kind ls hgap h _ ih =>
      obtain ⟨hkind, hspells, hends⟩ := Piece.at_eq_token_iff.1 h
      refine .token (hgap.of_head rfl) (Piece.at_of_spells hkind hspells ?_) ih
      cases cs with
      | nil =>
          exact TokenKind.endsBefore_of_head hkind
            fun d hd => endsTokens_of_mem_separators (hbehind d hd)
      | cons d cs => exact hends.of_head rfl

namespace Splits

variable {cs rest behind : List Char} {ls rs : List Lexeme}

theorem spells {fresh : Bool} (h : Splits fresh cs behind ls) :
    ∀ l ∈ ls, l.kind.Spells l.text := by
  induction h with
  | nil => exact nofun
  | token _ h _ ih => exact List.forall_mem_cons.2 ⟨(Piece.at_eq_token_iff.1 h).2.1, ih⟩

/-- The lexemes of two texts go behind each other, where the first text is split in front of the
second. -/
theorem append {fresh : Bool} {behind' : List Char} (h : Splits fresh cs behind' ls)
    (hbehind : behind' = rest ++ behind) (hrest : ∀ fresh, Splits fresh rest behind rs) :
    Splits fresh (cs ++ rest) behind (ls ++ rs) := by
  induction h with
  | nil => exact hrest _
  | @token fresh gap more cs _ c kind ls hgap h _ ih =>
      subst hbehind
      have hsplit := Splits.token (by simpa using hgap) (by simpa using h) (ih rfl)
      simpa using hsplit

theorem gap {fresh : Bool} {gap : List Char} (hgap : Passed fresh gap (cs ++ behind))
    (h : ∀ fresh, Splits fresh cs behind ls) (hls : ls ≠ []) :
    Splits fresh (gap ++ cs) behind ls := by
  cases h (gap.foldl freshAfter fresh) with
  | nil => exact absurd rfl hls
  | @token _ gap' more cs _ c kind ls hgap' hat hcs =>
      rw [← List.append_assoc]
      exact .token (.append (by simpa using hgap) hgap') (by rwa [List.foldl_append]) hcs

/-- A blank in front of the first token is passed over. -/
theorem blank (h : ∀ fresh, Splits fresh cs behind ls) (hls : ls ≠ []) (fresh : Bool) :
    Splits fresh (' ' :: cs) behind ls := by
  have hblank : Passed fresh (' ' :: ([] ++ [])) (cs ++ behind) := .cons rfl .nil
  exact gap hblank h hls

/-- A spelling of a lexeme in front of characters that do not continue it. -/
theorem lexeme {l : Lexeme} (hkind : l.kind ≠ .endOfInput) (hl : l.kind.Spells l.text)
    (hends : l.kind.EndsBefore (cs ++ behind)) (h : Splits false cs behind ls) (fresh : Bool) :
    Splits fresh (l.text.toList ++ cs) behind (l :: ls) := by
  obtain ⟨c, more, htext⟩ := List.exists_cons_of_ne_nil
    fun hnil => hl.text_ne hkind (String.toList_eq_nil_iff.1 hnil)
  have hlexeme : l = ⟨l.kind, String.ofList (c :: more)⟩ := by
    rw [← htext, String.ofList_toList]
  rw [htext, hlexeme]
  rw [← String.ofList_toList (s := l.text), htext] at hl
  exact .token .nil (Piece.at_of_spells hkind hl hends) h

theorem spelled {l : Lexeme} (hl : l.Spelled) (hends : ∀ d ∈ (cs ++ behind).head?, d ∈ separators)
    (h : Splits false cs behind ls) (fresh : Bool) :
    Splits fresh (l.text.toList ++ cs) behind (l :: ls) := by
  have hends' := TokenKind.endsBefore_of_head hl.ne_endOfInput
    fun d hd => endsTokens_of_mem_separators (hends d hd)
  exact lexeme hl.ne_endOfInput hl.spells hends' h fresh

theorem parens (k : Nat) (h : ∀ fresh, Splits fresh cs behind ls) : ∀ fresh,
    Splits fresh (List.replicate k '(' ++ cs) behind
      (List.replicate k (.punct .leftParen) ++ ls) := by
  induction k with
  | zero => exact h
  | succ k ih =>
      exact .lexeme (l := .punct .leftParen) nofun rfl (TokenKind.endsBefore_leftParen _) (ih _)

end Splits

/-! ## The walk -/

theorem scan_piece (m : LineMap) (c : Char) (more rest : List Char) (start : Nat) (fresh : Bool) :
    scan m (start + units c) (freshAfter fresh c) more.length (more ++ rest) =
      scan m (start + unitsOf (c :: more)) ((c :: more).foldl freshAfter fresh) 0 rest := by
  rw [scan_append, unitsOf_cons, Nat.add_assoc, List.foldl_cons]

/-- A gap yields no token; the scanner goes on behind it at the next place. -/
theorem scan_passed {m : LineMap} {fresh : Bool} {gap behind : List Char}
    (h : Passed fresh gap behind) : ∀ start : Nat, scan m start fresh 0 (gap ++ behind) =
      scan m (start + unitsOf gap) (gap.foldl freshAfter fresh) 0 behind := by
  induction h with
  | nil => exact fun _ => rfl
  | @cons fresh c more gap behind h _ ih =>
      intro start
      rw [List.cons_append, List.append_assoc, scan, h]
      show scan m _ _ more.length _ = _
      rw [scan_piece, ih]
      simp only [List.foldl_cons, List.foldl_append, unitsOf_cons, unitsOf_append, Nat.add_assoc]

/-- Characters that split into lexemes are read as them. -/
theorem Splits.succeeds_scan {m : LineMap} {fresh : Bool} {cs : List Char} {ls : List Lexeme}
    (h : Splits fresh cs [] ls) : ∀ start : Nat, Succeeds (scan m start fresh 0 cs) fun ts =>
      ∃ us last, ts = us ++ [last] ∧ EndsOnce us last ∧ us.map Token.lexeme = ls := by
  generalize hbehind : ([] : List Char) = behind at h
  induction h with
  | nil => exact fun start => ⟨[], _, rfl, ⟨rfl, nofun⟩, rfl⟩
  | @token fresh gap more cs _ c kind ls hgap h _ ih =>
      intro start
      subst hbehind
      rw [List.append_nil] at hgap h
      rw [scan_passed hgap, scan, h]
      show Succeeds ((scan m _ _ more.length (more ++ cs)).map _) _
      rw [scan_piece, freshAfter_token h]
      refine .map ((ih rfl _).imp ?_)
      rintro _ ⟨us, last, rfl, hends, hus⟩
      refine ⟨_ :: us, last, rfl, ⟨hends.kind, List.forall_mem_cons.2 ⟨?_, hends.once⟩⟩, ?_⟩
      · exact (Piece.at_eq_token_iff.1 h).1
      · rw [List.map_cons, hus, Token.lexeme, List.take_left]

/-- A text that splits into lexemes is read as them. -/
theorem Splits.succeeds_tokens {text : String} {ls : List Lexeme}
    (h : Splits true text.toList [] ls) : Succeeds (tokens text) fun ts =>
      ∃ us last, ts = us ++ [last] ∧ EndsOnce us last ∧ us.map Token.lexeme = ls :=
  h.succeeds_scan 0

/-- In front of the first token stands something to pass over. -/
theorem exists_of_scan_cons {m : LineMap} {t : Token} {ts : List Token}
    (ht : t.kind ≠ .endOfInput) (cs : List Char) : ∀ (before : List Char) (fresh : Bool),
    scan m (unitsOf before) fresh 0 cs = .ok (t :: ts) → ∃ gap c more behind,
      cs = gap ++ c :: (more ++ behind) ∧ Passed fresh gap (c :: (more ++ behind)) ∧
      (∀ fresh, Piece.at fresh c (more ++ behind) = .token t.kind more.length) ∧
      t.text = String.ofList (c :: more) ∧
      t.span = m.span ↑(unitsOf (before ++ gap)) ↑(unitsOf (before ++ gap ++ c :: more)) ∧
      scan m (unitsOf (before ++ gap ++ c :: more)) false 0 behind = .ok ts := by
  -- on the length of the rest, since a gap takes several characters at once
  induction hn : cs.length using Nat.strongRecOn generalizing cs with
  | ind n ih =>
      subst hn
      intro before fresh h
      cases cs with
      | nil =>
          rw [scan] at h
          cases h
          exact absurd rfl ht
      | cons c cs =>
          rw [scan] at h
          split at h
          · cases h
          · rename_i k hat
            have hstart : AtLineStart [] := ⟨[], [], rfl, .inl rfl, by simp⟩
            obtain ⟨more, rest, rfl, rfl, -⟩ := skipped_of_at_eq_gap (fun _ => hstart) hat
            rw [scan_piece, ← unitsOf_append] at h
            obtain ⟨gap, d, ds, behind, rfl, hgap, htoken, htext, hspan, hrest⟩ :=
              ih rest.length (by rw [List.length_cons, List.length_append]; omega) rest rfl _ _ h
            exact ⟨c :: (more ++ gap), d, ds, behind, by simp, .cons hat hgap, htoken, htext,
              by simpa using hspan, by simpa using hrest⟩
          · rename_i kind k hat
            obtain ⟨-, more, behind, rfl, rfl, -⟩ := of_at_eq_token hat
            obtain ⟨us, hus, htoken⟩ := map_eq_ok.1 h
            obtain ⟨rfl, rfl⟩ := List.cons.inj htoken
            rw [scan_piece, ← unitsOf_append, freshAfter_token hat] at hus
            refine ⟨[], c, more, behind, rfl, .nil, fun _ => Piece.at_token_refresh hat, ?_, ?_,
              by rwa [List.append_nil]⟩
            · rw [List.take_left]
            · rw [List.take_left, List.append_nil, unitsOf_append]

/-- The characters from the first to the last of some tokens split into their lexemes. -/
theorem exists_of_scan_append {m : LineMap} {ts : List Token} (us : List Token) :
    ∀ {u : Token} {cs before : List Char} {fresh : Bool},
    scan m (unitsOf before) fresh 0 cs = .ok (u :: (us ++ ts)) →
    (∀ t ∈ u :: us, t.kind ≠ .endOfInput) → ∃ gap piece behind,
      cs = gap ++ (piece ++ behind) ∧ Passed fresh gap (piece ++ behind) ∧
      (∀ fresh, Splits fresh piece behind ((u :: us).map Token.lexeme)) ∧
      hull (u :: us) = m.span ↑(unitsOf (before ++ gap)) ↑(unitsOf (before ++ gap ++ piece)) ∧
      scan m (unitsOf (before ++ gap ++ piece)) false 0 behind = .ok ts := by
  induction us with
  | nil =>
      intro u cs before fresh h hkinds
      obtain ⟨gap, c, more, behind, rfl, hgap, hat, htext, hspan, hrest⟩ :=
        exists_of_scan_cons (hkinds u List.mem_cons_self) cs before fresh h
      refine ⟨gap, c :: more, behind, rfl, hgap, fun fresh => ?_, hspan, hrest⟩
      have hsplits : Splits fresh ([] ++ c :: (more ++ [])) behind _ :=
        .token .nil (hat fresh) .nil
      simpa [Token.lexeme, htext] using hsplits
  | cons w us ih =>
      intro u cs before fresh h hkinds
      obtain ⟨hu, hkinds⟩ := List.forall_mem_cons.1 hkinds
      obtain ⟨gap, c, more, rest, rfl, hgap, hat, htext, hspan, hrest⟩ :=
        exists_of_scan_cons hu cs before fresh h
      obtain ⟨gap', piece, behind, rfl, hgap', hsplits, hhull, hscan⟩ := ih hrest hkinds
      refine ⟨gap, c :: (more ++ (gap' ++ piece)), behind, by simp, by simpa using hgap,
        fun fresh => ?_, ?_, by simpa using hscan⟩
      -- a blank may stand between the first token and the others, but not in front of it
      · rw [List.map_cons, Token.lexeme, htext]
        exact .token .nil (by simpa using hat fresh) (.gap hgap' hsplits (by simp))
      · have hends : hull (u :: w :: us) = ⟨u.span.start, (hull (w :: us)).stop⟩ := rfl
        rw [hends, hspan, hhull]
        simp [LineMap.span]

/-- The piece of a text from the first to the last of some of its tokens splits into their
lexemes. -/
theorem exists_of_tokens {text : String} {front vs back : List Token}
    (h : tokens text = .ok (front ++ (vs ++ back)))
    (hkinds : ∀ u ∈ front ++ vs, u.kind ≠ .endOfInput) (hne : vs ≠ []) :
    ∃ before piece behind, text.toList = before ++ (piece ++ behind) ∧
      (hull vs).start.offset = unitsOf before ∧
      (hull vs).stop.offset = unitsOf (before ++ piece) ∧
      ∀ fresh, Splits fresh piece behind (vs.map Token.lexeme) := by
  obtain ⟨hfront, hvs⟩ := List.forall_mem_append.1 hkinds
  have hskip : ∃ before rest fresh, text.toList = before ++ rest ∧
      scan (.ofChars text.toList) (unitsOf before) fresh 0 rest = .ok (vs ++ back) := by
    cases front with
    | nil => exact ⟨[], _, true, rfl, h⟩
    | cons u us =>
        have hscan : scan (.ofChars text.toList) (unitsOf []) true 0 text.toList =
            .ok (u :: (us ++ (vs ++ back))) := h
        obtain ⟨gap, piece, behind, htext, -, -, -, hrest⟩ := exists_of_scan_append us hscan hfront
        exact ⟨gap ++ piece, behind, false, by rw [htext, List.append_assoc], hrest⟩
  obtain ⟨before, rest, fresh, htext, hrest⟩ := hskip
  obtain ⟨v, vs, rfl⟩ := List.exists_cons_of_ne_nil hne
  obtain ⟨gap, piece, behind, rfl, -, hsplits, hhull, -⟩ := exists_of_scan_append vs hrest hvs
  have hbefore : text.toList = before ++ gap ++ (piece ++ behind) := by
    rw [htext, List.append_assoc]
  have hpiece : text.toList = before ++ gap ++ piece ++ behind := by
    rw [hbefore, List.append_assoc _ piece]
  rw [hhull]
  exact ⟨before ++ gap, piece, behind, hbefore, LineMap.offset_position hbefore,
    LineMap.offset_position hpiece, hsplits⟩

end IntegerC
