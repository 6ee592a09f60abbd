import IntegerC.Proofs.Grammar.Lexemes

set_option autoImplicit false

/-! # Lexemes with blanks between them

Lexemes written one behind the other, with blanks between each two, are a text that splits into them
again, each at the place where it was written. Whatever the lexemes are, one blank keeps them apart:
no operator grows by it, no slash begins a comment in front of it and no number takes a word in.
-/

namespace IntegerC

open Text

/-! ## Gaps of blanks -/

/-- The text in which each lexeme stands behind its gap, and `behind` after all of them. -/
def spaced (behind : List Char) : List (List Char × Lexeme) → List Char
  | [] => behind
  | (gap, l) :: ps => gap ++ (l.text.toList ++ spaced behind ps)

/-- The lexemes of such a text, which begins at offset `start`, with the offsets at which each of
them begins and ends. -/
def places (start : Nat) : List (List Char × Lexeme) → List (Lexeme × Nat × Nat)
  | [] => []
  | (gap, l) :: ps =>
      (l, start + unitsOf gap, start + unitsOf gap + unitsOf l.text.toList) ::
        places (start + unitsOf gap + unitsOf l.text.toList) ps

theorem map_fst_places (ps : List (List Char × Lexeme)) : ∀ start,
    (places start ps).map Prod.fst = ps.map Prod.snd := by
  induction ps with
  | nil => exact fun _ => rfl
  | cons p ps ih => exact fun start => congrArg (p.2 :: ·) (ih _)

/-- Lexemes whose texts are of the classes of their kinds, with gaps of blanks of which at most the
first is empty. -/
structure Spacing (ps : List (List Char × Lexeme)) : Prop where
  ne_endOfInput : ∀ p ∈ ps, p.2.kind ≠ .endOfInput
  spells : ∀ p ∈ ps, p.2.kind.Spells p.2.text
  blank : ∀ p ∈ ps, ∀ c ∈ p.1, isBlank c = true
  apart : ∀ p ∈ ps.tail, p.1 ≠ []

def Token.placed (t : Token) : Lexeme × Nat × Nat :=
  (t.lexeme, t.span.start.offset, t.span.stop.offset)

theorem lexemes_of_placed {ts : List Token} {ps : List (List Char × Lexeme)} {start : Nat}
    (h : ts.map Token.placed = places start ps) : ts.map Token.lexeme = ps.map Prod.snd := by
  rw [← map_fst_places ps start, ← h, List.map_map]
  rfl

section

variable {behind : List Char} {ps : List (List Char × Lexeme)}

theorem Spacing.tail {gap : List Char} {l : Lexeme} (h : Spacing ((gap, l) :: ps)) :
    Spacing ps where
  ne_endOfInput p hp := h.ne_endOfInput p (List.mem_cons_of_mem _ hp)
  spells p hp := h.spells p (List.mem_cons_of_mem _ hp)
  blank p hp := h.blank p (List.mem_cons_of_mem _ hp)
  apart p hp := h.apart p (List.mem_of_mem_tail hp)

/-- Behind a lexeme stands a blank or nothing. -/
theorem Spacing.isBlank_head {gap : List Char} {l : Lexeme} (h : Spacing ((gap, l) :: ps))
    (hbehind : ∀ c ∈ behind, isBlank c = true) :
    ∀ d ∈ (spaced behind ps).head?, isBlank d = true := by
  intro d hd
  cases ps with
  | nil => exact hbehind d (List.mem_of_mem_head? hd)
  | cons p ps =>
      obtain ⟨gap', l'⟩ := p
      obtain ⟨c, cs, rfl⟩ := List.exists_cons_of_ne_nil (h.apart _ List.mem_cons_self)
      obtain rfl : c = d := Option.some.inj hd
      exact h.blank _ (List.mem_cons_of_mem _ List.mem_cons_self) c List.mem_cons_self

/-- Blanks are passed over, whatever stands behind them. -/
theorem scan_blanks (m : LineMap) (rest : List Char) {gap : List Char}
    (h : ∀ c ∈ gap, isBlank c = true) : ∀ (start : Nat) (fresh : Bool),
    scan m start fresh 0 (gap ++ rest) =
      scan m (start + unitsOf gap) (gap.foldl freshAfter fresh) 0 rest := by
  induction gap with
  | nil => exact fun _ _ => rfl
  | cons c gap ih =>
      intro start fresh
      obtain ⟨hc, hgap⟩ := List.forall_mem_cons.1 h
      have hat : Piece.at fresh c (gap ++ rest) = .gap 0 := if_pos hc
      rw [List.cons_append, scan, hat]
      show scan m _ _ 0 _ = _
      rw [ih hgap, unitsOf_cons, Nat.add_assoc, List.foldl_cons]

/-- A lexeme in front of something that does not continue it is the next token. -/
theorem scan_lexeme (m : LineMap) {l : Lexeme} {rest : List Char} (hkind : l.kind ≠ .endOfInput)
    (hspells : l.kind.Spells l.text) (hends : l.kind.EndsBefore rest) (start : Nat) (fresh : Bool) :
    scan m start fresh 0 (l.text.toList ++ rest) =
      (scan m (start + unitsOf l.text.toList) (l.text.toList.foldl freshAfter fresh) 0 rest).map
        (⟨l.kind, l.text, m.span ↑start ↑(start + unitsOf l.text.toList)⟩ :: ·) := by
  obtain ⟨c, more, hchars⟩ := List.exists_cons_of_ne_nil
    fun hnil => hspells.text_ne hkind (String.toList_eq_nil_iff.1 hnil)
  have htext : String.ofList (c :: more) = l.text := by rw [← hchars, String.ofList_toList]
  have hat : Piece.at fresh c (more ++ rest) = .token l.kind more.length :=
    Piece.at_of_spells hkind (htext ▸ hspells) hends
  rw [hchars, List.cons_append, scan, hat]
  show (scan m (start + units c) _ more.length (more ++ rest)).map _ = _
  rw [scan_append, List.take_left, htext, Nat.add_assoc, ← unitsOf_cons, List.foldl_cons]

/-- The rest of such a text, behind `before`, splits into its lexemes, each at its place. -/
theorem scan_spaced {text : List Char} (hbehind : ∀ c ∈ behind, isBlank c = true)
    (ps : List (List Char × Lexeme)) : ∀ (before : List Char) (fresh : Bool), Spacing ps →
    text = before ++ spaced behind ps → ∃ ts,
      scan (.ofChars text) (unitsOf before) fresh 0 (spaced behind ps) =
        .ok (ts ++ [.endAt ((LineMap.ofChars text).position ↑(unitsOf text))]) ∧
      ts.map Token.placed = places (unitsOf before) ps := by
  induction ps with
  | nil =>
      intro before fresh h htext
      have hscan := scan_blanks (.ofChars text) [] hbehind (unitsOf before) fresh
      rw [List.append_nil, ← unitsOf_append] at hscan
      refine ⟨[], ?_, rfl⟩
      rw [spaced, hscan, scan, htext]
      rfl
  | cons p ps ih =>
      intro before fresh h htext
      obtain ⟨gap, l⟩ := p
      have hkind := h.ne_endOfInput _ List.mem_cons_self
      have hspells := h.spells _ List.mem_cons_self
      -- what follows a lexeme is not part of it
      have hends := TokenKind.endsBefore_of_head hkind
        fun d hd => endsTokens_of_isBlank (h.isBlank_head hbehind d hd)
      have hfirst : text = before ++ gap ++ (l.text.toList ++ spaced behind ps) := by
        simpa [spaced] using htext
      have hlast : text = before ++ gap ++ l.text.toList ++ spaced behind ps := by
        simpa using hfirst
      obtain ⟨ts, hts, hplaces⟩ := ih _ (l.text.toList.foldl freshAfter
        (gap.foldl freshAfter fresh)) h.tail hlast
      rw [unitsOf_append, unitsOf_append] at hts hplaces
      refine ⟨⟨l.kind, l.text, (LineMap.ofChars text).span ↑(unitsOf before + unitsOf gap)
        ↑(unitsOf before + unitsOf gap + unitsOf l.text.toList)⟩ :: ts, ?_, ?_⟩
      · rw [spaced, scan_blanks _ _ (h.blank _ List.mem_cons_self), scan_lexeme _ hkind hspells hends,
          hts]
        rfl
      · have hstart := LineMap.offset_position hfirst
        have hstop := LineMap.offset_position hlast
        rw [unitsOf_append] at hstart
        rw [unitsOf_append, unitsOf_append] at hstop
        rw [List.map_cons, hplaces, places]
        exact congrArg (· :: _) (congrArg (l, ·) (Prod.ext hstart hstop))

end

/-- Lexemes with blanks between them are read again, each where it was written, and nothing but the
end of the input behind them. -/
theorem tokens_spaced {behind : List Char} {ps : List (List Char × Lexeme)} (h : Spacing ps)
    (hbehind : ∀ c ∈ behind, isBlank c = true) :
    ∃ ts, tokens (String.ofList (spaced behind ps)) = .ok (ts ++ [.endAt
        ((LineMap.ofChars (spaced behind ps)).position ↑(unitsOf (spaced behind ps)))]) ∧
      ts.map Token.placed = places 0 ps := by
  obtain ⟨ts, hts, hplaces⟩ := scan_spaced hbehind ps [] true h rfl
  refine ⟨ts, ?_, hplaces⟩
  rw [tokens, String.toList_ofList]
  exact hts

/-- Lexemes of every kind behind gaps of every kind, with operators that would grow together. -/
def spacedLexemes : List (List Char × Lexeme) :=
  [([], .keyword .longKw), ([' ', '\t'], .identifier "long_"), (['\r', '\n'], .punct .assign),
    (['\n'], .punct .assign), (['\t'], ⟨.constant .unsignedLong, "00LU"⟩), ([' '], .punct .slash),
    (['\n', '\n'], .punct .slash), ([' '], .punct .star), (['\r'], ⟨.constant .long, "7l"⟩)]

theorem spacing_spacedLexemes : Spacing spacedLexemes := by
  have hword : IsIdentifier "long_" :=
    ⟨⟨'l', ['o', 'n', 'g', '_'], rfl, by decide, List.all_eq_true.1 (by decide)⟩, by decide⟩
  have hlarge : (TokenKind.constant .unsignedLong).Spells "00LU" :=
    ⟨['0', '0'], ['L', 'U'], rfl, nofun, List.all_eq_true.1 (by decide), by decide⟩
  have hlong : (TokenKind.constant .long).Spells "7l" :=
    ⟨['7'], ['l'], rfl, nofun, List.all_eq_true.1 (by decide), by decide⟩
  have hblank : ∀ p ∈ spacedLexemes, (p.1.all isBlank) = true := by decide
  refine ⟨by decide, ?_, fun p hp => List.all_eq_true.1 (hblank p hp), by decide⟩
  simp only [spacedLexemes, List.forall_mem_cons]
  exact ⟨rfl, hword, rfl, rfl, hlarge, rfl, rfl, rfl, hlong, nofun⟩

theorem tokens_spaced_spacedLexemes :
    spaced [' ', '\n'] spacedLexemes = "long \tlong_\r\n=\n=\t00LU /\n\n/ *\r7l \n".toList ∧
    Spacing spacedLexemes ∧
    ∃ ts last, tokens (String.ofList (spaced [' ', '\n'] spacedLexemes)) = .ok (ts ++ [last]) ∧
      last.kind = .endOfInput ∧ ts.map Token.lexeme = spacedLexemes.map Prod.snd ∧
      ts.map (fun t => t.span.start.offset) = [0, 6, 13, 15, 17, 22, 25, 27, 29] := by
  obtain ⟨ts, hts, hplaces⟩ :=
    tokens_spaced spacing_spacedLexemes (List.all_eq_true.1 (show [' ', '\n'].all isBlank = true by decide))
  refine ⟨String.toList_ofList.symm, spacing_spacedLexemes, ts, _, hts, rfl,
    lexemes_of_placed hplaces, ?_⟩
  have hoffsets := congrArg (List.map fun p => p.2.1) hplaces
  rw [List.map_map] at hoffsets
  exact hoffsets.trans (by decide)

/-! ## One blank between each two -/

/-- The text of some lexemes, with a blank between each two. -/
def textOf (ls : List Lexeme) : String := " ".intercalate (ls.map Lexeme.text)

theorem toList_textOf (ls : List Lexeme) :
    (textOf ls).toList = [' '].intercalate (ls.map fun l => l.text.toList) := by
  rw [textOf, String.toList_intercalate, List.map_map]
  rfl

/-- Lexemes with no blank in front of the first, and one in front of each further one. -/
def singleSpaced : List Lexeme → List (List Char × Lexeme)
  | [] => []
  | l :: ls => ([], l) :: ls.map fun l => ([' '], l)

/-- Joining texts with blanks between them is the spacing without a first gap. -/
theorem intercalate_eq_spaced (ls : List Lexeme) :
    [' '].intercalate (ls.map fun l => l.text.toList) = spaced [] (singleSpaced ls) := by
  cases ls with
  | nil => rfl
  | cons l ls =>
      rw [singleSpaced, spaced, List.nil_append]
      induction ls generalizing l with
      | nil => simp [spaced]
      | cons l' ls ih =>
          have htail := ih l'
          rw [List.map_cons] at htail
          rw [List.map_cons, List.map_cons, List.intercalate_cons_cons, htail]
          simp [spaced]

theorem map_snd_singleSpaced (ls : List Lexeme) : (singleSpaced ls).map Prod.snd = ls := by
  cases ls <;> simp [singleSpaced, Function.comp_def]

/-- One blank between any two lexemes is spacing enough. -/
theorem spacing_singleSpaced {ls : List Lexeme} (h : ∀ l ∈ ls, l.Spelled) :
    Spacing (singleSpaced ls) := by
  have hmem : ∀ p ∈ singleSpaced ls, p.2.Spelled := by
    intro p hp
    refine h p.2 ?_
    rw [← map_snd_singleSpaced ls]
    exact List.mem_map_of_mem hp
  refine ⟨fun p hp => (hmem p hp).ne_endOfInput, fun p hp => (hmem p hp).spells, ?_, ?_⟩
  · cases ls <;> simp [singleSpaced, isBlank]
  · cases ls <;> simp [singleSpaced]

/-- The text of well spelled lexemes splits into them. -/
theorem tokens_textOf {ls : List Lexeme} (h : ∀ l ∈ ls, l.Spelled) :
    Succeeds (tokens (textOf ls)) fun ts =>
      ∃ ts' last, ts = ts' ++ [last] ∧ EndsOnce ts' last ∧ ts'.map Token.lexeme = ls := by
  obtain ⟨ts, hts, hplaces⟩ :=
    scan_spaced (List.forall_mem_nil _) _ [] true (spacing_singleSpaced h) rfl
  have hlexemes := lexemes_of_placed hplaces
  rw [map_snd_singleSpaced] at hlexemes
  rw [tokens, tokensOfChars, toList_textOf, intercalate_eq_spaced]
  refine hts ▸ ⟨ts, _, rfl, ⟨rfl, fun t ht => ?_⟩, hlexemes⟩
  have hmem : t.lexeme ∈ ls := hlexemes ▸ List.mem_map_of_mem ht
  exact (h _ hmem).ne_endOfInput

end IntegerC
