import IntegerC.Proofs.Lexing

set_option autoImplicit false

/-! # Tokens tile the text

A text that splits into tokens is made of their lexemes and of gaps between them. Gaps are blanks,
comments and line markers; a lexeme belongs to the class of its kind and is as long as it can be.
-/

namespace IntegerC

open Text

/-! ## Gaps -/

/-- Behind `before` only indentation has been seen on the line. -/
def AtLineStart (before : List Char) : Prop :=
  ∃ lines indent, before = lines ++ indent ∧ (lines = [] ∨ ∃ ls, lines = ls ++ ['\n']) ∧
    ∀ c ∈ indent, isIndent c = true

/-- The end of a line or of the text. -/
def EndsLine (behind : List Char) : Prop := ∀ c ∈ behind.head?, c = '\n'

/-- The characters of a blank, a comment or a line marker that stands behind `before` and in front of
`behind`. -/
inductive Skipped (before : List Char) : List Char → List Char → Prop
  | blank {c : Char} {behind : List Char} (h : isBlank c = true) : Skipped before [c] behind
  /-- the first `*/` closes a comment -/
  | comment {body behind : List Char} (h : ¬ ['*', '/'] <:+: body ++ ['*']) :
      Skipped before ('/' :: '*' :: (body ++ ['*', '/'])) behind
  | lineComment {body behind : List Char} (h : '\n' ∉ body) (hend : EndsLine behind) :
      Skipped before ('/' :: '/' :: body) behind
  | marker {body behind : List Char} (hstart : AtLineStart before) (h : '\n' ∉ body)
      (hend : EndsLine behind) : Skipped before ('#' :: body) behind

/-- Any number of blanks, comments and line markers between `before` and `behind`. -/
inductive Gap : List Char → List Char → List Char → Prop
  | nil {before behind : List Char} : Gap before [] behind
  | cons {before piece gap behind : List Char} (h : Skipped before piece (gap ++ behind))
      (hgap : Gap (before ++ piece) gap behind) : Gap before (piece ++ gap) behind

/-! ## Tiles -/

/-- The tokens behind `before` tile the rest of a text with lines `m`. -/
inductive Tiles (m : LineMap) : List Char → List Char → List Token → Prop
  | last {before gap : List Char} (hgap : Gap before gap []) :
      Tiles m before gap [.endAt (m.position ↑(unitsOf (before ++ gap)))]
  | token {before gap behind : List Char} {t : Token} {ts : List Token}
      (hgap : Gap before gap (t.text.toList ++ behind)) (hkind : t.kind ≠ .endOfInput)
      (hspells : t.kind.Spells t.text) (hmaximal : t.kind.Maximal behind)
      (hspan : t.span = m.span ↑(unitsOf (before ++ gap))
        ↑(unitsOf (before ++ gap ++ t.text.toList)))
      (h : Tiles m (before ++ gap ++ t.text.toList) behind ts) :
      Tiles m before (gap ++ (t.text.toList ++ behind)) (t :: ts)

/-! ## What is passed over -/

theorem endsLine_dropWhile (cs : List Char) : EndsLine (cs.dropWhile (· ≠ '\n')) := by
  intro c hc
  have h := List.head?_dropWhile_not (· ≠ '\n') cs
  rw [Option.mem_def.1 hc] at h
  simpa using h

theorem not_mem_takeWhile_line (cs : List Char) : '\n' ∉ cs.takeWhile (· ≠ '\n') :=
  fun h => by simpa using List.all_eq_true.1 List.all_takeWhile _ h

/-- A comment ends at the first `*/` behind its start. -/
theorem commentLength?_eq_some {cs : List Char} : ∀ {n : Nat}, commentLength? cs = some n →
    ∃ body behind, cs = body ++ '*' :: '/' :: behind ∧ n = body.length + 2 ∧
      ¬ ['*', '/'] <:+: body ++ ['*'] := by
  fun_induction commentLength? cs with
  | case1 cs =>
      rintro n ⟨⟩
      exact ⟨[], cs, rfl, rfl, by decide⟩
  | case2 c cs hne ih =>
      intro n h
      obtain ⟨k, hk, rfl⟩ := Option.map_eq_some_iff.1 h
      obtain ⟨body, behind, rfl, rfl, hbody⟩ := ih hk
      refine ⟨c :: body, behind, rfl, rfl, fun hinfix => ?_⟩
      rcases List.infix_cons_iff.1 hinfix with hprefix | hinfix
      · -- the characters do not begin with the end of the comment
        obtain ⟨rfl, hslash⟩ := List.cons_prefix_cons.1 hprefix
        cases body with
        | nil => cases (List.cons_prefix_cons.1 hslash).1
        | cons d body => exact hne _ rfl (congrArg (· :: _) (List.cons_prefix_cons.1 hslash).1.symm)
      · exact hbody hinfix
  | case3 => nofun

/-- What is passed over is a blank, a comment or a line marker. -/
theorem skipped_of_at_eq_gap {before : List Char} {fresh : Bool} {c : Char} {cs : List Char}
    {more : Nat} (hfresh : fresh = true → AtLineStart before)
    (h : Piece.at fresh c cs = .gap more) :
    ∃ piece behind, cs = piece ++ behind ∧ more = piece.length ∧
      Skipped before (c :: piece) behind := by
  unfold Piece.at at h
  split at h
  · rename_i hblank
    cases h
    exact ⟨[], cs, rfl, rfl, .blank hblank⟩
  split at h
  · rename_i hline
    cases h
    -- a comment or a marker goes up to the end of its line
    have hsplit : ∀ ds : List Char, ds = ds.takeWhile (· ≠ '\n') ++ ds.dropWhile (· ≠ '\n') :=
      fun ds => List.takeWhile_append_dropWhile.symm
    simp only [Bool.or_eq_true, Bool.and_eq_true, decide_eq_true_eq] at hline
    rcases hline with ⟨rfl, hhead⟩ | ⟨rfl, hf⟩
    · obtain ⟨ds, rfl⟩ := List.head?_eq_some_iff.1 hhead
      exact ⟨'/' :: ds.takeWhile (· ≠ '\n'), _, congrArg ('/' :: ·) (hsplit ds), rfl,
        .lineComment (not_mem_takeWhile_line ds) (endsLine_dropWhile ds)⟩
    · exact ⟨_, _, hsplit cs, rfl,
        .marker (hfresh hf) (not_mem_takeWhile_line cs) (endsLine_dropWhile cs)⟩
  split at h
  · rename_i hopen
    simp only [Bool.and_eq_true, decide_eq_true_eq] at hopen
    obtain ⟨rfl, hhead⟩ := hopen
    obtain ⟨ds, rfl⟩ := List.head?_eq_some_iff.1 hhead
    split at h
    · rename_i n hn
      cases h
      obtain ⟨body, behind, hds, rfl, hbody⟩ := commentLength?_eq_some hn
      obtain rfl : ds = body ++ '*' :: '/' :: behind := hds
      exact ⟨'*' :: (body ++ ['*', '/']), behind, by simp, by simp, .comment hbody⟩
    · cases h
  split at h
  · cases h
  split at h
  · split at h <;> cases h
  · split at h <;> cases h

/-! ## The walk -/

/-- A flag that is up behind a character tells of a line's beginning there as well. -/
theorem AtLineStart.step {before : List Char} {fresh : Bool} {c : Char}
    (h : fresh = true → AtLineStart before) (hc : freshAfter fresh c = true) :
    AtLineStart (before ++ [c]) := by
  simp only [freshAfter, Bool.or_eq_true, decide_eq_true_eq, Bool.and_eq_true] at hc
  rcases hc with rfl | ⟨hfresh, hc⟩
  · exact ⟨before ++ ['\n'], [], by simp, .inr ⟨before, rfl⟩, by simp⟩
  · obtain ⟨lines, indent, rfl, hlines, hindent⟩ := h hfresh
    refine ⟨lines, indent ++ [c], by simp, hlines, List.forall_mem_append.2 ⟨hindent, ?_⟩⟩
    exact List.forall_mem_singleton.2 hc

/-- The walk is fresh only at the beginning of a line, behind indentation. -/
theorem AtLineStart.run (piece : List Char) : ∀ {before : List Char} {fresh : Bool},
    (fresh = true → AtLineStart before) → piece.foldl freshAfter fresh = true →
      AtLineStart (before ++ piece) := by
  induction piece with
  | nil =>
      intro before fresh h hfresh
      simpa using h hfresh
  | cons c piece ih =>
      intro before fresh h hfresh
      simpa using ih (fun hc => step h hc) hfresh

/-- The characters that belong to a piece are passed over. -/
theorem scan_append (m : LineMap) (piece rest : List Char) : ∀ (start : Nat) (fresh : Bool),
    scan m start fresh piece.length (piece ++ rest) =
      scan m (start + unitsOf piece) (piece.foldl freshAfter fresh) 0 rest := by
  induction piece with
  | nil => exact fun _ _ => rfl
  | cons c piece ih =>
      intro start fresh
      rw [List.length_cons, List.cons_append, scan, ih, unitsOf_cons, Nat.add_assoc,
        List.foldl_cons]

section

variable {m : LineMap} {before behind : List Char} {ts : List Token}

/-- What is skipped becomes part of the gap in front of the next token. -/
theorem Tiles.skip {piece : List Char} (h : Skipped before piece behind)
    (hts : Tiles m (before ++ piece) behind ts) : Tiles m before (piece ++ behind) ts := by
  cases hts with
  | last hgap =>
      have hlast := Tiles.last (m := m) (.cons (by simpa using h) hgap)
      simpa only [List.append_assoc] using hlast
  | token hgap hkind hspells hmaximal hspan hts =>
      have htoken := Tiles.token (.cons h hgap) hkind hspells hmaximal
        (by simpa only [List.append_assoc] using hspan)
        (by simpa only [List.append_assoc] using hts)
      simpa only [List.append_assoc] using htoken

/-- A token without a gap in front tiles its own text, and the rest what is behind it. -/
theorem Tiles.front {lexeme : List Char} {t : Token} (htext : t.text.toList = lexeme)
    (hkind : t.kind ≠ .endOfInput) (hspells : t.kind.Spells t.text)
    (hmaximal : t.kind.Maximal behind)
    (hspan : t.span = m.span ↑(unitsOf before) ↑(unitsOf before + unitsOf lexeme))
    (h : Tiles m (before ++ lexeme) behind ts) : Tiles m before (lexeme ++ behind) (t :: ts) := by
  subst htext
  have hgap : Gap before [] (t.text.toList ++ behind) := .nil
  exact .token hgap hkind hspells hmaximal (by simpa [unitsOf_append] using hspan)
    (by simpa using h)

end

/-- The tokens of the rest of a text tile it. -/
theorem scan_tiles (m : LineMap) (cs : List Char) : ∀ (before : List Char) (fresh : Bool),
    (fresh = true → AtLineStart before) →
      Answers (scan m (unitsOf before) fresh 0 cs) (Tiles m before cs) := by
  -- on the length of the rest, since a piece takes several characters at once
  induction hn : cs.length using Nat.strongRecOn generalizing cs with
  | ind n ih =>
      subst hn
      intro before fresh hfresh
      cases cs with
      | nil =>
          have hgap : Gap before [] [] := .nil
          have hlast := Tiles.last (m := m) hgap
          rw [List.append_nil] at hlast
          exact .pure hlast
      | cons c cs =>
          have hunits : ∀ piece : List Char, unitsOf before + units c + unitsOf piece =
              unitsOf (before ++ c :: piece) := fun piece => by
            rw [unitsOf_append, unitsOf_cons, Nat.add_assoc]
          have hbehind : ∀ piece behind : List Char, cs = piece ++ behind →
              Answers (scan m (unitsOf before + units c) (freshAfter fresh c) piece.length cs)
                (Tiles m (before ++ c :: piece) behind) := by
            rintro piece behind rfl
            rw [scan_append, hunits]
            refine ih behind.length ?_ behind rfl _ _ (AtLineStart.run (c :: piece) hfresh)
            rw [List.length_cons, List.length_append]
            omega
          rw [scan]
          split
          · exact .error trivial
          · rename_i more h
            obtain ⟨piece, behind, hcs, rfl, hskipped⟩ := skipped_of_at_eq_gap hfresh h
            refine (hbehind piece behind hcs).imp fun ts hts => ?_
            rw [hcs]
            exact hts.skip hskipped
          · rename_i kind more h
            obtain ⟨hkind, rest, behind, hcs, rfl, hspells, hmaximal⟩ := of_at_eq_token h
            refine .map ((hbehind rest behind hcs).imp fun ts hts => ?_)
            rw [hcs, List.take_left]
            exact Tiles.front String.toList_ofList hkind hspells hmaximal rfl hts

/-! ## Slices -/

/-- The token is spelled as the text is between the ends of its span. -/
def Token.SliceOf (text : List Char) (t : Token) : Prop :=
  ∃ before behind, text = before ++ t.text.toList ++ behind ∧
    t.span.start.offset = unitsOf before ∧ t.span.stop.offset = unitsOf (before ++ t.text.toList)

theorem LineMap.offset_position {text before behind : List Char} (h : text = before ++ behind) :
    ((ofChars text).position ↑(unitsOf before)).offset = unitsOf before := by
  have hsize : (ofChars text).size = unitsOf before + unitsOf behind := by
    rw [ofChars, h, unitsOf_append]
  show min (Int.toNat ↑(unitsOf before)) (ofChars text).size = _
  omega

section

variable {text before cs : List Char} {ts : List Token}

/-- Tokens that tile the rest of a text are slices of it, one behind the other. -/
theorem Tiles.slices (h : Tiles (.ofChars text) before cs ts) (htext : text = before ++ cs) :
    (∀ t ∈ ts, t.SliceOf text ∧ unitsOf before ≤ t.span.start.offset) ∧
      ts.Pairwise fun t t' => t.span.stop.offset ≤ t'.span.start.offset := by
  induction h with
  | @last before gap hgap =>
      have htext : text = before ++ gap ++ [] := by simpa using htext
      have hoffset := LineMap.offset_position htext
      refine ⟨List.forall_mem_singleton.2 ⟨?_, ?_⟩, List.pairwise_singleton ..⟩
      · exact ⟨before ++ gap, [], by simpa [Token.endAt] using htext, hoffset,
          by simpa [Token.endAt] using hoffset⟩
      · refine Nat.le_trans ?_ (Nat.le_of_eq hoffset.symm)
        rw [unitsOf_append]
        omega
  | @token before gap behind t ts hgap hkind hspells hmaximal hspan h ih =>
      obtain ⟨hslices, hpairwise⟩ := ih (by simpa using htext)
      -- the span is made of the positions at which the token begins and ends
      have hstart : t.span.start.offset = unitsOf (before ++ gap) := by
        rw [hspan]
        exact LineMap.offset_position (by simpa using htext)
      have hstop : t.span.stop.offset = unitsOf (before ++ gap ++ t.text.toList) := by
        rw [hspan]
        exact LineMap.offset_position (by simpa using htext)
      have hunits : unitsOf (before ++ gap ++ t.text.toList) =
          unitsOf before + unitsOf gap + unitsOf t.text.toList := by
        rw [unitsOf_append, unitsOf_append]
      refine ⟨List.forall_mem_cons.2 ⟨⟨?_, ?_⟩, fun t' ht' => ⟨(hslices t' ht').1, ?_⟩⟩,
        List.pairwise_cons.2 ⟨fun t' ht' => ?_, hpairwise⟩⟩
      · exact ⟨before ++ gap, behind, by simpa using htext, hstart, hstop⟩
      · rw [hstart, unitsOf_append]
        omega
      · have hle := (hslices t' ht').2
        omega
      · rw [hstop]
        exact (hslices t' ht').2

/-- The last token is the only end of the input, and stands at the end of the text. -/
theorem Tiles.endsOnce {m : LineMap} (h : Tiles m before cs ts) :
    ∃ ts' last, ts = ts' ++ [last] ∧ EndsOnce ts' last ∧ (∀ t ∈ ts', t.kind.Spells t.text) ∧
      last = .endAt (m.position ↑(unitsOf (before ++ cs))) := by
  induction h with
  | last hgap => exact ⟨[], _, rfl, ⟨rfl, by simp⟩, by simp, rfl⟩
  | @token before gap behind t ts hgap hkind hspells hmaximal hspan h ih =>
      obtain ⟨ts', last, rfl, hends, hall, hlast⟩ := ih
      refine ⟨t :: ts', last, rfl, ⟨hends.kind, List.forall_mem_cons.2 ⟨hkind, hends.once⟩⟩,
        List.forall_mem_cons.2 ⟨hspells, hall⟩, ?_⟩
      simpa using hlast

end

/-! ## The tokens of a text -/

theorem tokens_tiles {text : String} {ts : List Token} (h : tokens text = .ok ts) :
    Tiles (.ofChars text.toList) [] text.toList ts :=
  (scan_tiles _ text.toList [] true fun _ => ⟨[], [], rfl, .inl rfl, by simp⟩).ok_of_eq h

/-- The tokens of a text end with the only end of the input, and each identifier is one. -/
theorem tokens_endsOnce {text : String} {ts : List Token} (h : tokens text = .ok ts) :
    ∃ ts' last, ts = ts' ++ [last] ∧ EndsOnce ts' last ∧
      ∀ t ∈ ts', t.kind = .identifier → IsIdentifier t.text := by
  obtain ⟨ts', last, hts, hends, hspells, -⟩ := (tokens_tiles h).endsOnce
  refine ⟨ts', last, hts, hends, fun t ht hkind => ?_⟩
  have hword := hspells t ht
  rwa [hkind] at hword

/-- The tokens of a text tile it: they are slices of it with nothing but blanks, comments and line
markers between them, and none of them could be longer. -/
theorem tiles_of_tokens {text : String} {ts : List Token} (h : tokens text = .ok ts) :
    Tiles (.ofChars text.toList) [] text.toList ts ∧
    (∃ ts' last, ts = ts' ++ [last] ∧ EndsOnce ts' last ∧ (∀ t ∈ ts', t.text ≠ "") ∧
      last = .endAt ((LineMap.ofChars text.toList).position ↑(unitsOf text.toList))) ∧
    (∀ t ∈ ts, t.SliceOf text.toList) ∧
    ts.Pairwise fun t t' => t.span.stop.offset ≤ t'.span.start.offset := by
  have htiles := tokens_tiles h
  obtain ⟨ts', last, hts, hends, hspells, hlast⟩ := htiles.endsOnce
  obtain ⟨hslices, hpairwise⟩ := htiles.slices rfl
  refine ⟨htiles, ⟨ts', last, hts, hends, fun t ht => ?_, hlast⟩,
    fun t ht => (hslices t ht).1, hpairwise⟩
  exact (hspells t ht).text_ne (hends.once t ht)

/-- The text of a line marker, comments of both kinds and tokens that touch. -/
def markedText : String := "# 1 \"a.c\"\nint/* ** / */x=0UL<<=+++ y_1; // x\n\t#2\n"

theorem tiles_of_markedText : ∃ ts, tokens markedText = .ok ts ∧
    ts.map Token.text = ["int", "x", "=", "0UL", "<<", "=", "++", "+", "y_1", ";", ""] ∧
    Tiles (.ofChars markedText.toList) [] markedText.toList ts ∧
    (∃ ts' last, ts = ts' ++ [last] ∧ EndsOnce ts' last ∧ (∀ t ∈ ts', t.text ≠ "") ∧
      last = .endAt ((LineMap.ofChars markedText.toList).position ↑(unitsOf markedText.toList))) ∧
    (∀ t ∈ ts, t.SliceOf markedText.toList) ∧
    ts.Pairwise fun t t' => t.span.stop.offset ≤ t'.span.start.offset := by
  have h : ((tokens markedText).toOption.bind fun ts => some (ts.map Token.text)) =
      some ["int", "x", "=", "0UL", "<<", "=", "++", "+", "y_1", ";", ""] := by
    decide +kernel
  obtain ⟨ts, hts, h⟩ := toOption_bind_eq_some.1 h
  exact ⟨ts, hts, Option.some.inj h, tiles_of_tokens hts⟩

end IntegerC
