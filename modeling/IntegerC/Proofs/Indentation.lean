import Mathlib.Data.List.Basic
import IntegerC.Proofs.Grammar.Spacing
import IntegerC.Proofs.Nesting.Splitting

set_option autoImplicit false

/-! # Indentation

Blanks at the start of a line change no token of the text, with one exception: of all blanks only
those that count as indentation may stand before a line marker. Behind any other the `#` is not
passed over but refused. The lines before the place are read as before, or the place lies inside a
comment, which is closed where it was closed before.
-/

namespace IntegerC

open Text

/-! ## Lexemes of the rest of a text -/

/-- The rest of a text is read as the lexemes `ls`, wherever in a text it stands. -/
def SplitsAs (fresh : Bool) (cs : List Char) (ls : List Lexeme) : Prop :=
  ∀ (m : LineMap) (start : Nat), ∃ ts, scan m start fresh 0 cs = .ok ts ∧
    ts.map Token.lexeme = ls

/-- The characters `cs`, in front of `behind`, are read as the lexemes `ls`; `fresh` and `fresh'`
tell whether only indentation stands before `cs` and before `behind` on their lines. -/
def Walks (fresh : Bool) (cs : List Char) (fresh' : Bool) (behind : List Char)
    (ls : List Lexeme) : Prop :=
  ∀ (m : LineMap) (start : Nat), ∃ us : List Token, us.map Token.lexeme = ls ∧
    scan m start fresh 0 (cs ++ behind) =
      (scan m (start + unitsOf cs) fresh' 0 behind).map (us ++ ·)

/-- The piece `c :: more` of a text, in front of `behind`, with the lexeme that it is, if it is
one. -/
inductive IsPiece (fresh : Bool) (c : Char) (more behind : List Char) : List Lexeme → Prop
  | gap (h : Piece.at fresh c (more ++ behind) = .gap more.length) : IsPiece fresh c more behind []
  | token {kind : TokenKind} (h : Piece.at fresh c (more ++ behind) = .token kind more.length) :
      IsPiece fresh c more behind [⟨kind, String.ofList (c :: more)⟩]

/-- The walk reads the same lexemes wherever it starts. -/
theorem scan_relocate (m m' : LineMap) (cs : List Char) :
    ∀ (start start' : Nat) (fresh : Bool) (skip : Nat) {ts : List Token},
      scan m start fresh skip cs = .ok ts →
        ∃ ts', scan m' start' fresh skip cs = .ok ts' ∧
          ts'.map Token.lexeme = ts.map Token.lexeme := by
  induction cs with
  | nil =>
      intro start start' fresh skip ts h
      cases h
      exact ⟨_, rfl, rfl⟩
  | cons c cs ih =>
      intro start start' fresh skip ts h
      cases skip with
      | succ skip => exact ih _ _ _ _ h
      | zero =>
          rw [scan] at h ⊢
          -- which piece stands here is decided by its characters, wherever the text began
          cases hat : Piece.at fresh c cs with
          | fault cause width =>
              rw [hat] at h
              cases h
          | gap more =>
              rw [hat] at h
              exact ih _ _ _ _ h
          | token kind more =>
              rw [hat] at h
              obtain ⟨us, hus, rfl⟩ := map_eq_ok.1 h
              obtain ⟨us', hus', hlexemes⟩ := ih _ (start' + units c) _ _ hus
              refine ⟨_, map_eq_ok.2 ⟨us', hus', rfl⟩, ?_⟩
              rw [List.map_cons, List.map_cons, hlexemes]
              rfl

theorem splitsAs_of_scan {m : LineMap} {start : Nat} {fresh : Bool} {cs : List Char}
    {ts : List Token} (h : scan m start fresh 0 cs = .ok ts) :
    SplitsAs fresh cs (ts.map Token.lexeme) :=
  fun m' start' => scan_relocate m m' cs start start' fresh 0 h

namespace Walks

variable {fresh fresh' fresh'' : Bool} {cs ds behind : List Char} {ls rs : List Lexeme}

theorem passed (h : ∀ m start, scan m start fresh 0 (cs ++ behind) =
    scan m (start + unitsOf cs) fresh' 0 behind) : Walks fresh cs fresh' behind [] := by
  intro m start
  refine ⟨[], rfl, ?_⟩
  rw [h]
  cases scan m (start + unitsOf cs) fresh' 0 behind <;> rfl

theorem blanks (h : ∀ c ∈ cs, isBlank c = true) :
    Walks fresh cs (cs.foldl freshAfter fresh) behind [] :=
  passed fun m start => scan_blanks m behind h start fresh

/-- Two walks over adjacent stretches are one walk over both. -/
theorem trans (h : Walks fresh cs fresh' (ds ++ behind) ls) (h' : Walks fresh' ds fresh'' behind rs) :
    Walks fresh (cs ++ ds) fresh'' behind (ls ++ rs) := by
  intro m start
  obtain ⟨us, hus, hscan⟩ := h m start
  obtain ⟨vs, hvs, hscan'⟩ := h' m (start + unitsOf cs)
  refine ⟨us ++ vs, by rw [List.map_append, hus, hvs], ?_⟩
  rw [List.append_assoc, hscan, hscan', unitsOf_append, ← Nat.add_assoc]
  cases scan m (start + unitsOf cs + unitsOf ds) fresh'' 0 behind with
  | error f => rfl
  | ok ts => exact congrArg Except.ok (List.append_assoc us vs ts).symm

/-- A walk in front of a text that splits gives the lexemes of both. -/
theorem splitsAs (h : Walks fresh cs fresh' behind ls) (hbehind : SplitsAs fresh' behind rs) :
    SplitsAs fresh (cs ++ behind) (ls ++ rs) := by
  intro m start
  obtain ⟨us, hus, hscan⟩ := h m start
  obtain ⟨ts, hts, hrs⟩ := hbehind m (start + unitsOf cs)
  refine ⟨us ++ ts, ?_, by rw [List.map_append, hus, hrs]⟩
  rw [hscan, hts]
  rfl

/-- What stands behind is read as the rest of the lexemes. -/
theorem splitsAs_behind (h : Walks fresh cs fresh' behind ls) (hsplits : SplitsAs fresh (cs ++ behind) rs) :
    ∃ rs', SplitsAs fresh' behind rs' ∧ rs = ls ++ rs' := by
  obtain ⟨us, hus, hscan⟩ := h (.ofChars []) 0
  obtain ⟨ts, hts, hrs⟩ := hsplits (.ofChars []) 0
  rw [hscan] at hts
  obtain ⟨vs, hvs, rfl⟩ := map_eq_ok.1 hts
  refine ⟨vs.map Token.lexeme, splitsAs_of_scan hvs, ?_⟩
  rw [← hrs, ← hus, List.map_append]

end Walks

namespace IsPiece

variable {fresh : Bool} {c : Char} {more behind behind' : List Char} {ls : List Lexeme}

/-- A piece of a text is read in one step, after which its further characters are skipped. -/
theorem walks (h : IsPiece fresh c more behind ls) :
    Walks fresh (c :: more) ((c :: more).foldl freshAfter fresh) behind ls := by
  cases h with
  | gap h =>
      refine .passed fun m start => ?_
      rw [List.cons_append, scan, h]
      show scan m _ _ more.length _ = _
      rw [scan_piece]
  | @token kind h =>
      intro m start
      refine ⟨[⟨kind, String.ofList (c :: more),
        m.span ↑start ↑(start + unitsOf (c :: more))⟩], rfl, ?_⟩
      rw [List.cons_append, scan, h]
      show (scan m _ _ more.length _).map _ = _
      rw [scan_piece, List.take_left]
      rfl

/-- Of what stands behind only the first character matters. -/
theorem of_head (h : IsPiece fresh c more behind ls) (hhead : behind'.head? = behind.head?) :
    IsPiece fresh c more behind' ls := by
  cases h with
  | gap h => exact .gap (Piece.at_gap_of_head h hhead)
  | token h =>
      obtain ⟨hkind, hspells, hends⟩ := Piece.at_eq_token_iff.1 h
      exact .token (Piece.at_of_spells hkind hspells (hends.of_head hhead))

end IsPiece

/-- What is read begins with a piece. -/
theorem SplitsAs.exists_isPiece {fresh : Bool} {c : Char} {cs : List Char} {ls : List Lexeme}
    (h : SplitsAs fresh (c :: cs) ls) : ∃ more behind ls₁ ls₂, cs = more ++ behind ∧
      IsPiece fresh c more behind ls₁ ∧
      SplitsAs ((c :: more).foldl freshAfter fresh) behind ls₂ ∧ ls = ls₁ ++ ls₂ := by
  have hpiece : ∃ more behind ls₁, cs = more ++ behind ∧ IsPiece fresh c more behind ls₁ := by
    cases hat : Piece.at fresh c cs with
    | fault cause width =>
        obtain ⟨ts, hts, -⟩ := h (.ofChars []) 0
        rw [scan, hat] at hts
        cases hts
    | gap k =>
        have hstart : AtLineStart [] := ⟨[], [], rfl, .inl rfl, by simp⟩
        obtain ⟨more, behind, rfl, rfl, -⟩ := skipped_of_at_eq_gap (fun _ => hstart) hat
        exact ⟨more, behind, [], rfl, .gap hat⟩
    | token kind k =>
        obtain ⟨-, more, behind, rfl, rfl, -⟩ := of_at_eq_token hat
        exact ⟨more, behind, _, rfl, .token hat⟩
  obtain ⟨more, behind, ls₁, rfl, hpiece⟩ := hpiece
  obtain ⟨ls₂, hls₂, hls⟩ := hpiece.walks.splitsAs_behind h
  exact ⟨more, behind, ls₁, ls₂, rfl, hpiece, hls₂, hls⟩

/-! ## Comments over the start of a line -/

/-- Blanks in front of the end of a comment lengthen it by their number. -/
theorem commentLength?_blanks {w : List Char} (hw : ∀ c ∈ w, isBlank c = true) (cs : List Char) :
    commentLength? (w ++ cs) = (commentLength? cs).map (· + w.length) := by
  induction w with
  | nil => simp
  | cons c w ih =>
      obtain ⟨hc, hw⟩ := List.forall_mem_cons.1 hw
      rw [List.cons_append, commentLength?_cons, if_neg fun h => (endsTokens_of_isBlank hc).star h.1,
        ih hw, Option.map_map]
      rfl

/-- A comment that is still open at the end of a line is closed where what follows closes it. -/
theorem commentLength?_line (body : List Char) : ∀ {rest : List Char} {n : Nat},
    body.getLast? = some '\n' → commentLength? (body ++ rest) = some n → body.length < n →
      ∀ cs, commentLength? (body ++ cs) = (commentLength? cs).map (· + body.length) := by
  induction body with
  | nil => exact nofun
  | cons c body ih =>
      intro rest n hline h hn cs
      by_cases hbody : body = []
      · subst hbody
        obtain rfl : c = '\n' := Option.some.inj hline
        rw [List.cons_append, List.nil_append, commentLength?_cons, if_neg (by simp)]
        rfl
      · obtain ⟨d, body, rfl⟩ := List.exists_cons_of_ne_nil hbody
        rw [List.cons_append, commentLength?_cons] at h ⊢
        have hhead : ∀ ds, (d :: body ++ ds).head? = some d := fun _ => rfl
        rw [hhead] at h ⊢
        by_cases hclosed : c = '*' ∧ some d = some '/'
        · -- the comment is closed before the end of the line
          rw [if_pos hclosed] at h
          cases h
          simp only [List.length_cons] at hn
          omega
        · rw [if_neg hclosed] at h ⊢
          obtain ⟨k, hk, rfl⟩ := Option.map_eq_some_iff.1 h
          have hlast : (d :: body).getLast? = some '\n' := by
            rwa [List.getLast?_cons_cons] at hline
          rw [ih hlast hk (by simpa using hn), Option.map_map]
          rfl

theorem Piece.at_comment (fresh : Bool) (cs : List Char) :
    Piece.at fresh '/' ('*' :: cs) = match commentLength? cs with
      | some n => .gap (n + 1)
      | none => .fault .unterminatedComment (unitsOf ('/' :: '*' :: cs)) := by
  rw [Piece.at, if_neg (by decide), if_neg (by simp), if_pos (by simp)]
  rfl

theorem Piece.at_comment_iff {fresh : Bool} {cs : List Char} {n : Nat} :
    Piece.at fresh '/' ('*' :: cs) = .gap (n + 1) ↔ commentLength? cs = some n := by
  rw [Piece.at_comment]
  cases commentLength? cs <;> simp

/-- Behind a character that is no blank the line is no longer fresh. -/
theorem foldl_freshAfter_of_getLast? {cs : List Char} {c : Char} (h : cs.getLast? = some c)
    (hc : isBlank c = false) (fresh : Bool) : cs.foldl freshAfter fresh = false := by
  obtain ⟨ds, rfl⟩ := List.getLast?_eq_some_iff.1 h
  rw [List.foldl_append]
  exact freshAfter_eq_false hc _

/-- The parts of a comment before and behind the end of a line. -/
theorem over_line_ends {cs inner body : List Char} (hline : ('/' :: cs).getLast? = some '\n')
    (h : cs ++ inner = '*' :: (body ++ ['*', '/'])) :
    ∃ ds, cs = '*' :: ds ∧ ds.getLast? = some '\n' ∧ inner.getLast? = some '/' := by
  have hslash : (cs ++ inner).getLast? = some '/' := by
    rw [h, ← List.cons_append, List.getLast?_append_of_ne_nil _ (List.cons_ne_nil _ _)]
    rfl
  match cs, hline with
  | [], hline => cases hline
  | [d], hline =>
      obtain ⟨rfl, -⟩ := List.cons.inj h
      cases hline
  | d :: e :: ds, hline =>
      obtain ⟨rfl, -⟩ := List.cons.inj h
      rw [List.getLast?_cons_cons, List.getLast?_cons_cons] at hline
      refine ⟨e :: ds, rfl, hline, ?_⟩
      cases inner with
      | nil =>
          rw [List.append_nil, List.getLast?_cons_cons, hline] at hslash
          cases hslash
      | cons f inner => rwa [List.getLast?_append_of_ne_nil _ (List.cons_ne_nil f inner)] at hslash

/-- A piece that goes on behind the end of a line is a comment, which blanks at the start of the
next line do not close. -/
theorem IsPiece.over_line {fresh : Bool} {c : Char} {cs inner behind w : List Char}
    {ls : List Lexeme} (hw : ∀ d ∈ w, isBlank d = true)
    (h : IsPiece fresh c (cs ++ inner) behind ls) (hline : (c :: cs).getLast? = some '\n') :
    (c = '\n' ∧ cs = [] ∧ inner = []) ∨
      (ls = [] ∧ IsPiece fresh c (cs ++ (w ++ inner)) behind [] ∧ inner.getLast? = some '/') := by
  have hmem : '\n' ∈ c :: cs := List.mem_of_getLast? hline
  cases h with
  | token h =>
      -- there is no blank in a token
      have hblank := (Piece.at_eq_token_iff.1 h).2.1.not_blank '\n' (by
        rw [String.toList_ofList]
        exact List.mem_append_left inner hmem)
      cases hblank
  | gap h =>
      have hstart : AtLineStart [] := ⟨[], [], rfl, .inl rfl, by simp⟩
      obtain ⟨piece, behind', hsplit, hlength, hskipped⟩ :=
        skipped_of_at_eq_gap (fun _ => hstart) h
      obtain ⟨rfl, rfl⟩ := List.append_inj hsplit hlength
      generalize hpiece : c :: (cs ++ inner) = whole at hskipped
      have hwhole : '\n' ∈ whole := hpiece ▸ List.mem_append_left inner hmem
      cases hskipped with
      | blank _ =>
          obtain ⟨rfl, hnil⟩ := List.cons.inj hpiece
          obtain ⟨rfl, rfl⟩ := List.append_eq_nil_iff.1 hnil
          exact .inl ⟨Option.some.inj hline, rfl, rfl⟩
      | lineComment hbody _ => exact absurd hwhole (by simpa using hbody)
      | marker _ hbody _ => exact absurd hwhole (by simpa using hbody)
      | @comment body _ _ =>
          obtain ⟨rfl, hcs⟩ := List.cons.inj hpiece
          obtain ⟨ds, rfl, hlast, hinner⟩ := over_line_ends hline hcs
          -- the comment is closed `inner.length` characters behind the end of the line
          have hopen : commentLength? (ds ++ (inner ++ behind)) =
              some (ds.length + inner.length) := by
            rw [← List.append_assoc, ← List.length_append]
            exact Piece.at_comment_iff.1 h
          have hpos : 0 < inner.length := by
            cases inner with
            | nil => cases hinner
            | cons _ _ => exact Nat.succ_pos _
          have hall := commentLength?_line ds hlast hopen (by omega)
          rw [hall, Option.map_eq_some_iff] at hopen
          obtain ⟨k, hk, hlength⟩ := hopen
          obtain rfl : k = inner.length := by omega
          have hclosed : commentLength? (ds ++ (w ++ inner) ++ behind) =
              some (ds ++ (w ++ inner)).length := by
            rw [List.append_assoc, List.append_assoc, hall, commentLength?_blanks hw, hk]
            simp only [Option.map_some, List.length_append]
            exact congrArg some (by omega)
          exact .inr ⟨rfl, .gap (Piece.at_comment_iff.2 hclosed), hinner⟩

/-! ## The lines before -/

/-- A piece that reaches the end of a line ends there, whatever stands behind, or it goes on behind
the line, with or without blanks at that place. -/
theorem IsPiece.walks_over_line {fresh : Bool} {c : Char} {cs inner behind w : List Char}
    {ls : List Lexeme} (hw : ∀ d ∈ w, isBlank d = true)
    (h : IsPiece fresh c (cs ++ inner) behind ls) (hline : (c :: cs).getLast? = some '\n') :
    (∃ rs, ∀ behind, Walks fresh (c :: cs) true behind rs) ∨
      Walks fresh (c :: cs ++ inner) false behind [] ∧
        Walks fresh (c :: cs ++ (w ++ inner)) false behind [] := by
  rcases h.over_line hw hline with ⟨rfl, rfl, rfl⟩ | ⟨rfl, hindented, hslash⟩
  · exact .inl ⟨[], fun behind => (IsPiece.gap rfl).walks⟩
  · have hfresh := foldl_freshAfter_of_getLast? hslash (by decide)
    refine .inr ⟨?_, ?_⟩
    · have hwalks := h.walks
      rwa [← List.cons_append, List.foldl_append, hfresh] at hwalks
    · have hwalks := hindented.walks
      rwa [← List.cons_append, List.foldl_append, List.foldl_append, hfresh] at hwalks

/-- A text is read up to the end of a line, whatever stands behind; or the place behind it lies in a
comment, which goes up to `rest` with or without blanks at that place. -/
theorem SplitsAs.line {w : List Char} (hw : ∀ d ∈ w, isBlank d = true) {suf : List Char}
    (pre : List Char) : ∀ {fresh : Bool} {ls : List Lexeme}, SplitsAs fresh (pre ++ suf) ls →
    pre.getLast? = some '\n' →
      (∃ rs, ∀ behind, Walks fresh pre true behind rs) ∨
      ∃ inner rest rs, suf = inner ++ rest ∧ Walks fresh (pre ++ inner) false rest rs ∧
        Walks fresh (pre ++ (w ++ inner)) false rest rs := by
  -- on the length of the text, since a piece takes several characters at once
  induction hn : pre.length using Nat.strongRecOn generalizing pre with
  | ind n ih =>
      subst hn
      intro fresh ls h hline
      cases pre with
      | nil => cases hline
      | cons c cs =>
          obtain ⟨more, behind, rs, rs', hsplit, hpiece, hbehind, -⟩ := h.exists_isPiece
          have hover : ∀ inner, more = cs ++ inner → suf = inner ++ behind →
              (∃ rs, ∀ behind, Walks fresh (c :: cs) true behind rs) ∨
              ∃ inner rest rs, suf = inner ++ rest ∧
                Walks fresh (c :: cs ++ inner) false rest rs ∧
                Walks fresh (c :: cs ++ (w ++ inner)) false rest rs := by
            rintro inner rfl hsuf
            rcases hpiece.walks_over_line hw hline with hwalks | ⟨hwalks, hindented⟩
            · exact .inl hwalks
            · exact .inr ⟨inner, behind, [], hsuf, hwalks, hindented⟩
          rcases List.append_eq_append_iff.1 hsplit with ⟨inner, hmore, hsuf⟩ | ⟨pre', hcs, hpre'⟩
          · exact hover inner hmore hsuf
          by_cases hnil : pre' = []
          · subst hnil
            rw [List.append_nil] at hcs
            exact hover [] (by rw [hcs, List.append_nil]) hpre'.symm
          · subst hcs hpre'
            have hlast : pre'.getLast? = some '\n' := by
              rwa [← List.cons_append, List.getLast?_append_of_ne_nil _ hnil] at hline
            have hhead : ∀ xs, (pre' ++ xs).head? = (pre' ++ suf).head? := by
              obtain ⟨d, ds, rfl⟩ := List.exists_cons_of_ne_nil hnil
              exact fun _ => rfl
            -- what is inserted behind does not touch this piece
            have hfollowed : ∀ {xs f rest vs},
                Walks ((c :: more).foldl freshAfter fresh) (pre' ++ xs) f rest vs →
                  Walks fresh (c :: (more ++ pre') ++ xs) f rest (rs ++ vs) := by
              intro xs f rest vs hwalks
              rw [← List.cons_append, List.append_assoc]
              refine (hpiece.of_head ?_).walks.trans hwalks
              rw [List.append_assoc, hhead]
            have hlength : pre'.length < (c :: (more ++ pre')).length := by
              rw [List.length_cons, List.length_append]
              omega
            rcases ih pre'.length hlength pre' rfl hbehind hlast with
              ⟨vs, hwalks⟩ | ⟨inner, rest, vs, hsuf, hwalks, hindented⟩
            · refine .inl ⟨rs ++ vs, fun behind => ?_⟩
              exact (hpiece.of_head (hhead behind)).walks.trans (hwalks behind)
            · exact .inr ⟨inner, rest, rs ++ vs, hsuf, hfollowed hwalks, hfollowed hindented⟩

/-! ## The line itself -/

/-- Indentation does not change whether only indentation stands before a place on its line. -/
theorem foldl_freshAfter_indent {cs : List Char} (h : ∀ c ∈ cs, isIndent c = true) (fresh : Bool) :
    cs.foldl freshAfter fresh = fresh := by
  induction cs with
  | nil => rfl
  | cons c cs ih =>
      obtain ⟨hc, hcs⟩ := List.forall_mem_cons.1 h
      have hline : c ≠ '\n' := fun e => by rw [e] at hc; cases hc
      rw [List.foldl_cons, freshAfter, hc]
      simpa [hline] using ih hcs

/-- Whether a line is fresh matters to a `#` only. -/
theorem Piece.at_refresh {c : Char} (h : c ≠ '#') (fresh fresh' : Bool) (cs : List Char) :
    Piece.at fresh c cs = Piece.at fresh' c cs := by
  simp [Piece.at, h]

theorem IsPiece.refresh {fresh : Bool} {c : Char} {more behind : List Char} {ls : List Lexeme}
    (hc : c ≠ '#') (h : IsPiece fresh c more behind ls) (fresh' : Bool) :
    IsPiece fresh' c more behind ls := by
  cases h with
  | gap h => exact .gap (Piece.at_refresh hc fresh fresh' _ ▸ h)
  | token h => exact .token (Piece.at_refresh hc fresh fresh' _ ▸ h)

/-- What is read at the start of a line is read behind other blanks as well, if no line marker
begins there. -/
theorem SplitsAs.unfresh (cs : List Char) : ∀ {ls : List Lexeme}, SplitsAs true cs ls →
    SplitsAs false cs ls ∨
      ∃ indent rest, cs = indent ++ '#' :: rest ∧ ∀ d ∈ indent, isIndent d = true := by
  induction cs with
  | nil => exact fun h => .inl h
  | cons c cs ih =>
      intro ls h
      by_cases hmarker : c = '#'
      · exact .inr ⟨[], cs, by rw [hmarker]; rfl, nofun⟩
      by_cases hindent : isIndent c = true
      · have hgap : ∀ fresh, Walks fresh [c] fresh cs [] := by
          intro fresh
          have hwalks : Walks fresh [c] ([c].foldl freshAfter fresh) cs [] :=
            .blanks (List.forall_mem_singleton.2 (isBlank_of_isIndent hindent))
          rwa [foldl_freshAfter_indent (List.forall_mem_singleton.2 hindent)] at hwalks
        obtain ⟨rs, hrs, rfl⟩ := (hgap true).splitsAs_behind h
        rcases ih hrs with hrs | ⟨indent, rest, rfl, hindents⟩
        · exact .inl ((hgap false).splitsAs hrs)
        · exact .inr ⟨c :: indent, rest, rfl, List.forall_mem_cons.2 ⟨hindent, hindents⟩⟩
      · obtain ⟨more, behind, rs, vs, rfl, hpiece, hbehind, rfl⟩ := h.exists_isPiece
        have hsame : freshAfter true c = freshAfter false c := by
          simp [freshAfter, hindent]
        have hwalks := (hpiece.refresh hmarker false).walks
        rw [List.foldl_cons, ← hsame, ← List.foldl_cons] at hwalks
        exact .inl (hwalks.splitsAs hbehind)

/-- Blanks at the start of a line leave it fresh, or what is behind them is read on a line that is
not fresh as well, or a line marker begins behind them. -/
theorem SplitsAs.behind_blanks (w : List Char) {cs : List Char} {ls : List Lexeme}
    (h : SplitsAs true cs ls) :
    SplitsAs (w.foldl freshAfter true) cs ls ∨
      (∃ d ∈ w, isIndent d = false) ∧ w.foldl freshAfter true = false ∧
        ∃ indent rest, cs = indent ++ '#' :: rest ∧ ∀ d ∈ indent, isIndent d = true := by
  cases hfresh : w.foldl freshAfter true with
  | true => exact .inl h
  | false =>
      refine h.unfresh.imp_right fun hmarker => ⟨?_, rfl, hmarker⟩
      by_contra hnone
      have hall : ∀ d ∈ w, isIndent d = true := by simpa using hnone
      rw [foldl_freshAfter_indent hall] at hfresh
      cases hfresh

/-- No punctuator begins with a `#`. -/
theorem Punct.longest?_hash (cs : List Char) : Punct.longest? ('#' :: cs) = none := by
  refine List.find?_eq_none.2 fun p _ hp => ?_
  obtain ⟨c, ds, hchars⟩ := List.exists_cons_of_ne_nil p.chars_ne_nil
  have hc := (p.of_mem_chars c (by simp [hchars])).2.2
  rw [List.isPrefixOf_iff_prefix, hchars] at hp
  exact hc (List.cons_prefix_cons.1 hp).1

/-- A `#` that is no line marker is refused. -/
theorem scan_marker (m : LineMap) {indent : List Char} (h : ∀ d ∈ indent, isIndent d = true)
    (rest : List Char) (start : Nat) :
    scan m start false 0 (indent ++ '#' :: rest) = .error ((Cause.unexpectedCharacter '#').at
      (m.span ↑(start + unitsOf indent) ↑(start + unitsOf indent + 1))) := by
  have hat : Piece.at false '#' rest = .fault (.unexpectedCharacter '#') 1 := by
    rw [Piece.at, if_neg (by decide), if_neg (by simp), if_neg (by simp), if_neg (by decide),
      if_neg (by decide), Punct.longest?_hash]
  rw [scan_blanks m _ (fun d hd => isBlank_of_isIndent (h d hd)), foldl_freshAfter_indent h, scan,
    hat]

/-- Blanks at the start of a line change no lexeme, unless a line marker begins on the line and not
all of them count as indentation: then the `#` is refused. -/
theorem tokens_indented {pre w suf : List Char} {ts : List Token}
    (hpre : pre = [] ∨ pre.getLast? = some '\n') (hw : ∀ d ∈ w, isBlank d = true)
    (h : tokensOfChars (pre ++ suf) = .ok ts) :
    (∃ ts', tokensOfChars (pre ++ (w ++ suf)) = .ok ts' ∧
      ts'.map Token.lexeme = ts.map Token.lexeme) ∨
    (∃ d ∈ w, isIndent d = false) ∧ ∃ indent rest, suf = indent ++ '#' :: rest ∧
      (∀ d ∈ indent, isIndent d = true) ∧
      tokensOfChars (pre ++ (w ++ suf)) = .error ((Cause.unexpectedCharacter '#').at
        ((LineMap.ofChars (pre ++ (w ++ suf))).span ↑(unitsOf (pre ++ w ++ indent))
          ↑(unitsOf (pre ++ w ++ indent) + 1))) := by
  have hsplits : SplitsAs true (pre ++ suf) (ts.map Token.lexeme) := splitsAs_of_scan h
  have hlines : (∃ rs, ∀ behind, Walks true pre true behind rs) ∨
      ∃ inner rest rs, suf = inner ++ rest ∧ Walks true (pre ++ inner) false rest rs ∧
        Walks true (pre ++ (w ++ inner)) false rest rs := by
    rcases hpre with rfl | hline
    · exact .inl ⟨[], fun behind => .blanks nofun⟩
    · exact hsplits.line hw pre hline
  rcases hlines with ⟨rs, hwalks⟩ | ⟨inner, rest, rs, rfl, hwalks, hindented⟩
  · obtain ⟨vs, hsuf, hts⟩ := (hwalks suf).splitsAs_behind hsplits
    have hindented := (hwalks (w ++ suf)).trans (.blanks hw)
    rw [List.append_nil] at hindented
    rcases hsuf.behind_blanks w with hsuf | ⟨hw', hfresh, indent, rest, rfl, hindent⟩
    · have hall := hindented.splitsAs hsuf
      rw [List.append_assoc, ← hts] at hall
      exact .inl (hall _ 0)
    · refine .inr ⟨hw', indent, rest, rfl, hindent, ?_⟩
      obtain ⟨us, -, hscan⟩ := hindented (.ofChars (pre ++ (w ++ (indent ++ '#' :: rest)))) 0
      rw [List.append_assoc, hfresh, scan_marker _ hindent, Nat.zero_add, ← unitsOf_append] at hscan
      exact hscan
  · -- the start of the line lies in a comment
    rw [← List.append_assoc] at hsplits
    obtain ⟨vs, hrest, hts⟩ := hwalks.splitsAs_behind hsplits
    have hall : SplitsAs true (pre ++ (w ++ (inner ++ rest))) (ts.map Token.lexeme) := by
      rw [hts]
      simpa using hindented.splitsAs hrest
    exact .inl (hall _ 0)

/-- A blank that is no indentation, in front of an indented line marker. -/
theorem tokens_indented_markerLine :
    ∃ ts f, tokensOfChars ("/* \n */ int\n".toList ++ "\t# 1\n;".toList) = .ok ts ∧
      ts.map Token.text = ["int", ";", ""] ∧
      tokensOfChars ("/* \n */ int\n".toList ++ (['\u00a0'] ++ "\t# 1\n;".toList)) = .error f ∧
      f.cause = .unexpectedCharacter '#' := by
  have h : ((tokensOfChars ("/* \n */ int\n".toList ++ "\t# 1\n;".toList)).toOption.bind fun ts =>
      some (ts.map Token.text)) = some ["int", ";", ""] := by
    decide +kernel
  have hrefused : (tokensOfChars ("/* \n */ int\n".toList ++
      (['\u00a0'] ++ "\t# 1\n;".toList))).toOption.isNone = true := by
    decide +kernel
  obtain ⟨ts, hts, htexts⟩ := toOption_bind_eq_some.1 h
  rcases tokens_indented (w := ['\u00a0']) (.inr (by decide)) (List.forall_mem_singleton.2 rfl) hts with
    ⟨ts', hts', -⟩ | ⟨-, indent, rest, -, -, herror⟩
  · rw [hts'] at hrefused
    cases hrefused
  · exact ⟨ts, _, hts, Option.some.inj htexts, herror, rfl⟩

end IntegerC

