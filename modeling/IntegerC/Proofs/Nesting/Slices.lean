import IntegerC.Proofs.Grammar.Completeness
import IntegerC.Proofs.Grammar.Parentheses
import IntegerC.Proofs.Nesting.Keeping
import IntegerC.Proofs.Nesting.Splitting

set_option autoImplicit false

/-! # Slices of a text

The span of an expression begins where its leftmost operand does. Parentheses around that operand
are not part of the tree, so the ones that open in front of it are left out of the span, while those
that close behind it may be inside. The slice of the text at the span of an expression is therefore
read as the expression, behind a `return`, once the missing parentheses are put in front of it, and
with any other number of them in front it is not read at all.
-/

namespace IntegerC

open Text

/-! ## The text at a span -/

/-- The characters behind the first `n` UTF-16 units. -/
def dropUnits : Nat → List Char → List Char
  | _, [] => []
  | n, c :: cs => if n = 0 then c :: cs else dropUnits (n - units c) cs

/-- The characters that make up the first `n` UTF-16 units. -/
def takeUnits : Nat → List Char → List Char
  | _, [] => []
  | n, c :: cs => if n = 0 then [] else c :: takeUnits (n - units c) cs

/-- The text between the two ends of a span. -/
def Span.slice (s : Span) (text : String) : String :=
  String.ofList (takeUnits (s.stop.offset - s.start.offset) (dropUnits s.start.offset text.toList))

theorem dropUnits_append (as bs : List Char) : dropUnits (unitsOf as) (as ++ bs) = bs := by
  induction as with
  | nil => cases bs <;> rfl
  | cons c as ih =>
      have hpos := units_pos c
      rw [List.cons_append, dropUnits, unitsOf_cons, if_neg (by omega), Nat.add_sub_cancel_left, ih]

theorem takeUnits_append (as bs : List Char) : takeUnits (unitsOf as) (as ++ bs) = as := by
  induction as with
  | nil => cases bs <;> rfl
  | cons c as ih =>
      have hpos := units_pos c
      rw [List.cons_append, takeUnits, unitsOf_cons, if_neg (by omega), Nat.add_sub_cancel_left, ih]

theorem Span.slice_eq {s : Span} {text : String} {before piece behind : List Char}
    (htext : text.toList = before ++ (piece ++ behind)) (hstart : s.start.offset = unitsOf before)
    (hstop : s.stop.offset = unitsOf (before ++ piece)) :
    s.slice text = String.ofList piece := by
  rw [slice, hstop, hstart, unitsOf_append, Nat.add_sub_cancel_left, htext, dropUnits_append,
    takeUnits_append]

/-! ## A function that returns an expression -/

/-- A program with a text in the place of the expression that it returns. -/
def returning (expr : String) : String := "int main(void) \x7b return " ++ expr ++ "; \x7d"

def returningLexemes (ls : List Lexeme) : List Lexeme :=
  .keyword .intKw :: .identifier "main" :: .punct .leftParen :: .keyword .voidKw ::
    .punct .rightParen :: .punct .leftBrace :: .keyword .returnKw ::
    (ls ++ [.punct .semicolon, .punct .rightBrace])

def Program.returning (e : Expr) : Program where
  span := .nowhere
  decls := [.function ⟨.nowhere, "main", .int, [], none⟩ .nowhere [.stmt (.ret .nowhere e)]]

/-- The tree that is read, without its spans, if the text stands in the place of the expression. -/
def readBack? (expr : String) : Option Program :=
  (tokens (returning expr)).toOption.bind fun ts =>
    (Program.ofTokens ts).toOption.map Program.bare

def openings (k : Nat) : String := String.ofList (List.replicate k '(')

theorem excess_returningLexemes (ls : List Lexeme) : excess (returningLexemes ls) = excess ls := by
  simp only [returningLexemes, Lexeme.keyword, Lexeme.identifier, Lexeme.punct, excess_cons,
    excess_append, excess_nil, TokenKind.opens]
  omega

/-- The expression that a program with one function returns in its only statement. -/
def Program.returned? (p : Program) : Option Expr :=
  match p.decls with
  | [.function _ _ [.stmt (.ret _ e)]] => some e
  | _ => none

/-- The expression that a program returns is one of its nodes. -/
theorem Program.contains_of_returned? {p : Program} {e : Expr} (h : p.returned? = some e) :
    (Node.program p).Contains (.expr e) := by
  unfold returned? at h
  split at h
  · rename_i header bodySpan retSpan _ hdecls
    cases h
    refine .under (k := .function header bodySpan [.stmt (.ret retSpan e)]) ?_
      (.under (k := .block bodySpan [.stmt (.ret retSpan e)]) ?_
        (.under (k := .stmt (.ret retSpan e)) ?_ (.under (k := .expr e) ?_ (.refl _))))
    · simp [Node.children, hdecls, Decl.node]
    · simp [Node.children]
    · simp [Node.children, Item.node]
    · simp [Node.children, Node.ofStmt]
  · cases h

/-- The program around an expression is derived if the expression is. -/
theorem Program.derives_returning {ls : List Lexeme} {e : Expr} (h : e.Derives true 0 ls) :
    (Program.returning e).Derives true (returningLexemes ls) := by
  have hmain : Specifiers.Derives [.keyword .intKw] ⟨.int, none⟩ :=
    ⟨[.intKw], rfl, by constructor <;> decide⟩
  have hret : Phrase.Derives true (.keyword .returnKw :: (ls ++ [.punct .semicolon]))
      (.item (.stmt (.ret .nowhere e))) := .stmtItem (.ret .nowhere rfl h rfl)
  have hbody := Phrase.Derives.block (l := .punct .leftBrace) (r := .punct .rightBrace) rfl
    [(_, _)] (List.forall_mem_singleton.2 hret) rfl
  have hfunction := Phrase.Derives.function (x := .identifier "main") .nowhere .nowhere hmain rfl
    (.nothing (l := .punct .leftParen) (v := .keyword .voidKw) (r := .punct .rightParen)
      rfl rfl rfl) hbody
  have hprogram := Program.Derives.mk .nowhere [(_, _)] (List.forall_mem_singleton.2 hfunction)
  simpa [returningLexemes, Program.returning, Lexeme.identifier] using hprogram

/-- The program splits into its lexemes if the text in the place of the expression does. -/
theorem splits_returning {cs behind : List Char} {ls : List Lexeme} (hls : ls ≠ [])
    (h : ∀ fresh, Splits fresh cs behind ls) :
    Splits true (returning (String.ofList cs)).toList [] (returningLexemes ls) := by
  have htail : ∀ fresh, Splits fresh (";".toList ++ ' ' :: ("\x7d".toList ++ [])) []
      [.punct .semicolon, .punct .rightBrace] :=
    .spelled (.punct .semicolon) (by simp [separators]) <|
      .blank (.spelled (.punct .rightBrace) (by simp) .nil) nofun _
  have hexpr : ∀ fresh, Splits fresh (cs ++ (";".toList ++ ' ' :: ("\x7d".toList ++ []))) []
      (ls ++ [.punct .semicolon, .punct .rightBrace]) :=
    fun fresh => ((h fresh).before (by simp [separators])).append rfl htail
  have hmain : IsIdentifier "main" := ⟨⟨'m', _, rfl, by decide, List.all_eq_true.1 (by decide)⟩, by decide⟩
  have hreturn := Splits.blank (.spelled (.keyword .returnKw) (by simp [separators])
    (.blank hexpr (by simp [hls]) false)) nofun
  have hbody := Splits.blank (.spelled (.punct .leftBrace) (by simp [separators]) (hreturn false))
    nofun
  have hparams := Splits.lexeme (l := .punct .leftParen) nofun rfl
    (TokenKind.endsBefore_leftParen _) (.spelled (.keyword .voidKw) (by rintro _ ⟨⟩; decide)
      (.spelled (.punct .rightParen) (by simp [separators]) (hbody false) false) false)
  have hname := Splits.blank (.spelled (.identifier hmain) (by rintro _ ⟨⟩; decide) (hparams false))
    nofun
  have hall := Splits.spelled (.keyword .intKw) (by simp [separators]) (hname false) true
  have hchars : (returning (String.ofList cs)).toList = _ :=
    toList_append_eq (toList_append_eq String.toList_ofList String.toList_ofList)
      String.toList_ofList
  rw [hchars]
  exact hall

/-! ## Reading a slice back -/

section

variable {cs behind : List Char} {ls : List Lexeme}

/-- Text that splits into the lexemes of an expression is read back as this expression up to
spans. -/
theorem readBack?_of_derives (hls : ls ≠ []) (h : ∀ fresh, Splits fresh cs behind ls) {e : Expr}
    (he : e.Derives true 0 ls) : readBack? (String.ofList cs) = some (.returning e.bare) := by
  obtain ⟨_, hts, us, last, rfl, hends, hus⟩ := (splits_returning hls h).succeeds_tokens.exists_ok
  have hderives := Program.derives_returning he
  rw [← hus] at hderives
  obtain ⟨p, hp, hbare⟩ := (Program.ofTokens_of_derives hends hderives).exists_ok
  rw [readBack?, hts]
  show (Program.ofTokens (us ++ [last])).toOption.map Program.bare = _
  rw [hp]
  exact congrArg some hbare

/-- What has a parenthesis too many or too few is not read. -/
theorem readBack?_of_excess (hls : ls ≠ []) (h : ∀ fresh, Splits fresh cs behind ls)
    (hexcess : excess ls ≠ 0) : readBack? (String.ofList cs) = none := by
  obtain ⟨_, hts, us, last, rfl, hends, hus⟩ := (splits_returning hls h).succeeds_tokens.exists_ok
  rw [readBack?, hts]
  show (Program.ofTokens (us ++ [last])).toOption.map Program.bare = _
  cases hp : Program.ofTokens (us ++ [last]) with
  | error f => rfl
  | ok p =>
      have hzero := (Program.derives_of_ofTokens hends hp).excess_eq
      rw [hus, excess_returningLexemes] at hzero
      exact absurd hzero hexcess

end

/-- An opening parenthesis with its own text; any other lexeme as it is. -/
def Lexeme.reopened (l : Lexeme) : Lexeme :=
  if l.kind = .punct .leftParen then .punct .leftParen else l

/-- A lexeme with the text of its kind is left alone: only an opening parenthesis could change. -/
theorem Lexeme.reopened_eq {l : Lexeme} (h : l.kind.Spells l.text) : l.reopened = l := by
  unfold reopened
  split
  · rename_i hl
    rw [hl] at h
    have htext : Punct.leftParen.text = l.text := h.symm
    rw [punct, htext, ← hl]
  · rfl

theorem Lexeme.keeps_reopened : Keeps reopened := by
  refine ⟨fun l => ?_, fun l hl => ?_, fun l s hl => ?_⟩
  · unfold reopened
    split
    · rename_i hl
      exact hl.symm
    · rfl
  · rw [reopened, if_neg (by rw [hl]; nofun)]
  · rw [reopened, if_neg (by rw [hl]; nofun)]

/-- The lexemes of a span are those of the expression, with parentheses put in front of them. -/
theorem Over.exists_derives {vs : List Token} {e : Expr} (h : Over vs (.expr e))
    (hspells : ∀ l ∈ vs.map Token.lexeme, l.kind.Spells l.text) :
    ∃ k, e.Derives true 0 (List.replicate k (.punct .leftParen) ++ vs.map Token.lexeme) := by
  obtain ⟨-, -, ⟨opened, hopened, hderives⟩, -⟩ := h
  have hfront : (opened.map Token.lexeme).map Lexeme.reopened =
      List.replicate opened.length (.punct .leftParen) := by
    rw [List.map_map, List.eq_replicate_iff]
    refine ⟨List.length_map _, List.forall_mem_map.2 fun t ht => ?_⟩
    exact if_pos (hopened t ht)
  have hrest : (vs.map Token.lexeme).map Lexeme.reopened = vs.map Token.lexeme :=
    (List.map_congr_left (g := id) fun l hl => Lexeme.reopened_eq (hspells l hl)).trans
      (List.map_id _)
  have hmap := hderives.map Lexeme.keeps_reopened
  rw [List.map_append, List.map_append, hfront, hrest] at hmap
  exact ⟨opened.length, hmap⟩

/-- An expression in the tree of a text is over some of its tokens. -/
theorem exists_over_of_contains {text : String} {ts : List Token} {tree : Program}
    (hts : tokens text = .ok ts) (htree : Program.ofTokens ts = .ok tree) {e : Expr}
    (he : (Node.program tree).Contains (.expr e)) :
    ∃ front vs back, ts = front ++ (vs ++ back) ∧ (∀ t ∈ front ++ vs, t.kind ≠ .endOfInput) ∧
      Over vs (.expr e) := by
  obtain ⟨us, last, rfl, -, -, -, -, hlaid⟩ := over_of_text hts htree
  have hkinds : ∀ t ∈ us, t.kind ≠ .endOfInput := by
    obtain ⟨us', last', hsplit, hends, -⟩ := tokens_endsOnce hts
    rw [(List.append_inj' hsplit rfl).1]
    exact hends.once
  cases he with
  | under hk hx =>
      obtain ⟨ws, hws, hover⟩ := hlaid.exists_of_mem hk
      obtain ⟨vs, hvs, hover⟩ := hover.exists_of_contains hx
      obtain ⟨front, back, rfl⟩ := hvs.trans hws
      exact ⟨front, vs, back ++ [last], by simp, (List.forall_mem_append.1 hkinds).1, hover⟩

/-- The end of the input is no parenthesis. -/
theorem exists_tokens_of_splits {cs : List Char} {ls : List Lexeme} (h : Splits true cs [] ls) :
    ∃ us, tokens (String.ofList cs) = .ok us ∧ excess (us.map Token.lexeme) = excess ls := by
  rw [← String.toList_ofList (l := cs)] at h
  obtain ⟨_, htokens, us, last, rfl, hends, hus⟩ := h.succeeds_tokens.exists_ok
  have hlast : last.lexeme.kind = .endOfInput := hends.kind
  refine ⟨_, htokens, ?_⟩
  rw [List.map_append, List.map_singleton, excess_append, hus, excess_cons, hlast,
    TokenKind.opens_endOfInput, excess_nil]
  omega

namespace Program

/-- The text at the span of an expression splits into tokens, with no more opening parentheses than
closing ones. With the missing ones in front of it, the text is read as the expression, up to spans;
with any other number of them in front, it is not read. -/
theorem slices_read_back {text : String} {ts : List Token} {tree : Program}
    (hts : tokens text = .ok ts) (htree : ofTokens ts = .ok tree) {e : Expr}
    (he : (Node.program tree).Contains (.expr e)) :
    ∃ (us : List Token) (k : Nat), tokens (e.span.slice text) = .ok us ∧
      excess (us.map Token.lexeme) = -(k : Int) ∧
      ∀ j, readBack? (openings j ++ e.span.slice text) =
        if j = k then some (.returning e.bare) else none := by
  obtain ⟨front, vs, back, rfl, hkinds, hover⟩ := exists_over_of_contains hts htree he
  obtain ⟨before, piece, behind, htext, hstart, hstop, hsplits⟩ :=
    exists_of_tokens hts hkinds hover.ne_nil
  rw [← hover.span_eq] at hstart hstop
  have hslice : e.span.slice text = String.ofList piece := Span.slice_eq htext hstart hstop
  obtain ⟨us, hus, hexcess⟩ := exists_tokens_of_splits ((hsplits true).before nofun)
  obtain ⟨k, hderives⟩ := hover.exists_derives (hsplits true).spells
  -- the expression itself has its parentheses in pairs
  have hpairs := hderives.excess_eq
  rw [excess_append, excess_replicate k rfl] at hpairs
  refine ⟨us, k, by rw [hslice, hus], by omega, fun j => ?_⟩
  have hparens := Splits.parens j hsplits
  have hne : List.replicate j (Lexeme.punct .leftParen) ++ vs.map Token.lexeme ≠ [] := by
    simp [hover.ne_nil]
  rw [hslice, openings, ← String.ofList_append]
  split
  · rename_i hj
    subst hj
    exact readBack?_of_derives hne hparens hderives
  · rename_i hj
    refine readBack?_of_excess hne hparens ?_
    rw [excess_append, excess_replicate j rfl]
    omega

/-- The text of a program with parentheses around the left operand of a product. -/
def productText : String := "int main(void) \x7b return (1 + 2) * 3; \x7d"

theorem slices_read_back_productText :
    ∃ ts tree e, tokens productText = .ok ts ∧ ofTokens ts = .ok tree ∧
      (Node.program tree).Contains (.expr e) ∧ e.span.slice productText = "1 + 2) * 3" ∧
      readBack? "1 + 2) * 3" = none ∧ readBack? "(1 + 2) * 3" = some (.returning e.bare) := by
  have hchars : productText.toList = _ := String.toList_ofList
  have h : ((tokens productText).toOption.bind fun ts => (ofTokens ts).toOption.bind fun tree =>
      tree.returned?.bind fun e => some (e.span.slice productText).toList) =
      some "1 + 2) * 3".toList := by
    simp only [tokens, Span.slice, hchars]
    decide +kernel
  obtain ⟨ts, hts, h⟩ := toOption_bind_eq_some.1 h
  obtain ⟨tree, htree, h⟩ := toOption_bind_eq_some.1 h
  obtain ⟨e, he, h⟩ := Option.bind_eq_some_iff.1 h
  have hslice : e.span.slice productText = "1 + 2) * 3" :=
    String.toList_injective (Option.some.inj h)
  have hcontains := contains_of_returned? he
  obtain ⟨us, k, hus, hexcess, hread⟩ := slices_read_back hts htree hcontains
  have hone : ((tokens "1 + 2) * 3").toOption.bind fun us =>
      some (excess (us.map Token.lexeme))) = some (-1) := by
    decide +kernel
  rw [hslice] at hus hread
  rw [hus] at hone
  obtain rfl : k = 1 := by
    have hk : excess (us.map Token.lexeme) = -1 := Option.some.inj hone
    omega
  exact ⟨ts, tree, e, hts, htree, hcontains, hslice, hread 0, hread 1⟩

end Program

end IntegerC
