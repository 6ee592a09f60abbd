import Mathlib.Data.List.Chain
import IntegerC.Proofs.Grammar.Completeness
import IntegerC.Proofs.Grammar.Lexemes

set_option autoImplicit false

/-! # Commas in front of a parenthesis

The two grammars differ in one point only: a list without a comma directly in front of a closing
parenthesis is derived by both or by neither, and one with such a comma is not derived without the
argument `lax`.
-/

namespace IntegerC

/-- No comma stands directly in front of a closing parenthesis. -/
def CommasSeparate (ls : List Lexeme) : Prop :=
  ls.IsChain fun l r => l.kind = .punct .comma → r.kind ≠ .punct .rightParen

instance (ls : List Lexeme) : Decidable (CommasSeparate ls) :=
  inferInstanceAs (Decidable (ls.IsChain _))

namespace CommasSeparate

variable {l : Lexeme} {ls rs : List Lexeme}

theorem left (h : CommasSeparate (ls ++ rs)) : CommasSeparate ls := h.left_of_append

theorem right (h : CommasSeparate (ls ++ rs)) : CommasSeparate rs := h.right_of_append

theorem behind (h : CommasSeparate (l :: ls)) : CommasSeparate ls := h.tail

end CommasSeparate

/-! ## Lists without such a comma -/

/-- In front of a parenthesis a comma behind the last piece would show. -/
theorem Separated.strict {pieces : List (List Lexeme)} {ls : List Lexeme} {r : Lexeme}
    (h : Separated true pieces ls) (hr : r.kind = .punct .rightParen)
    (hls : CommasSeparate (ls ++ [r])) : Separated false pieces ls := by
  induction h with
  | nil => exact .nil
  | single => exact .single
  | @cons _ rest pieces comma hcomma _ h ih =>
      rw [List.append_assoc] at hls
      refine .cons hcomma (fun _ hpieces => ?_) (ih hls.right.behind)
      subst hpieces
      rw [h.eq_nil] at hls
      exact List.IsChain.rel_head? hls.right rfl hcomma hr

/-- Where no comma stands in front of a closing parenthesis, the strict grammar derives what the
other one does. -/
theorem Expr.Derives.strict {p : Nat} {ls : List Lexeme} {e : Expr} (h : e.Derives true p ls)
    (hls : CommasSeparate ls) : e.Derives false p ls := by
  induction h with
  | constant q hl hk => exact .constant q hl hk
  | var q hx => exact .var q hx
  | call q hf hl args _ hargs hr ih =>
      have hinside := hls.behind.behind
      refine .call q hf hl args (fun a ha => ih a ha ?_) (hargs.strict hr hinside) hr
      exact List.IsChain.infix hinside.left (hargs.isInfix _ (List.mem_map_of_mem ha))
  | parens hl _ hr ih => exact .parens hl (ih hls.behind.left) hr
  | cast q hl hs hr _ ih => exact .cast q hl hs hr (ih hls.behind.right.behind)
  | unary q hl hop _ ih => exact .unary q hl hop (ih hls.behind)
  | binary q hp _ hl _ iha ihb => exact .binary q hp (iha hls.left) hl (ihb hls.right.behind)
  | assignment q hp _ hl _ iha ihb =>
      exact .assignment q hp (iha hls.left) hl (ihb hls.right.behind)
  | conditional q hp _ hl _ hm _ iha ihb ihc =>
      exact .conditional q hp (iha hls.left) hl (ihb hls.right.behind.left) hm
        (ihc hls.right.behind.right.behind)

theorem Expr.OptionDerives.strict {ls : List Lexeme} {o : Option Expr}
    (h : Expr.OptionDerives true ls o) (hls : CommasSeparate ls) :
    Expr.OptionDerives false ls o := by
  cases h with
  | none => exact .none
  | some h => exact .some (h.strict hls)

theorem Expr.InitializerDerives.strict {ls : List Lexeme} {o : Option Expr}
    (h : Expr.InitializerDerives true ls o) (hls : CommasSeparate ls) :
    Expr.InitializerDerives false ls o := by
  cases h with
  | none => exact .none
  | some hl h => exact .some hl (h.strict hls.behind)

theorem Expr.Parenthesized.strict {ls : List Lexeme} {e : Expr} (h : e.Parenthesized true ls)
    (hls : CommasSeparate ls) : e.Parenthesized false ls := by
  cases h with
  | mk hl h hr => exact .mk hl (h.strict hls.behind.left) hr

theorem Param.AllDerive.strict {ls : List Lexeme} {ps : List Param}
    (h : Param.AllDerive true ls ps) (hls : CommasSeparate ls) : Param.AllDerive false ls ps := by
  cases h with
  | nothing hl hv hr => exact .nothing hl hv hr
  | some hl params hne hparams h hr =>
      exact .some hl params hne hparams (h.strict hr hls.behind) hr

theorem Phrase.Derives.strict {ls : List Lexeme} {x : Phrase} (h : x.Derives true ls)
    (hls : CommasSeparate ls) : x.Derives false ls := by
  induction h with
  | ret q hk he hr => exact .ret q hk (he.strict hls.behind.left) hr
  | ifThen q hk hc _ ih => exact .ifThen q hk (hc.strict hls.behind.left) (ih hls.behind.right)
  | ifElse q hk hc _ hclosed ho _ ihyes ihno =>
      exact .ifElse q hk (hc.strict hls.behind.left) (ihyes hls.behind.right.left) hclosed ho
        (ihno hls.behind.right.right.behind)
  | compound q _ ih => exact .compound q (ih hls)
  | breakLoop q hk hr => exact .breakLoop q hk hr
  | continueLoop q hk hr => exact .continueLoop q hk hr
  | whileLoop q hk hc _ ih =>
      exact .whileLoop q hk (hc.strict hls.behind.left) (ih hls.behind.right)
  | doLoop q hk _ hw hc hr ih =>
      exact .doLoop q hk (ih hls.behind.left) hw (hc.strict hls.behind.right.behind.left) hr
  | forLoop q hk hl _ hc hs hpost hr _ ihinit ihbody =>
      have hheader := hls.behind.behind
      exact .forLoop q hk hl (ihinit hheader.left) (hc.strict hheader.right.left) hs
        (hpost.strict hheader.right.right.behind.left) hr
        (ihbody hheader.right.right.behind.right.behind)
  | null q hr => exact .null q hr
  | expr q he hr => exact .expr q (he.strict hls.left) hr
  | stmtItem _ ih => exact .stmtItem (ih hls)
  | declItem _ ih => exact .declItem (ih hls)
  | block hl items _ hr ih =>
      refine .block hl items (fun x hx => ih x hx ?_) hr
      exact hls.behind.left.infix (List.infix_of_mem_flatten (List.mem_map_of_mem hx))
  | var q hs hx hinit hr => exact .var q hs hx (hinit.strict hls.right.behind.left) hr
  | prototype q hs hx hparams hr =>
      exact .prototype q hs hx (hparams.strict hls.right.behind.left) hr
  | function q q' hs hx hparams _ ih =>
      exact .function q q' hs hx (hparams.strict hls.right.behind.left) (ih hls.right.behind.right)
  | declInit _ ih => exact .declInit (ih hls)
  | noInit hr => exact .noInit hr
  | exprInit he hr => exact .exprInit (he.strict hls.left) hr

theorem Program.Derives.strict {ls : List Lexeme} {p : Program} (h : p.Derives true ls)
    (hls : CommasSeparate ls) : p.Derives false ls := by
  cases h with
  | mk q decls h =>
      refine .mk q decls fun x hx => (h x hx).strict ?_
      exact List.IsChain.infix hls (List.infix_of_mem_flatten (List.mem_map_of_mem hx))

/-! ## Derivations without the argument -/

/-- A list without such a comma and without one at its end, so that anything may stand behind it. -/
structure Neat (ls : List Lexeme) : Prop where
  separate : CommasSeparate ls
  last : ∀ l ∈ ls.getLast?, l.kind ≠ .punct .comma

namespace Neat

variable {l : Lexeme} {ls rs : List Lexeme}

theorem nil : Neat [] := ⟨.nil, by simp⟩

/-- Two lists of neat lexemes stay neat behind each other. -/
theorem append (hls : Neat ls) (hrs : Neat rs) : Neat (ls ++ rs) := by
  refine ⟨List.isChain_append.2 ⟨hls.separate, hrs.separate, ?_⟩, fun l hl => ?_⟩
  · intro l hl r _ hcomma
    exact absurd hcomma (hls.last l hl)
  · rw [List.getLast?_append, Option.mem_def, Option.or_eq_some_iff] at hl
    rcases hl with hl | ⟨-, hl⟩
    · exact hrs.last l hl
    · exact hls.last l hl

theorem single {k : TokenKind} (hl : l.kind = k) (hk : k ≠ .punct .comma) : Neat [l] :=
  ⟨.singleton l, fun _ h => Option.mem_some.1 h ▸ hl ▸ hk⟩

theorem cons {k : TokenKind} (hl : l.kind = k) (hk : k ≠ .punct .comma) (hls : Neat ls) :
    Neat (l :: ls) :=
  (single hl hk).append hls

theorem flatten {pieces : List (List Lexeme)} (h : ∀ x ∈ pieces, Neat x) : Neat pieces.flatten := by
  induction pieces with
  | nil => exact nil
  | cons x pieces ih =>
      obtain ⟨hx, hpieces⟩ := List.forall_mem_cons.1 h
      exact hx.append (ih hpieces)

end Neat

/-- Specifiers are words, so no comma stands among them. -/
theorem Specifiers.Derives.neat {ls : List Lexeme} {s : Specifiers} (h : s.Derives ls) :
    Neat ls := by
  obtain ⟨words, hkinds, -⟩ := h
  induction ls generalizing words with
  | nil => exact .nil
  | cons l ls ih =>
      obtain ⟨w, words, rfl, hw, hkinds⟩ := List.map_eq_cons_iff.1 hkinds.symm
      exact .cons hw.symm nofun (ih words hkinds.symm)

/-- A comma between two pieces stands in front of what a piece begins with. -/
theorem Separated.neat {pieces : List (List Lexeme)} {ls : List Lexeme}
    (h : Separated false pieces ls) (hneat : ∀ x ∈ pieces, Neat x)
    (hbegins : ∀ x ∈ pieces, Parser.Begins (· ≠ .punct .rightParen) x) : Neat ls := by
  induction h with
  | nil => exact .nil
  | single => exact hneat _ List.mem_cons_self
  | @cons ls rest pieces comma hcomma hlast h ih =>
      obtain ⟨hls, hneat⟩ := List.forall_mem_cons.1 hneat
      have hbegins := (List.forall_mem_cons.1 hbegins).2
      have hrest := ih hneat hbegins
      obtain ⟨u, us, rfl, hu⟩ := Parser.begins_separated h (hlast rfl) hbegins
      refine hls.append ⟨hrest.separate.cons_cons fun _ => hu, fun l hl => hrest.last l ?_⟩
      rwa [List.getLast?_cons_cons] at hl

/-- In the strict grammar no comma stands in front of a closing parenthesis or at the end. -/
theorem Expr.Derives.neat {p : Nat} {ls : List Lexeme} {e : Expr} (h : e.Derives false p ls) :
    Neat ls := by
  induction h with
  | constant q hl => exact .single hl nofun
  | var q hx => exact .single hx nofun
  | call q hf hl args hargs h hr ih =>
      refine .cons hf nofun (.cons hl nofun
        ((h.neat (List.forall_mem_map.2 ih) (List.forall_mem_map.2 fun a ha => ?_)).append
          (.single hr nofun)))
      obtain ⟨u, us, hu, hfirst⟩ := (hargs a ha).exists_cons
      exact ⟨u, us, hu, fun hk => by rw [hk] at hfirst; cases hfirst⟩
  | parens hl _ hr ih => exact .cons hl nofun (ih.append (.single hr nofun))
  | cast q hl hs hr _ ih => exact .cons hl nofun (hs.neat.append (.cons hr nofun ih))
  | unary q hl hop _ ih =>
      refine .cons hl (fun h => ?_) ih
      rw [TokenKind.punct.inj h] at hop
      cases hop
  | binary q _ _ hl _ iha ihb | assignment q _ _ hl _ iha ihb =>
      exact iha.append (.cons rfl (fun h => by rw [h] at hl; cases hl) ihb)
  | conditional q _ _ hl _ hm _ iha ihb ihc =>
      exact iha.append (.cons rfl (fun h => by rw [h] at hl; cases hl)
        (ihb.append (.cons hm nofun ihc)))

theorem Expr.OptionDerives.neat {ls : List Lexeme} {o : Option Expr}
    (h : Expr.OptionDerives false ls o) : Neat ls := by
  cases h with
  | none => exact .nil
  | some h => exact h.neat

theorem Expr.InitializerDerives.neat {ls : List Lexeme} {o : Option Expr}
    (h : Expr.InitializerDerives false ls o) : Neat ls := by
  cases h with
  | none => exact .nil
  | some hl h => exact .cons hl nofun h.neat

theorem Expr.Parenthesized.neat {ls : List Lexeme} {e : Expr} (h : e.Parenthesized false ls) :
    Neat ls := by
  cases h with
  | mk hl h hr => exact .cons hl nofun (h.neat.append (.single hr nofun))

theorem Param.Derives.neat {ls : List Lexeme} {p : Param} (h : p.Derives ls) : Neat ls := by
  cases h with
  | mk q hs hx => exact hs.neat.append (.single hx nofun)

/-- A parameter list in the grammar without a trailing comma is neat. -/
theorem Param.AllDerive.neat {ls : List Lexeme} {ps : List Param}
    (h : Param.AllDerive false ls ps) : Neat ls := by
  cases h with
  | nothing hl hv hr => exact .cons hl nofun (.cons hv nofun (.single hr nofun))
  | some hl params _ hparams h hr =>
      refine .cons hl nofun
        ((h.neat (List.forall_mem_map.2 fun x hx => (hparams x hx).neat)
          (List.forall_mem_map.2 fun x hx => ?_)).append (.single hr nofun))
      obtain ⟨u, us, hu, hfirst⟩ := Parser.begins_parameter (hparams x hx)
      exact ⟨u, us, hu, fun hk => by rw [hk] at hfirst; cases hfirst⟩

theorem Phrase.Derives.neat {ls : List Lexeme} {x : Phrase} (h : x.Derives false ls) :
    Neat ls := by
  induction h with
  | ret q hk he hr => exact .cons hk nofun (he.neat.append (.single hr nofun))
  | ifThen q hk hc _ ih | whileLoop q hk hc _ ih =>
      exact .cons hk nofun (hc.neat.append ih)
  | ifElse q hk hc _ _ ho _ ihyes ihno =>
      exact .cons hk nofun (hc.neat.append (ihyes.append (.cons ho nofun ihno)))
  | compound q _ ih | stmtItem _ ih | declItem _ ih | declInit _ ih => exact ih
  | breakLoop q hk hr | continueLoop q hk hr => exact .cons hk nofun (.single hr nofun)
  | doLoop q hk _ hw hc hr ih =>
      exact .cons hk nofun (ih.append (.cons hw nofun (hc.neat.append (.single hr nofun))))
  | forLoop q hk hl _ hc hs hpost hr _ ihinit ihbody =>
      exact .cons hk nofun (.cons hl nofun (ihinit.append (hc.neat.append
        (.cons hs nofun (hpost.neat.append (.cons hr nofun ihbody))))))
  | null q hr | noInit hr => exact .single hr nofun
  | expr q he hr | exprInit he hr => exact he.neat.append (.single hr nofun)
  | block hl items _ hr ih =>
      exact .cons hl nofun ((Neat.flatten (List.forall_mem_map.2 ih)).append (.single hr nofun))
  | var q hs hx hinit hr =>
      exact hs.neat.append (.cons hx nofun (hinit.neat.append (.single hr nofun)))
  | prototype q hs hx hparams hr =>
      exact hs.neat.append (.cons hx nofun (hparams.neat.append (.single hr nofun)))
  | function q q' hs hx hparams _ ih =>
      exact hs.neat.append (.cons hx nofun (hparams.neat.append ih))

theorem Program.Derives.neat {ls : List Lexeme} {p : Program} (h : p.Derives false ls) :
    Neat ls := by
  cases h with
  | mk q decls h => exact Neat.flatten (List.forall_mem_map.2 fun x hx => (h x hx).neat)

/-! ## What is read -/

namespace Program

/-- A list of tokens that ends with its only end of the input is derived by the grammar, with commas
only between two arguments or parameters, exactly if it is read and no comma in it stands directly
in front of a closing parenthesis. What is read is then, up to spans, the tree derived. -/
theorem derives_iff_reads {ts : List Token} {last : Token} (h : EndsOnce ts last)
    (tree : Program) :
    (∃ p : Program, p.bare = tree ∧ p.Derives false (ts.map Token.lexeme)) ↔
      (∃ p : Program, p.bare = tree ∧ ofTokens (ts ++ [last]) = .ok p) ∧
        CommasSeparate (ts.map Token.lexeme) := by
  constructor
  · rintro ⟨p, hp, hderives⟩
    obtain ⟨p', hread, hp'⟩ := (ofTokens_of_derives h hderives).exists_ok
    exact ⟨⟨p', hp'.trans hp, hread⟩, hderives.neat.separate⟩
  · rintro ⟨⟨p, hp, hread⟩, hcommas⟩
    exact ⟨p, hp, (derives_of_ofTokens h hread).strict hcommas⟩

/-- The text of a program with a comma behind the last argument of a call. -/
def trailingCommaText : String := "int main(void) \x7b return f(1,); \x7d"

theorem derives_iff_reads_trailingCommaText :
    ∃ ts last p, tokens trailingCommaText = .ok (ts ++ [last]) ∧ EndsOnce ts last ∧
      ofTokens (ts ++ [last]) = .ok p ∧ p.Derives true (ts.map Token.lexeme) ∧
      ¬ ∃ p' : Program, p'.bare = p.bare ∧ p'.Derives false (ts.map Token.lexeme) := by
  have h : ((tokens trailingCommaText).toOption.bind fun ts => (ofTokens ts).toOption.bind fun _ =>
      some (decide (CommasSeparate (ts.dropLast.map Token.lexeme)))) = some false := by
    decide +kernel
  obtain ⟨ts, hts, h⟩ := toOption_bind_eq_some.1 h
  obtain ⟨p, hp, h⟩ := toOption_bind_eq_some.1 h
  obtain ⟨front, last, rfl, hends, -⟩ := tokens_endsOnce hts
  rw [List.dropLast_concat] at h
  refine ⟨front, last, p, hts, hends, hp, derives_of_ofTokens hends hp, fun hderives => ?_⟩
  exact of_decide_eq_false (Option.some.inj h) ((derives_iff_reads hends p.bare).1 hderives).2

end Program

end IntegerC
