import IntegerC.Proofs.Grammar

set_option autoImplicit false

/-! # Parentheses in pairs

`excess` counts the opening parentheses among some lexemes less the closing ones. It is zero for
whatever the grammar derives: each rule puts parentheses down in pairs.
-/

namespace IntegerC

namespace TokenKind

/-- How a token of this kind changes the number of open parentheses. -/
def opens : TokenKind → Int
  | .punct .leftParen => 1
  | .punct .rightParen => -1
  | _ => 0

@[simp] theorem opens_leftParen : opens (.punct .leftParen) = 1 := rfl

@[simp] theorem opens_rightParen : opens (.punct .rightParen) = -1 := rfl

@[simp] theorem opens_keyword (k : Keyword) : opens (.keyword k) = 0 := rfl

@[simp] theorem opens_constant (s : Suffix) : opens (.constant s) = 0 := rfl

@[simp] theorem opens_identifier : opens .identifier = 0 := rfl

@[simp] theorem opens_endOfInput : opens .endOfInput = 0 := rfl

@[simp] theorem opens_punct {p : Punct} (hl : p ≠ .leftParen) (hr : p ≠ .rightParen) :
    opens (.punct p) = 0 := by
  unfold opens
  split <;> simp_all

/-- No operator between operands is a parenthesis. -/
theorem opens_of_joint? {k : TokenKind} {j : Joint} (h : k.joint? = some j) : k.opens = 0 := by
  unfold opens
  split
  · cases h
  · cases h
  · rfl

/-- No operator in front of an operand is a parenthesis. -/
theorem opens_of_unaryOp? {c : Punct} {op : UnaryOp} (h : c.unaryOp? = some op) :
    opens (.punct c) = 0 :=
  opens_punct (fun hc => by rw [hc] at h; cases h) (fun hc => by rw [hc] at h; cases h)

end TokenKind

/-! ## Lists -/

/-- The opening parentheses less the closing ones. -/
def excess : List Lexeme → Int
  | [] => 0
  | l :: ls => l.kind.opens + excess ls

@[simp] theorem excess_nil : excess [] = 0 := rfl

@[simp] theorem excess_cons (l : Lexeme) (ls : List Lexeme) :
    excess (l :: ls) = l.kind.opens + excess ls := rfl

@[simp] theorem excess_append (ls rs : List Lexeme) :
    excess (ls ++ rs) = excess ls + excess rs := by
  induction ls with
  | nil => simp
  | cons l ls ih => rw [List.cons_append, excess_cons, ih, excess_cons, Int.add_assoc]

theorem excess_flatten {pieces : List (List Lexeme)} (h : ∀ x ∈ pieces, excess x = 0) :
    excess pieces.flatten = 0 := by
  induction pieces with
  | nil => rfl
  | cons x pieces ih =>
      obtain ⟨hx, hpieces⟩ := List.forall_mem_cons.1 h
      rw [List.flatten_cons, excess_append, hx, ih hpieces, Int.add_zero]

theorem excess_replicate (n : Nat) {l : Lexeme} (h : l.kind = .punct .leftParen) :
    excess (List.replicate n l) = n := by
  induction n with
  | zero => rfl
  | succ n ih =>
      rw [List.replicate_succ, excess_cons, h, ih, TokenKind.opens_leftParen]
      omega

/-! ## Expressions -/

/-- Specifiers hold no parenthesis. -/
theorem Specifiers.Derives.excess_eq {ls : List Lexeme} {s : Specifiers} (h : s.Derives ls) :
    excess ls = 0 := by
  obtain ⟨words, hkinds, -⟩ := h
  induction ls generalizing words with
  | nil => rfl
  | cons l ls ih =>
      obtain ⟨w, words, rfl, hw, hkinds⟩ := List.map_eq_cons_iff.1 hkinds.symm
      simp [← hw, ih words hkinds.symm]

/-- Pieces that balance their parentheses balance together, since separators are commas. -/
theorem Separated.excess_eq {lax : Bool} {pieces : List (List Lexeme)} {ls : List Lexeme}
    (h : Separated lax pieces ls) (hpieces : ∀ x ∈ pieces, excess x = 0) : excess ls = 0 := by
  induction h with
  | nil => rfl
  | single => exact hpieces _ List.mem_cons_self
  | cons hcomma _ _ ih =>
      obtain ⟨hls, hpieces⟩ := List.forall_mem_cons.1 hpieces
      simp [hls, hcomma, ih hpieces]

/-- Parentheses in an expression are balanced. -/
theorem Expr.Derives.excess_eq {lax : Bool} {p : Nat} {ls : List Lexeme} {e : Expr}
    (h : e.Derives lax p ls) : excess ls = 0 := by
  induction h with
  | constant q hl => simp [hl]
  | var q hx => simp [hx]
  | call q hf hl args _ hls hr ih =>
      simp [hf, hl, hr, hls.excess_eq (List.forall_mem_map.2 ih)]
  | parens hl _ hr ih => simp [hl, hr, ih]
  | cast q hl hs hr _ ih => simp [hl, hr, hs.excess_eq, ih]
  | unary q hl hop _ ih => simp [hl, ih, TokenKind.opens_of_unaryOp? hop]
  | binary q _ _ hl _ iha ihb | assignment q _ _ hl _ iha ihb =>
      simp [iha, ihb, TokenKind.opens_of_joint? hl]
  | conditional q _ _ hl _ hm _ iha ihb ihc =>
      simp [iha, ihb, ihc, hm, TokenKind.opens_of_joint? hl]

theorem Expr.OptionDerives.excess_eq {lax : Bool} {ls : List Lexeme} {o : Option Expr}
    (h : Expr.OptionDerives lax ls o) : excess ls = 0 := by
  cases h with
  | none => rfl
  | some h => exact h.excess_eq

theorem Expr.InitializerDerives.excess_eq {lax : Bool} {ls : List Lexeme} {o : Option Expr}
    (h : Expr.InitializerDerives lax ls o) : excess ls = 0 := by
  cases h with
  | none => rfl
  | some hl h => simp [hl, h.excess_eq]

theorem Expr.Parenthesized.excess_eq {lax : Bool} {ls : List Lexeme} {e : Expr}
    (h : e.Parenthesized lax ls) : excess ls = 0 := by
  cases h with
  | mk hl h hr => simp [hl, hr, h.excess_eq]

/-! ## Statements and declarations -/

theorem Param.Derives.excess_eq {ls : List Lexeme} {p : Param} (h : p.Derives ls) :
    excess ls = 0 := by
  cases h with
  | mk q hs hx => simp [hs.excess_eq, hx]

theorem Param.AllDerive.excess_eq {lax : Bool} {ls : List Lexeme} {ps : List Param}
    (h : Param.AllDerive lax ls ps) : excess ls = 0 := by
  cases h with
  | nothing hl hv hr => simp [hl, hv, hr]
  | some hl params _ hparams h hr =>
      have hpieces := h.excess_eq (List.forall_mem_map.2 fun x hx => (hparams x hx).excess_eq)
      simp [hl, hr, hpieces]

/-- A phrase has as many closing parentheses as opening ones. -/
theorem Phrase.Derives.excess_eq {lax : Bool} {ls : List Lexeme} {x : Phrase}
    (h : x.Derives lax ls) : excess ls = 0 := by
  induction h with
  | ret q hk he hr => simp [hk, he.excess_eq, hr]
  | ifThen q hk hc _ ih | whileLoop q hk hc _ ih => simp [hk, hc.excess_eq, ih]
  | ifElse q hk hc _ _ ho _ ihyes ihno => simp [hk, hc.excess_eq, ihyes, ho, ihno]
  | compound q _ ih | stmtItem _ ih | declItem _ ih | declInit _ ih => exact ih
  | breakLoop q hk hr | continueLoop q hk hr => simp [hk, hr]
  | doLoop q hk _ hw hc hr ih => simp [hk, ih, hw, hc.excess_eq, hr]
  | forLoop q hk hl _ hc hs hpost hr _ ihinit ihbody =>
      simp [hk, hl, ihinit, hc.excess_eq, hs, hpost.excess_eq, hr, ihbody]
  | null q hr | noInit hr => simp [hr]
  | expr q he hr | exprInit he hr => simp [he.excess_eq, hr]
  | block hl items _ hr ih =>
      simp [hl, excess_flatten (List.forall_mem_map.2 ih), hr]
  | var q hs hx hinit hr => simp [hs.excess_eq, hx, hinit.excess_eq, hr]
  | prototype q hs hx hparams hr =>
      simp [hs.excess_eq, hx, hparams.excess_eq, hr]
  | function q q' hs hx hparams _ ih => simp [hs.excess_eq, hx, hparams.excess_eq, ih]

theorem Program.Derives.excess_eq {lax : Bool} {ls : List Lexeme} {p : Program}
    (h : p.Derives lax ls) : excess ls = 0 := by
  cases h with
  | mk q decls h => exact excess_flatten (List.forall_mem_map.2 fun x hx => (h x hx).excess_eq)

/-! ## Texts of punctuators -/

/-- Lexemes may be replaced by others of the same kinds, as long as identifiers and constants keep
their text. -/
structure Lexeme.Keeps (f : Lexeme → Lexeme) : Prop where
  kind : ∀ l, (f l).kind = l.kind
  identifier : ∀ l, l.kind = .identifier → (f l).text = l.text
  constant : ∀ l s, l.kind = .constant s → (f l).text = l.text

section

variable {f : Lexeme → Lexeme}

theorem Specifiers.Derives.map (hf : Lexeme.Keeps f) {ls : List Lexeme} {s : Specifiers}
    (h : s.Derives ls) : s.Derives (ls.map f) := by
  obtain ⟨words, hkinds, hnamed⟩ := h
  refine ⟨words, ?_, hnamed⟩
  rw [← hkinds, List.map_map]
  exact List.map_congr_left fun l _ => hf.kind l

/-- A change of lexemes that keeps their kinds keeps the separation of pieces. -/
theorem Separated.map (hf : Lexeme.Keeps f) {lax : Bool} {pieces : List (List Lexeme)}
    {ls : List Lexeme} (h : Separated lax pieces ls) :
    Separated lax (pieces.map (List.map f)) (ls.map f) := by
  induction h with
  | nil => exact .nil
  | single => exact .single
  | cons hcomma hlast _ ih =>
      rw [List.map_append, List.map_cons, List.map_cons]
      exact .cons ((hf.kind _).trans hcomma) (by simpa using hlast) ih

/-- A derivation asks for kinds, and for the texts of identifiers and constants, so it survives a
map that keeps these. -/
theorem Expr.Derives.map (hf : Lexeme.Keeps f) {lax : Bool} {p : Nat} {ls : List Lexeme} {e : Expr}
    (h : e.Derives lax p ls) : e.Derives lax p (ls.map f) := by
  induction h with
  | constant q hl hk =>
      exact .constant q ((hf.kind _).trans hl) (by rwa [hf.constant _ _ hl])
  | var q hx =>
      rw [← hf.identifier _ hx]
      exact .var q ((hf.kind _).trans hx)
  | @call p g l r ls q hg hl args _ hls hr ih =>
      have hpieces := hls.map hf
      rw [List.map_map] at hpieces
      have hcall := Expr.Derives.call (p := p) q ((hf.kind _).trans hg) ((hf.kind _).trans hl)
        (args.map fun a => (a.1.map f, a.2)) (List.forall_mem_map.2 ih)
        (by rw [List.map_map]; exact hpieces) ((hf.kind _).trans hr)
      rw [hf.identifier _ hg, List.map_map] at hcall
      rw [List.map_cons, List.map_cons, List.map_append]
      exact hcall
  | parens hl _ hr ih =>
      rw [List.map_cons, List.map_append]
      exact .parens ((hf.kind _).trans hl) ih ((hf.kind _).trans hr)
  | cast q hl hs hr _ ih =>
      rw [List.map_cons, List.map_append, List.map_cons]
      exact .cast q ((hf.kind _).trans hl) (hs.map hf) ((hf.kind _).trans hr) ih
  | unary q hl hop _ ih => exact .unary q ((hf.kind _).trans hl) hop ih
  | binary q hp _ hl _ iha ihb =>
      rw [List.map_append, List.map_cons]
      exact .binary q hp iha (by rwa [hf.kind]) ihb
  | assignment q hp _ hl _ iha ihb =>
      rw [List.map_append, List.map_cons]
      exact .assignment q hp iha (by rwa [hf.kind]) ihb
  | conditional q hp _ hl _ hm _ iha ihb ihc =>
      rw [List.map_append, List.map_cons, List.map_append, List.map_cons]
      exact .conditional q hp iha (by rwa [hf.kind]) ihb ((hf.kind _).trans hm) ihc

end

end IntegerC
