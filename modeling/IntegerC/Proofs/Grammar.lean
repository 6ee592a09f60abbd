import IntegerC.Proofs.Ensures
import IntegerC.Syntax.Specifier

set_option autoImplicit false

/-! # The grammar

Which lists of tokens are expressions, statements, declarations and programs, and of which trees
they are. The spans of a tree are left open, since the grammar does not know where a token stands.
What is not part of it is how a list is taken apart.

Each relation has an argument `lax`. If it holds, a comma may stand behind the last argument of a
call and behind the last parameter of a function; otherwise commas only stand between two of them.
-/

namespace IntegerC

/-! ## Lexemes -/

/-- What the grammar sees of a token. -/
structure Lexeme where
  kind : TokenKind
  text : String
deriving Repr, DecidableEq

def Token.lexeme (t : Token) : Lexeme := ⟨t.kind, t.text⟩

/-- The joint that a token of this kind behind an operand stands for. -/
def TokenKind.joint? : TokenKind → Option Joint
  | .punct p => Joint.ofPunct? p
  | _ => none

/-! ## How operators bind -/

namespace Joint

/-- How tightly the left operand of a joint has to bind: only operators with two operands associate
to the left. -/
def left : Joint → Nat
  | j@(binary _) => j.strength
  | j => j.strength + 1

/-- How tightly the right operand of a joint has to bind: the conditional and the assignment
associate to the right. -/
def right : Joint → Nat
  | j@(binary _) => j.strength + 1
  | j => j.strength

/-- How tightly the operand of a unary operator or a cast has to bind: more tightly than every
joint. -/
def tightest : Nat := 51

theorem strength_lt_tightest (j : Joint) : j.strength < tightest := by
  rcases j with (op | op | op | op) | _ | _
  all_goals first | decide | (cases op <;> decide)

/-- Between two joints an operand goes to the left exactly if it could not go to the right. -/
theorem left_le_iff (j k : Joint) : k.left ≤ j.strength ↔ k.strength < j.right := by
  rcases j with (a | a | a | a) | _ | _ <;> rcases k with (b | b | b | b) | _ | _
  all_goals first
    | decide
    | (cases a <;> decide)
    | (cases b <;> decide)
    | (cases a <;> cases b <;> decide)

theorem left_le_tightest (j : Joint) : j.left ≤ tightest := by
  have h := j.strength_lt_tightest
  cases j with
  | binary op => exact Nat.le_of_lt h
  | conditional | assignment => exact h

theorem strength_le_right (j : Joint) : j.strength ≤ j.right := by
  cases j <;> simp [right]

theorem strength_le_left (j : Joint) : j.strength ≤ j.left := by
  cases j <;> simp [left]

end Joint

/-! ## Specifiers -/

/-- Words in any order that name a type with an optional storage class: at least one type word, none
of them twice and not both signs, and at most one storage class. -/
structure Specifiers.Named (words : List Keyword) (s : Specifiers) : Prop where
  each : ∀ w ∈ words, w.isTypeWord ∨ w.storage?.isSome
  type_word : ∃ w ∈ words, w.isTypeWord
  once : (words.filter Keyword.isTypeWord).Nodup
  sign : .signedKw ∈ words → .unsignedKw ∉ words
  type : s.type =
    if .unsignedKw ∈ words then if .longKw ∈ words then .unsignedLong else .unsignedInt
    else if .longKw ∈ words then .long else .int
  storage : words.filterMap Keyword.storage? = s.storage.toList

def Specifiers.Derives (ls : List Lexeme) (s : Specifiers) : Prop :=
  ∃ words, ls.map Lexeme.kind = words.map .keyword ∧ s.Named words

/-! ## Lists with commas -/

/-- Pieces with commas between them. -/
inductive Separated (lax : Bool) : List (List Lexeme) → List Lexeme → Prop
  | nil : Separated lax [] []
  | single {ls : List Lexeme} : Separated lax [ls] ls
  | cons {ls rest : List Lexeme} {pieces : List (List Lexeme)} {comma : Lexeme}
      (hcomma : comma.kind = .punct .comma) (hlast : lax = false → pieces ≠ [])
      (h : Separated lax pieces rest) : Separated lax (ls :: pieces) (ls ++ comma :: rest)

theorem Separated.eq_nil {lax : Bool} {ls : List Lexeme} (h : Separated lax [] ls) : ls = [] := by
  cases h
  rfl

/-- Each piece is a part of the list. -/
theorem Separated.isInfix {lax : Bool} {pieces : List (List Lexeme)} {ls : List Lexeme}
    (h : Separated lax pieces ls) : ∀ x ∈ pieces, x <:+: ls := by
  induction h with
  | nil => nofun
  | single => exact List.forall_mem_singleton.2 (List.infix_refl _)
  | @cons ls rest _ comma _ _ _ ih =>
      refine List.forall_mem_cons.2 ⟨⟨[], comma :: rest, rfl⟩, fun x hx => ?_⟩
      exact (ih x hx).trans ⟨ls ++ [comma], [], by simp⟩

/-! ## Expressions -/

/-- Lexemes that spell an expression whose operators outside parentheses all bind at least as
tightly as the number says. -/
inductive Expr.Derives (lax : Bool) : Nat → List Lexeme → Expr → Prop
  | constant {p : Nat} {l : Lexeme} {s : Suffix} {k : Constant} (q : Span)
      (hl : l.kind = .constant s) (hk : s.constant? l.text = some k) :
      Derives lax p [l] (.constant q.note k)
  | var {p : Nat} {x : Lexeme} (q : Span) (hx : x.kind = .identifier) :
      Derives lax p [x] (.var q.note x.text)
  | call {p : Nat} {f l r : Lexeme} {ls : List Lexeme} (q : Span) (hf : f.kind = .identifier)
      (hl : l.kind = .punct .leftParen) (args : List (List Lexeme × Expr))
      (hargs : ∀ a ∈ args, Derives lax 0 a.1 a.2) (hls : Separated lax (args.map Prod.fst) ls)
      (hr : r.kind = .punct .rightParen) :
      Derives lax p (f :: l :: (ls ++ [r])) (.call q.note f.text (args.map Prod.snd))
  | parens {p : Nat} {l r : Lexeme} {ls : List Lexeme} {e : Expr}
      (hl : l.kind = .punct .leftParen) (h : Derives lax 0 ls e)
      (hr : r.kind = .punct .rightParen) : Derives lax p (l :: (ls ++ [r])) e
  | cast {p : Nat} {l r : Lexeme} {ws ls : List Lexeme} {t : IntType} {a : Expr} (q : Span)
      (hl : l.kind = .punct .leftParen) (hs : Specifiers.Derives ws ⟨t, none⟩)
      (hr : r.kind = .punct .rightParen) (ha : Derives lax Joint.tightest ls a) :
      Derives lax p (l :: (ws ++ r :: ls)) (.cast q.note t a)
  | unary {p : Nat} {l : Lexeme} {c : Punct} {op : UnaryOp} {ls : List Lexeme} {a : Expr} (q : Span)
      (hl : l.kind = .punct c) (hop : c.unaryOp? = some op)
      (ha : Derives lax Joint.tightest ls a) : Derives lax p (l :: ls) (.unary q.note op a)
  | binary {p : Nat} {l : Lexeme} {op : BinaryOp} {ls rs : List Lexeme} {a b : Expr} (q : Span)
      (hp : p ≤ (Joint.binary op).strength) (ha : Derives lax (Joint.binary op).left ls a)
      (hl : l.kind.joint? = some (.binary op)) (hb : Derives lax (Joint.binary op).right rs b) :
      Derives lax p (ls ++ l :: rs) (.binary q.note op a b)
  | assignment {p : Nat} {l : Lexeme} {ls rs : List Lexeme} {a b : Expr} (q : Span)
      (hp : p ≤ Joint.assignment.strength) (ha : Derives lax Joint.assignment.left ls a)
      (hl : l.kind.joint? = some .assignment) (hb : Derives lax Joint.assignment.right rs b) :
      Derives lax p (ls ++ l :: rs) (.assignment q.note a b)
  | conditional {p : Nat} {l m : Lexeme} {ls ms rs : List Lexeme} {a b c : Expr} (q : Span)
      (hp : p ≤ Joint.conditional.strength) (ha : Derives lax Joint.conditional.left ls a)
      (hl : l.kind.joint? = some .conditional) (hb : Derives lax 0 ms b)
      (hm : m.kind = .punct .colon)
      (hc : Derives lax Joint.conditional.right rs c) :
      Derives lax p (ls ++ l :: (ms ++ m :: rs)) (.conditional q.note a b c)

inductive Expr.OptionDerives (lax : Bool) : List Lexeme → Option Expr → Prop
  | none : OptionDerives lax [] none
  | some {ls : List Lexeme} {e : Expr} (h : e.Derives lax 0 ls) : OptionDerives lax ls (some e)

inductive Expr.Parenthesized (lax : Bool) : List Lexeme → Expr → Prop
  | mk {l r : Lexeme} {ls : List Lexeme} {e : Expr} (hl : l.kind = .punct .leftParen)
      (h : Derives lax 0 ls e) (hr : r.kind = .punct .rightParen) :
      Parenthesized lax (l :: (ls ++ [r])) e

/-! ## Parameters -/

/-- A parameter, which has no storage class. -/
inductive Param.Derives : List Lexeme → Param → Prop
  | mk {ws : List Lexeme} {t : IntType} {x : Lexeme} (q : Span)
      (hs : Specifiers.Derives ws ⟨t, none⟩) (hx : x.kind = .identifier) :
      Derives (ws ++ [x]) ⟨q, x.text, t⟩

/-- The parameters of a function with the parentheses around them: `void` or at least one. -/
inductive Param.AllDerive (lax : Bool) : List Lexeme → List Param → Prop
  | nothing {l v r : Lexeme} (hl : l.kind = .punct .leftParen) (hv : v.kind = .keyword .voidKw)
      (hr : r.kind = .punct .rightParen) : AllDerive lax [l, v, r] []
  | some {l r : Lexeme} {ls : List Lexeme} (hl : l.kind = .punct .leftParen)
      (params : List (List Lexeme × Param)) (hne : params ≠ [])
      (hparams : ∀ x ∈ params, Param.Derives x.1 x.2)
      (hls : Separated lax (params.map Prod.fst) ls) (hr : r.kind = .punct .rightParen) :
      AllDerive lax (l :: (ls ++ [r])) (params.map Prod.snd)

/-! ## Statements and declarations -/

/-- Whether a statement ends with an `if` without `else`, so that an `else` behind it would belong
to that `if`. -/
def Stmt.endsOpen : Stmt → Bool
  | .ifThen _ _ _ => true
  | .ifElse _ _ _ no => no.endsOpen
  | .whileLoop _ _ _ body | .forLoop _ _ _ _ _ body => body.endsOpen
  | _ => false

inductive Expr.InitializerDerives (lax : Bool) : List Lexeme → Option Expr → Prop
  | none : InitializerDerives lax [] none
  | some {l : Lexeme} {ls : List Lexeme} {e : Expr} (hl : l.kind = .punct .assign)
      (h : e.Derives lax 0 ls) : InitializerDerives lax (l :: ls) (some e)

/-- What the rules for statements and declarations are about. -/
inductive Phrase where
  | stmt (s : Stmt)
  | item (i : Item)
  | decl (d : Decl)
  | block (is : List Item)
  | init (i : ForInit)

/-- Lexemes that spell a statement, an item of a block, a declaration, a block with its braces, or
what stands before the first semicolon of a `for` header, with that semicolon. An `else` belongs to
the nearest `if`. -/
inductive Phrase.Derives (lax : Bool) : List Lexeme → Phrase → Prop
  | ret {k r : Lexeme} {ls : List Lexeme} {e : Expr} (q : Span) (hk : k.kind = .keyword .returnKw)
      (he : e.Derives lax 0 ls) (hr : r.kind = .punct .semicolon) :
      Derives lax (k :: (ls ++ [r])) (.stmt (.ret q e))
  | ifThen {k : Lexeme} {cs ls : List Lexeme} {c : Expr} {yes : Stmt} (q : Span)
      (hk : k.kind = .keyword .ifKw) (hc : c.Parenthesized lax cs)
      (hyes : Derives lax ls (.stmt yes)) : Derives lax (k :: (cs ++ ls)) (.stmt (.ifThen q c yes))
  | ifElse {k o : Lexeme} {cs ls rs : List Lexeme} {c : Expr} {yes no : Stmt} (q : Span)
      (hk : k.kind = .keyword .ifKw) (hc : c.Parenthesized lax cs)
      (hyes : Derives lax ls (.stmt yes)) (hclosed : yes.endsOpen = false)
      (ho : o.kind = .keyword .elseKw) (hno : Derives lax rs (.stmt no)) :
      Derives lax (k :: (cs ++ (ls ++ o :: rs))) (.stmt (.ifElse q c yes no))
  | compound {ls : List Lexeme} {is : List Item} (q : Span) (h : Derives lax ls (.block is)) :
      Derives lax ls (.stmt (.block q is))
  | breakLoop {k r : Lexeme} (q : Span) (hk : k.kind = .keyword .breakKw)
      (hr : r.kind = .punct .semicolon) : Derives lax [k, r] (.stmt (.breakLoop q none))
  | continueLoop {k r : Lexeme} (q : Span) (hk : k.kind = .keyword .continueKw)
      (hr : r.kind = .punct .semicolon) : Derives lax [k, r] (.stmt (.continueLoop q none))
  | whileLoop {k : Lexeme} {cs ls : List Lexeme} {c : Expr} {body : Stmt} (q : Span)
      (hk : k.kind = .keyword .whileKw) (hc : c.Parenthesized lax cs)
      (hbody : Derives lax ls (.stmt body)) :
      Derives lax (k :: (cs ++ ls)) (.stmt (.whileLoop q none c body))
  | doLoop {k w r : Lexeme} {ls cs : List Lexeme} {c : Expr} {body : Stmt} (q : Span)
      (hk : k.kind = .keyword .doKw) (hbody : Derives lax ls (.stmt body))
      (hw : w.kind = .keyword .whileKw) (hc : c.Parenthesized lax cs)
      (hr : r.kind = .punct .semicolon) :
      Derives lax (k :: (ls ++ w :: (cs ++ [r]))) (.stmt (.doLoop q none body c))
  | forLoop {k l s r : Lexeme} {is cs ps ls : List Lexeme} {init : ForInit} {c post : Option Expr}
      {body : Stmt} (q : Span) (hk : k.kind = .keyword .forKw) (hl : l.kind = .punct .leftParen)
      (hinit : Derives lax is (.init init)) (hc : Expr.OptionDerives lax cs c)
      (hs : s.kind = .punct .semicolon) (hpost : Expr.OptionDerives lax ps post)
      (hr : r.kind = .punct .rightParen) (hbody : Derives lax ls (.stmt body)) :
      Derives lax (k :: l :: (is ++ (cs ++ s :: (ps ++ r :: ls))))
        (.stmt (.forLoop q none init c post body))
  | null {r : Lexeme} (q : Span) (hr : r.kind = .punct .semicolon) :
      Derives lax [r] (.stmt (.null q))
  | expr {r : Lexeme} {ls : List Lexeme} {e : Expr} (q : Span) (he : e.Derives lax 0 ls)
      (hr : r.kind = .punct .semicolon) : Derives lax (ls ++ [r]) (.stmt (.expr q e))
  | stmtItem {ls : List Lexeme} {s : Stmt} (h : Derives lax ls (.stmt s)) :
      Derives lax ls (.item (.stmt s))
  | declItem {ls : List Lexeme} {d : Decl} (h : Derives lax ls (.decl d)) :
      Derives lax ls (.item (.decl d))
  | block {l r : Lexeme} (hl : l.kind = .punct .leftBrace) (items : List (List Lexeme × Item))
      (hitems : ∀ x ∈ items, Derives lax x.1 (.item x.2)) (hr : r.kind = .punct .rightBrace) :
      Derives lax (l :: ((items.map Prod.fst).flatten ++ [r])) (.block (items.map Prod.snd))
  | var {x r : Lexeme} {ws ls : List Lexeme} {s : Specifiers} {init : Option Expr} (q : Span)
      (hs : Specifiers.Derives ws s) (hx : x.kind = .identifier)
      (hinit : Expr.InitializerDerives lax ls init) (hr : r.kind = .punct .semicolon) :
      Derives lax (ws ++ x :: (ls ++ [r])) (.decl (.var ⟨q, x.text, s.type, s.storage, init⟩))
  | prototype {x r : Lexeme} {ws ls : List Lexeme} {s : Specifiers} {params : List Param} (q : Span)
      (hs : Specifiers.Derives ws s) (hx : x.kind = .identifier)
      (hparams : Param.AllDerive lax ls params) (hr : r.kind = .punct .semicolon) :
      Derives lax (ws ++ x :: (ls ++ [r]))
        (.decl (.prototype ⟨q, x.text, s.type, params, s.storage⟩))
  | function {x : Lexeme} {ws ls bs : List Lexeme} {s : Specifiers} {params : List Param}
      {body : List Item} (q q' : Span) (hs : Specifiers.Derives ws s) (hx : x.kind = .identifier)
      (hparams : Param.AllDerive lax ls params) (hbody : Derives lax bs (.block body)) :
      Derives lax (ws ++ x :: (ls ++ bs))
        (.decl (.function ⟨q, x.text, s.type, params, s.storage⟩ q' body))
  | declInit {ls : List Lexeme} {d : VarDecl} (h : Derives lax ls (.decl (.var d))) :
      Derives lax ls (.init (.decl d))
  | noInit {r : Lexeme} (hr : r.kind = .punct .semicolon) : Derives lax [r] (.init .nothing)
  | exprInit {r : Lexeme} {ls : List Lexeme} {e : Expr} (he : e.Derives lax 0 ls)
      (hr : r.kind = .punct .semicolon) : Derives lax (ls ++ [r]) (.init (.expr e))

inductive Program.Derives (lax : Bool) : List Lexeme → Program → Prop
  | mk (q : Span) (decls : List (List Lexeme × Decl))
      (h : ∀ x ∈ decls, Phrase.Derives lax x.1 (.decl x.2)) :
      Derives lax (decls.map Prod.fst).flatten ⟨q, decls.map Prod.snd⟩

/-! ## Levels -/

namespace Expr.Derives

variable {lax : Bool} {p q : Nat} {ls : List Lexeme} {e : Expr}

/-- What can stand left of a joint that binds less tightly can stand where less is asked for. -/
theorem weaken (h : Derives lax q ls e)
    (hp : ∀ j : Joint, q ≤ j.strength → p ≤ j.strength) : Derives lax p ls e := by
  cases h with
  | constant q hl hk => exact .constant q hl hk
  | var q hx => exact .var q hx
  | call q hf hl args hargs hls hr => exact .call q hf hl args hargs hls hr
  | parens hl h hr => exact .parens hl h hr
  | cast q hl hs hr ha => exact .cast q hl hs hr ha
  | unary q hl hop ha => exact .unary q hl hop ha
  | binary q hq ha hl hb => exact .binary q (hp _ hq) ha hl hb
  | assignment q hq ha hl hb => exact .assignment q (hp _ hq) ha hl hb
  | conditional q hq ha hl hb hm hc => exact .conditional q (hp _ hq) ha hl hb hm hc

theorem mono (h : Derives lax q ls e) (hp : p ≤ q) : Derives lax p ls e :=
  h.weaken fun _ hq => Nat.le_trans hp hq

/-- An operand without joints can stand everywhere. -/
theorem of_tightest (h : Derives lax Joint.tightest ls e) (p : Nat) : Derives lax p ls e :=
  h.weaken fun j hq => absurd hq (Nat.not_le.2 j.strength_lt_tightest)

end Expr.Derives

/-! ## Specifiers -/

/-- The words of a type are distinct, at least one, and not of both signednesses; their order does
not matter. -/
theorem IntType.ofWords_eq_ok_iff {words : List Keyword} {t : IntType} :
    ofWords words = .ok t ↔ words ≠ [] ∧ words.Nodup ∧ (.signedKw ∈ words → .unsignedKw ∉ words) ∧
      t = if .unsignedKw ∈ words then if .longKw ∈ words then .unsignedLong else .unsignedInt
        else if .longKw ∈ words then .long else .int := by
  unfold ofWords
  by_cases hne : words = []
  · simp [hne]
  by_cases honce : words.Nodup
  · by_cases hsigned : .signedKw ∈ words <;> by_cases hunsigned : .unsignedKw ∈ words <;>
      simp [hne, honce, hsigned, hunsigned, eq_comm]
  · simp [hne, honce]

/-- The words are judged as the grammar asks for it. -/
theorem Specifiers.ofWords_eq_ok_iff {words : List Keyword} {s : Specifiers}
    (heach : ∀ w ∈ words, w.isTypeWord ∨ w.storage?.isSome) :
    ofWords words = .ok s ↔ s.Named words := by
  have hmem : ∀ w : Keyword, w.isTypeWord → (w ∈ words.filter Keyword.isTypeWord ↔ w ∈ words) :=
    fun w hw => by rw [List.mem_filter, and_iff_left hw]
  have hne : words.filter Keyword.isTypeWord ≠ [] ↔ ∃ w ∈ words, w.isTypeWord := by
    simp [List.filter_eq_nil_iff]
  -- the type words and the storage classes are judged apart from each other
  have hsplit : ofWords words = .ok s ↔
      IntType.ofWords (words.filter Keyword.isTypeWord) = .ok s.type ∧
        words.filterMap Keyword.storage? = s.storage.toList := by
    obtain ⟨type, storage⟩ := s
    unfold ofWords
    cases IntType.ofWords (words.filter Keyword.isTypeWord) with
    | error c => simp [bind, Except.bind]
    | ok t =>
        rcases words.filterMap Keyword.storage? with _ | ⟨a, _ | ⟨b, l⟩⟩ <;> cases storage <;>
          simp [bind, Except.bind, pure, Except.pure, throw, throwThe, MonadExceptOf.throw]
  simp only [hsplit, IntType.ofWords_eq_ok_iff, hne, hmem .signedKw rfl, hmem .unsignedKw rfl,
    hmem .longKw rfl]
  exact ⟨fun ⟨⟨hsome, honce, hsign, ht⟩, hs⟩ => ⟨heach, hsome, honce, hsign, ht, hs⟩,
    fun h => ⟨⟨h.type_word, h.once, h.sign, h.type⟩, h.storage⟩⟩

end IntegerC
