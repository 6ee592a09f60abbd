import IntegerC.Proofs.Grammar.Completeness
import IntegerC.Proofs.Grammar.Spacing
import IntegerC.Proofs.Parsing

set_option autoImplicit false

/-! # Printing

The text of a program, with a blank between each two lexemes. A constant has the suffix of its
type, a type is named by its specifiers, and an operand is put in parentheses only if its operator
binds less tightly than its place asks for. Reading the text of a tree that was read gives the
tree again, up to spans: by induction on the derivation of the tree, its printed lexemes derive it
too.
-/

namespace IntegerC

/-! ## Words and operators -/

/-- The suffix that gives a constant a type. -/
def IntType.suffix : IntType → Suffix
  | int => .plain
  | unsignedInt => .unsigned
  | long => .long
  | unsignedLong => .unsignedLong

def IntType.words : IntType → List Keyword
  | int => [.intKw]
  | unsignedInt => [.unsignedKw, .intKw]
  | long => [.longKw]
  | unsignedLong => [.unsignedKw, .longKw]

def Storage.word : Storage → Keyword
  | static => .staticKw
  | external => .externKw

/-- The words that name a storage class, if there is one, and a type. -/
def Specifiers.words (s : Specifiers) : List Keyword :=
  (s.storage.map Storage.word).toList ++ s.type.words

theorem Specifiers.named_words (s : Specifiers) : s.Named s.words := by
  obtain ⟨t, storage⟩ := s
  cases storage with
  | none => cases t <;> constructor <;> decide
  | some c => cases t <;> cases c <;> constructor <;> decide

def UnaryOp.punct : UnaryOp → Punct
  | negate => .minus
  | complement => .tilde
  | not => .bang

theorem UnaryOp.unaryOp?_punct (op : UnaryOp) : op.punct.unaryOp? = some op := by
  cases op <;> rfl

def Joint.punct : Joint → Punct
  | binary (.arith .multiply) => .star
  | binary (.arith .divide) => .slash
  | binary (.arith .remainder) => .percent
  | binary (.arith .add) => .plus
  | binary (.arith .subtract) => .minus
  | binary (.shift .left) => .shiftLeft
  | binary (.shift .right) => .shiftRight
  | binary (.compare .lessThan) => .less
  | binary (.compare .lessOrEqual) => .lessOrEqual
  | binary (.compare .greaterThan) => .greater
  | binary (.compare .greaterOrEqual) => .greaterOrEqual
  | binary (.compare .equal) => .equal
  | binary (.compare .notEqual) => .notEqual
  | binary (.arith .bitAnd) => .ampersand
  | binary (.arith .bitXor) => .caret
  | binary (.arith .bitOr) => .bar
  | binary (.logic .and) => .andAnd
  | binary (.logic .or) => .orOr
  | conditional => .question
  | assignment => .assign

theorem Joint.ofPunct?_punct (j : Joint) : ofPunct? j.punct = some j := by
  rcases j with (op | op | op | op) | _ | _
  all_goals first | rfl | (cases op <;> rfl)

/-! ## Expressions -/

def Specifiers.print (s : Specifiers) : List Lexeme := s.words.map .keyword

/-- The lexemes of an expression with joint `j`, in parentheses if `j` binds less tightly than
`least`. -/
def Joint.print (j : Joint) (least : Nat) (ls : List Lexeme) : List Lexeme :=
  if least ≤ j.strength then ls else .punct .leftParen :: (ls ++ [.punct .rightParen])

def withCommas (pieces : List (List Lexeme)) : List Lexeme := [.punct .comma].intercalate pieces

mutual
/-- The lexemes of an expression at a place that asks for operators that bind at least as tightly as
`least`. -/
def Expr.print (least : Nat) : Expr → List Lexeme
  | .constant _ k => [.constant k.value.toNat k.type.suffix]
  | .var _ x => [.identifier x]
  | .cast _ t a =>
      .punct .leftParen ::
        (Specifiers.print ⟨t, none⟩ ++ .punct .rightParen :: a.print Joint.tightest)
  | .unary _ op a => .punct op.punct :: a.print Joint.tightest
  | .binary _ op a b =>
      let j := Joint.binary op
      j.print least (a.print j.left ++ .punct j.punct :: b.print j.right)
  | .assignment _ a b =>
      let j := Joint.assignment
      j.print least (a.print j.left ++ .punct j.punct :: b.print j.right)
  | .conditional _ a b c =>
      let j := Joint.conditional
      j.print least
        (a.print j.left ++ .punct j.punct :: (b.print 0 ++ .punct .colon :: c.print j.right))
  | .call _ f es =>
      .identifier f :: .punct .leftParen :: (withCommas (Expr.printAll es) ++ [.punct .rightParen])

def Expr.printAll : List Expr → List (List Lexeme)
  | [] => []
  | e :: es => e.print 0 :: Expr.printAll es
end

theorem Expr.printAll_eq_map (es : List Expr) : Expr.printAll es = es.map (Expr.print 0) := by
  induction es with
  | nil => rfl
  | cons e es ih => rw [Expr.printAll, ih, List.map_cons]

def Expr.printOption : Option Expr → List Lexeme
  | none => []
  | some e => e.print 0

def Expr.printInitializer : Option Expr → List Lexeme
  | none => []
  | some e => .punct .assign :: e.print 0

def Expr.printParenthesized (e : Expr) : List Lexeme :=
  .punct .leftParen :: (e.print 0 ++ [.punct .rightParen])

/-! ## Statements and declarations -/

def Param.print (p : Param) : List Lexeme :=
  Specifiers.print ⟨p.type, none⟩ ++ [.identifier p.name]

def Param.printAll (ps : List Param) : List Lexeme :=
  .punct .leftParen ::
    ((if ps = [] then [.keyword .voidKw] else withCommas (ps.map Param.print)) ++
      [.punct .rightParen])

/-- The lexemes of a function, of which `rest` stand behind the parameters. -/
def FunHeader.print (h : FunHeader) (rest : List Lexeme) : List Lexeme :=
  Specifiers.print ⟨h.result, h.storage⟩ ++ .identifier h.name :: (Param.printAll h.params ++ rest)

def VarDecl.print (d : VarDecl) : List Lexeme :=
  Specifiers.print ⟨d.type, d.storage⟩ ++
    .identifier d.name :: (Expr.printInitializer d.init ++ [.punct .semicolon])

def ForInit.print : ForInit → List Lexeme
  | .nothing => [.punct .semicolon]
  | .decl d => d.print
  | .expr e => e.print 0 ++ [.punct .semicolon]

def withBraces (pieces : List (List Lexeme)) : List Lexeme :=
  .punct .leftBrace :: (pieces.flatten ++ [.punct .rightBrace])

mutual
def Stmt.print : Stmt → List Lexeme
  | .ret _ e => .keyword .returnKw :: (e.print 0 ++ [.punct .semicolon])
  | .expr _ e => e.print 0 ++ [.punct .semicolon]
  | .ifThen _ c yes => .keyword .ifKw :: (c.printParenthesized ++ yes.print)
  | .ifElse _ c yes no =>
      .keyword .ifKw :: (c.printParenthesized ++ (yes.print ++ .keyword .elseKw :: no.print))
  | .block _ is => withBraces (Item.printAll is)
  | .breakLoop _ _ => [.keyword .breakKw, .punct .semicolon]
  | .continueLoop _ _ => [.keyword .continueKw, .punct .semicolon]
  | .whileLoop _ _ c body => .keyword .whileKw :: (c.printParenthesized ++ body.print)
  | .doLoop _ _ body c =>
      .keyword .doKw ::
        (body.print ++ .keyword .whileKw :: (c.printParenthesized ++ [.punct .semicolon]))
  | .forLoop _ _ init c post body =>
      .keyword .forKw :: .punct .leftParen :: (init.print ++ (Expr.printOption c ++
        .punct .semicolon :: (Expr.printOption post ++ .punct .rightParen :: body.print)))
  | .null _ => [.punct .semicolon]

def Item.print : Item → List Lexeme
  | .stmt s => s.print
  | .decl d => d.print

def Item.printAll : List Item → List (List Lexeme)
  | [] => []
  | i :: is => i.print :: Item.printAll is

def Decl.print : Decl → List Lexeme
  | .var d => d.print
  | .prototype h => h.print [.punct .semicolon]
  | .function h _ body => h.print (withBraces (Item.printAll body))
end

theorem Item.printAll_eq_map (is : List Item) : Item.printAll is = is.map Item.print := by
  induction is with
  | nil => rfl
  | cons i is ih => rw [Item.printAll, ih, List.map_cons]

def Phrase.print : Phrase → List Lexeme
  | .stmt s => s.print
  | .item i => i.print
  | .decl d => d.print
  | .block is => withBraces (Item.printAll is)
  | .init i => i.print

def Program.print (p : Program) : List Lexeme := (p.decls.map Decl.print).flatten

def Program.text (p : Program) : String := textOf p.print

/-! ## Lists of lexemes -/

/-- Each identifier is one. -/
def IdentifiersOf (ls : List Lexeme) : Prop :=
  ∀ l ∈ ls, l.kind = .identifier → IsIdentifier l.text

def AllSpelled (ls : List Lexeme) : Prop := ∀ l ∈ ls, l.Spelled

@[simp] theorem identifiersOf_cons {l : Lexeme} {ls : List Lexeme} :
    IdentifiersOf (l :: ls) ↔ (l.kind = .identifier → IsIdentifier l.text) ∧ IdentifiersOf ls :=
  List.forall_mem_cons

@[simp] theorem identifiersOf_append {ls rs : List Lexeme} :
    IdentifiersOf (ls ++ rs) ↔ IdentifiersOf ls ∧ IdentifiersOf rs :=
  List.forall_mem_append

@[simp] theorem allSpelled_nil : AllSpelled [] := nofun

@[simp] theorem allSpelled_cons {l : Lexeme} {ls : List Lexeme} :
    AllSpelled (l :: ls) ↔ l.Spelled ∧ AllSpelled ls :=
  List.forall_mem_cons

@[simp] theorem allSpelled_append {ls rs : List Lexeme} :
    AllSpelled (ls ++ rs) ↔ AllSpelled ls ∧ AllSpelled rs :=
  List.forall_mem_append

attribute [simp] Lexeme.Spelled.keyword Lexeme.Spelled.punct Lexeme.Spelled.constant

theorem allSpelled_specifiers (s : Specifiers) : AllSpelled s.print :=
  List.forall_mem_map.2 fun k _ => .keyword k

theorem Specifiers.derives_print (s : Specifiers) : s.Derives s.print := by
  refine ⟨s.words, ?_, s.named_words⟩
  rw [print, List.map_map]
  rfl

/-- Printed lists have commas between their pieces and none at the end. -/
theorem separated_withCommas (pieces : List (List Lexeme)) :
    Separated false pieces (withCommas pieces) := by
  induction pieces with
  | nil => exact .nil
  | cons ls pieces ih =>
      cases pieces with
      | nil =>
          rw [withCommas, List.intercalate_singleton]
          exact .single
      | cons ls' pieces =>
          rw [withCommas, List.intercalate_cons_cons, List.append_assoc]
          exact .cons rfl nofun ih

theorem allSpelled_withCommas {pieces : List (List Lexeme)} (h : ∀ x ∈ pieces, AllSpelled x) :
    AllSpelled (withCommas pieces) := by
  induction pieces with
  | nil => exact allSpelled_nil
  | cons ls pieces ih =>
      obtain ⟨hls, hpieces⟩ := List.forall_mem_cons.1 h
      cases pieces with
      | nil => rwa [withCommas, List.intercalate_singleton]
      | cons ls' pieces =>
          rw [withCommas, List.intercalate_cons_cons]
          simp only [allSpelled_append, allSpelled_cons]
          exact ⟨⟨hls, .punct _, allSpelled_nil⟩, ih hpieces⟩

theorem allSpelled_withBraces {pieces : List (List Lexeme)} (h : ∀ x ∈ pieces, AllSpelled x) :
    AllSpelled (withBraces pieces) := by
  have hflatten : AllSpelled pieces.flatten := by
    intro l hl
    obtain ⟨x, hx, hl⟩ := List.mem_flatten.1 hl
    exact h x hx l hl
  simp [withBraces, hflatten]

section

variable {α : Type} (f : α → List Lexeme) (as : List α)

theorem map_fst_pieces : (as.map fun a => (f a, a)).map Prod.fst = as.map f := by
  rw [List.map_map]
  rfl

theorem map_snd_pieces : (as.map fun a => (f a, a)).map Prod.snd = as := by
  rw [List.map_map]
  exact List.map_id as

end

/-! ## Constants -/

/-- The literal of a constant stands for it: its suffix prefers the type of the constant. -/
theorem constant?_constant {k : Constant} (hk : k.InRange) (hzero : 0 ≤ k.value) :
    k.type.suffix.constant? (Lexeme.constant k.value.toNat k.type.suffix).text = some k := by
  obtain ⟨t, v⟩ := k
  obtain ⟨n, rfl⟩ := Int.eq_ofNat_of_zero_le hzero
  have hdigits : (Nat.toDigits 10 n ++ t.suffix.letters).takeWhile Text.isDigit =
      Nat.toDigits 10 n := by
    rw [List.takeWhile_append_of_pos fun c hc => isDigit_of_mem_toDigits hc]
    cases t <;> simp [IntType.suffix, Suffix.letters, Text.isDigit]
  have hnumber : numberOf (Nat.toDigits 10 n) = n := Nat.ofDigitChars_ten_toDigits
  have hfind : t.suffix.types.find? (fun t => decide (t.Holds n)) = some t := by
    have hholds : t.Holds n := hk
    cases t <;> simp [IntType.suffix, Suffix.types, hholds]
  unfold Suffix.constant?
  dsimp only
  rw [Lexeme.constant, String.toList_ofList, Int.toNat_natCast, hdigits,
    if_neg Nat.toDigits_ne_nil, hnumber, hfind]
  rfl

/-- A constant is read from digits and has no sign. -/
theorem value_nonneg_of_constant? {s : Suffix} {text : String} {k : Constant}
    (h : s.constant? text = some k) : 0 ≤ k.value := by
  unfold Suffix.constant? at h
  dsimp only at h
  split at h
  · cases h
  · obtain ⟨t, -, rfl⟩ := Option.map_eq_some_iff.1 h
    exact Int.natCast_nonneg _

/-! ## What is printed is derived -/

/-- The printed lexemes are well spelled, and they derive the expression at every level. -/
structure Expr.Reprints (e : Expr) : Prop where
  derives : ∀ least, e.Derives false least (e.print least)
  spelled : ∀ least, AllSpelled (e.print least)

section

variable {j : Joint} {ls : List Lexeme} {e : Expr}

theorem Joint.derives_print (h : ∀ p, p ≤ j.strength → e.Derives false p ls) (least : Nat) :
    e.Derives false least (j.print least ls) := by
  unfold Joint.print
  split
  · rename_i hle
    exact h least hle
  · exact .parens rfl (h 0 (Nat.zero_le _)) rfl

theorem Joint.spelled_print (h : AllSpelled ls) (least : Nat) : AllSpelled (j.print least ls) := by
  unfold Joint.print
  split
  · exact h
  · simp [h]

theorem Joint.joint?_punct (j : Joint) : (Lexeme.punct j.punct).kind.joint? = some j :=
  j.ofPunct?_punct

end

/-- The printed arguments are those of a call. -/
theorem Expr.derives_call {es : List Expr} (h : ∀ e ∈ es, e.Derives false 0 (e.print 0)) (q : Span)
    (f : String) (least : Nat) :
    Expr.Derives false least ((Expr.call q.note f es).print least) (.call q.note f es) := by
  have hcall := Expr.Derives.call (p := least) (f := .identifier f) q rfl
    (show (Lexeme.punct .leftParen).kind = _ from rfl) (es.map fun e => (e.print 0, e))
    (List.forall_mem_map.2 h) (separated_withCommas _)
    (show (Lexeme.punct .rightParen).kind = _ from rfl)
  rw [map_fst_pieces, map_snd_pieces] at hcall
  rwa [Expr.print, Expr.printAll_eq_map]

/-- Each part is printed for the strength that its place asks for, so it is derived there.
Parentheses are put around what binds less tightly. -/
theorem Expr.Derives.reprints {lax : Bool} {p : Nat} {ls : List Lexeme} {e : Expr}
    (h : e.Derives lax p ls) (hls : IdentifiersOf ls) : e.Reprints := by
  induction h with
  | constant q hl hk =>
      refine ⟨fun least => .constant q rfl ?_, fun least => by simp [Expr.print]⟩
      exact constant?_constant (Suffix.inRange_of_constant? hk) (value_nonneg_of_constant? hk)
  | var q hx =>
      have hid := (identifiersOf_cons.1 hls).1 hx
      exact ⟨fun least => .var (x := .identifier _) q rfl, fun least => by
        simp [Expr.print, Lexeme.Spelled.identifier hid]⟩
  | @call _ f _ _ _ q hf hl args _ hcommas hr ih =>
      simp only [identifiersOf_cons, identifiersOf_append] at hls
      have hargs : ∀ e ∈ args.map Prod.snd, e.Reprints := List.forall_mem_map.2 fun a ha =>
        ih a ha fun l hl => hls.2.2.1 l ((hcommas.isInfix _ (List.mem_map_of_mem ha)).subset hl)
      refine ⟨Expr.derives_call (fun e he => (hargs e he).derives 0) q f.text, fun least => ?_⟩
      have hspelled : AllSpelled (withCommas (Expr.printAll (args.map Prod.snd))) := by
        refine allSpelled_withCommas ?_
        rw [Expr.printAll_eq_map]
        exact List.forall_mem_map.2 fun e he => (hargs e he).spelled 0
      simp [Expr.print, hspelled, Lexeme.Spelled.identifier (hls.1 hf)]
  -- parentheses leave no trace in the tree, so they are printed anew where they are needed
  | parens hl _ hr ih =>
      simp only [identifiersOf_cons, identifiersOf_append] at hls
      exact ih hls.2.1
  | cast q hl hs hr _ ih =>
      simp only [identifiersOf_cons, identifiersOf_append] at hls
      have ha := ih hls.2.2.2
      refine ⟨fun least => .cast q rfl (Specifiers.derives_print _) rfl (ha.derives _),
        fun least => ?_⟩
      simp [Expr.print, allSpelled_specifiers, ha.spelled]
  | unary q hl hop _ ih =>
      have ha := ih (identifiersOf_cons.1 hls).2
      refine ⟨fun least => .unary q rfl (UnaryOp.unaryOp?_punct _) (ha.derives _),
        fun least => ?_⟩
      simp [Expr.print, ha.spelled]
  | binary q _ _ hl _ iha ihb =>
      simp only [identifiersOf_cons, identifiersOf_append] at hls
      have ha := iha hls.1
      have hb := ihb hls.2.2
      refine ⟨Joint.derives_print fun p hp =>
        .binary q hp (ha.derives _) (Joint.joint?_punct _) (hb.derives _),
        Joint.spelled_print ?_⟩
      simp [ha.spelled, hb.spelled]
  | assignment q _ _ hl _ iha ihb =>
      simp only [identifiersOf_cons, identifiersOf_append] at hls
      have ha := iha hls.1
      have hb := ihb hls.2.2
      refine ⟨Joint.derives_print fun p hp =>
        .assignment q hp (ha.derives _) (Joint.joint?_punct _) (hb.derives _),
        Joint.spelled_print ?_⟩
      simp [ha.spelled, hb.spelled]
  | conditional q _ _ hl _ hm _ iha ihb ihc =>
      simp only [identifiersOf_cons, identifiersOf_append] at hls
      obtain ⟨hls, -, hms, -, hrs⟩ := hls
      have ha := iha hls
      have hb := ihb hms
      have hc := ihc hrs
      refine ⟨Joint.derives_print fun p hp =>
        .conditional q hp (ha.derives _) (Joint.joint?_punct _) (hb.derives _) rfl (hc.derives _),
        Joint.spelled_print ?_⟩
      simp [ha.spelled, hb.spelled, hc.spelled]

/-- An optional expression that was read can be printed with the fewest parentheses and derived
again. -/
theorem Expr.OptionDerives.reprints {lax : Bool} {ls : List Lexeme} {o : Option Expr}
    (h : Expr.OptionDerives lax ls o) (hls : IdentifiersOf ls) :
    Expr.OptionDerives false (Expr.printOption o) o ∧ AllSpelled (Expr.printOption o) := by
  cases h with
  | none => exact ⟨.none, allSpelled_nil⟩
  | some h =>
      have he := h.reprints hls
      exact ⟨.some (he.derives 0), he.spelled 0⟩

/-- An initializer that was read can be printed with the fewest parentheses and derived again. -/
theorem Expr.InitializerDerives.reprints {lax : Bool} {ls : List Lexeme} {o : Option Expr}
    (h : Expr.InitializerDerives lax ls o) (hls : IdentifiersOf ls) :
    Expr.InitializerDerives false (Expr.printInitializer o) o ∧
      AllSpelled (Expr.printInitializer o) := by
  cases h with
  | none => exact ⟨.none, allSpelled_nil⟩
  | some hl h =>
      have he := h.reprints (identifiersOf_cons.1 hls).2
      exact ⟨.some rfl (he.derives 0), allSpelled_cons.2 ⟨.punct _, he.spelled 0⟩⟩

/-- An expression in parentheses that was read is printed in parentheses once and derived again. -/
theorem Expr.Parenthesized.reprints {lax : Bool} {ls : List Lexeme} {e : Expr}
    (h : e.Parenthesized lax ls) (hls : IdentifiersOf ls) :
    e.Parenthesized false e.printParenthesized ∧ AllSpelled e.printParenthesized := by
  cases h with
  | mk hl h hr =>
      simp only [identifiersOf_cons, identifiersOf_append] at hls
      have he := h.reprints hls.2.1
      exact ⟨.mk rfl (he.derives 0) rfl, by simp [Expr.printParenthesized, he.spelled]⟩

theorem Param.Derives.reprints {ls : List Lexeme} {p : Param} (h : p.Derives ls)
    (hls : IdentifiersOf ls) : p.Derives p.print ∧ AllSpelled p.print := by
  cases h with
  | @mk _ t x q hs hx =>
      simp only [identifiersOf_cons, identifiersOf_append] at hls
      refine ⟨.mk (x := .identifier x.text) q (Specifiers.derives_print _) rfl, ?_⟩
      simp [Param.print, allSpelled_specifiers, Lexeme.Spelled.identifier (hls.2.1 hx)]

/-- A list without parameters is printed as `void`. -/
theorem Param.AllDerive.reprints {lax : Bool} {ls : List Lexeme} {ps : List Param}
    (h : Param.AllDerive lax ls ps) (hls : IdentifiersOf ls) :
    Param.AllDerive false (Param.printAll ps) ps ∧ AllSpelled (Param.printAll ps) := by
  cases h with
  | nothing => exact ⟨.nothing rfl rfl rfl, by simp [Param.printAll]⟩
  | some hl params hne hparams hcommas hr =>
      simp only [identifiersOf_cons, identifiersOf_append] at hls
      have hps : ∀ p ∈ params.map Prod.snd, p.Derives p.print ∧ AllSpelled p.print :=
        List.forall_mem_map.2 fun x hx => (hparams x hx).reprints fun l hl =>
          hls.2.1 l ((hcommas.isInfix _ (List.mem_map_of_mem hx)).subset hl)
      generalize hnames : params.map Prod.snd = ps at hps
      have hne : ps ≠ [] := by
        rw [← hnames]
        simpa using hne
      rw [Param.printAll, if_neg hne]
      refine ⟨?_, ?_⟩
      · have hall := Param.AllDerive.some (l := .punct .leftParen) (r := .punct .rightParen) rfl
          (ps.map fun p => (p.print, p)) (by simpa using hne)
          (List.forall_mem_map.2 fun p hp => (hps p hp).1) (separated_withCommas _) rfl
        rwa [map_fst_pieces, map_snd_pieces] at hall
      · simp [allSpelled_withCommas (List.forall_mem_map.2 fun p hp => (hps p hp).2)]

/-- The printed items are those of a block. -/
theorem Phrase.derives_block {is : List Item}
    (h : ∀ i ∈ is, Phrase.Derives false i.print (.item i)) :
    Phrase.Derives false (withBraces (Item.printAll is)) (.block is) := by
  have hblock := Phrase.Derives.block (l := .punct .leftBrace) (r := .punct .rightBrace) rfl
    (is.map fun i => (i.print, i)) (List.forall_mem_map.2 h) rfl
  rwa [map_fst_pieces, map_snd_pieces, ← Item.printAll_eq_map] at hblock

/-- What is printed for a phrase derives it. An `else` needs no care: the statement in front of it
does not end with an `if`, and is printed without one at its end. -/
theorem Phrase.Derives.reprints {lax : Bool} {ls : List Lexeme} {x : Phrase} (h : x.Derives lax ls)
    (hls : IdentifiersOf ls) : x.Derives false x.print ∧ AllSpelled x.print := by
  induction h with
  | ret q hk he hr =>
      simp only [identifiersOf_cons, identifiersOf_append] at hls
      have he := he.reprints hls.2.1
      exact ⟨.ret q rfl (he.derives 0) rfl, by simp [print, Stmt.print, he.spelled]⟩
  | ifThen q hk hc _ ih =>
      simp only [identifiersOf_cons, identifiersOf_append] at hls
      have hc := hc.reprints hls.2.1
      have hyes := ih hls.2.2
      exact ⟨.ifThen q rfl hc.1 hyes.1, by
        simpa [print, Stmt.print, hc.2] using hyes.2⟩
  | ifElse q hk hc _ hclosed ho _ ihyes ihno =>
      simp only [identifiersOf_cons, identifiersOf_append] at hls
      obtain ⟨-, hcs, hls, -, hrs⟩ := hls
      have hc := hc.reprints hcs
      have hyes := ihyes hls
      have hno := ihno hrs
      exact ⟨.ifElse q rfl hc.1 hyes.1 hclosed rfl hno.1, by
        simpa [print, Stmt.print, hc.2] using ⟨hyes.2, hno.2⟩⟩
  | compound q _ ih =>
      have hblock := ih hls
      exact ⟨.compound q hblock.1, hblock.2⟩
  | breakLoop q => exact ⟨.breakLoop q rfl rfl, by simp [print, Stmt.print]⟩
  | continueLoop q => exact ⟨.continueLoop q rfl rfl, by simp [print, Stmt.print]⟩
  | whileLoop q hk hc _ ih =>
      simp only [identifiersOf_cons, identifiersOf_append] at hls
      have hc := hc.reprints hls.2.1
      have hbody := ih hls.2.2
      exact ⟨.whileLoop q rfl hc.1 hbody.1, by
        simpa [print, Stmt.print, hc.2] using hbody.2⟩
  | doLoop q hk _ hw hc hr ih =>
      simp only [identifiersOf_cons, identifiersOf_append] at hls
      obtain ⟨-, hls, -, hcs, -⟩ := hls
      have hbody := ih hls
      have hc := hc.reprints hcs
      exact ⟨.doLoop q rfl hbody.1 rfl hc.1 rfl, by
        simpa [print, Stmt.print, hc.2] using hbody.2⟩
  | forLoop q hk hl _ hc hs hpost hr _ ihinit ihbody =>
      simp only [identifiersOf_cons, identifiersOf_append] at hls
      obtain ⟨-, -, his, hcs, -, hps, -, hls⟩ := hls
      have hinit := ihinit his
      have hc := hc.reprints hcs
      have hpost := hpost.reprints hps
      have hbody := ihbody hls
      exact ⟨.forLoop q rfl rfl hinit.1 hc.1 rfl hpost.1 rfl hbody.1, by
        simpa [print, Stmt.print, hc.2, hpost.2] using ⟨hinit.2, hbody.2⟩⟩
  | null q => exact ⟨.null q rfl, by simp [print, Stmt.print]⟩
  | expr q he hr =>
      simp only [identifiersOf_cons, identifiersOf_append] at hls
      have he := he.reprints hls.1
      exact ⟨.expr q (he.derives 0) rfl, by simp [print, Stmt.print, he.spelled]⟩
  | stmtItem _ ih =>
      have hs := ih hls
      exact ⟨.stmtItem hs.1, hs.2⟩
  | declItem _ ih =>
      have hd := ih hls
      exact ⟨.declItem hd.1, hd.2⟩
  | block hl items _ hr ih =>
      simp only [identifiersOf_cons, identifiersOf_append] at hls
      have hitems : ∀ i ∈ items.map Prod.snd,
          Phrase.Derives false i.print (.item i) ∧ AllSpelled i.print :=
        List.forall_mem_map.2 fun x hx => ih x hx fun l hl => hls.2.1 l
          (List.mem_flatten.2 ⟨x.1, List.mem_map_of_mem hx, hl⟩)
      refine ⟨derives_block fun i hi => (hitems i hi).1, allSpelled_withBraces ?_⟩
      rw [Item.printAll_eq_map]
      exact List.forall_mem_map.2 fun i hi => (hitems i hi).2
  | @var x _ _ _ _ _ q hs hx hinit hr =>
      simp only [identifiersOf_cons, identifiersOf_append] at hls
      have hinit := hinit.reprints hls.2.2.1
      refine ⟨.var (x := .identifier x.text) q (Specifiers.derives_print _) rfl hinit.1 rfl, ?_⟩
      simp [print, Decl.print, VarDecl.print, allSpelled_specifiers, hinit.2,
        Lexeme.Spelled.identifier (hls.2.1 hx)]
  | @prototype x _ _ _ _ _ q hs hx hparams hr =>
      simp only [identifiersOf_cons, identifiersOf_append] at hls
      have hparams := hparams.reprints hls.2.2.1
      refine ⟨.prototype (x := .identifier x.text) q (Specifiers.derives_print _) rfl hparams.1 rfl,
        ?_⟩
      simp [print, Decl.print, FunHeader.print, allSpelled_specifiers, hparams.2,
        Lexeme.Spelled.identifier (hls.2.1 hx)]
  | @function x _ _ _ _ _ _ q q' hs hx hparams _ ih =>
      simp only [identifiersOf_cons, identifiersOf_append] at hls
      obtain ⟨-, hname, hls, hbs⟩ := hls
      have hparams := hparams.reprints hls
      have hbody := ih hbs
      refine ⟨.function (x := .identifier x.text) q q' (Specifiers.derives_print _) rfl hparams.1
        hbody.1, ?_⟩
      simpa [print, Decl.print, FunHeader.print, allSpelled_specifiers, hparams.2,
        Lexeme.Spelled.identifier (hname hx)] using hbody.2
  | declInit _ ih =>
      have hd := ih hls
      exact ⟨.declInit hd.1, hd.2⟩
  | noInit => exact ⟨.noInit rfl, by simp [print, ForInit.print]⟩
  | exprInit he hr =>
      simp only [identifiersOf_cons, identifiersOf_append] at hls
      have he := he.reprints hls.1
      exact ⟨.exprInit (he.derives 0) rfl, by simp [print, ForInit.print, he.spelled]⟩

/-- A program is printed declaration by declaration. -/
theorem Program.Derives.reprints {lax : Bool} {ls : List Lexeme} {p : Program}
    (h : p.Derives lax ls) (hls : IdentifiersOf ls) :
    p.Derives false p.print ∧ AllSpelled p.print := by
  cases h with
  | mk q decls h =>
      have hdecls : ∀ d ∈ decls.map Prod.snd,
          Phrase.Derives false d.print (.decl d) ∧ AllSpelled d.print :=
        List.forall_mem_map.2 fun x hx => (h x hx).reprints fun l hl => hls l
          (List.mem_flatten.2 ⟨x.1, List.mem_map_of_mem hx, hl⟩)
      generalize decls.map Prod.snd = ds at hdecls
      refine ⟨?_, fun l hl => ?_⟩
      · have hprogram := Program.Derives.mk q (ds.map fun d => (d.print, d))
          (List.forall_mem_map.2 fun d hd => (hdecls d hd).1)
        rwa [map_fst_pieces, map_snd_pieces] at hprogram
      · obtain ⟨x, hx, hl⟩ := List.mem_flatten.1 hl
        obtain ⟨d, hd, rfl⟩ := List.mem_map.1 hx
        exact (hdecls d hd).2 l hl

/-! ## Texts -/

namespace Program

/-- The text of a program that was read is read, to the same program up to spans. -/
theorem reads_text {text : String} {ts : List Token} {p : Program} (hts : tokens text = .ok ts)
    (hp : ofTokens ts = .ok p) :
    ∃ ts' p', tokens p.text = .ok ts' ∧ ofTokens ts' = .ok p' ∧ p'.bare = p.bare := by
  obtain ⟨front, last, rfl, hends, hids⟩ := tokens_endsOnce hts
  have hls : IdentifiersOf (front.map Token.lexeme) := List.forall_mem_map.2 hids
  obtain ⟨hderives, hspelled⟩ := (derives_of_ofTokens hends hp).reprints hls
  obtain ⟨ts', hts', front', last', rfl, hends', hprinted⟩ := (tokens_textOf hspelled).exists_ok
  obtain ⟨p', hread, hp'⟩ := (ofTokens_of_derives hends' (hprinted ▸ hderives)).exists_ok
  exact ⟨_, p', hts', hread, hp'⟩

/-- The text of a program with more parentheses, and fewer blanks, than it needs. -/
def parenthesesText : String :=
  "unsigned x=2147483648;" ++
    "int f(int a,long unsigned b) \x7b for(;;) return f(((int)(a+1)),x,); \x7d" ++
    "int g(int a) \x7b if((a-(1-2))*3) a=(a=5); else return -(-a); \x7d" ++
    "int h(void) \x7b while(x<(3)) do; while((x)); return (x?1:2)?x?3:4:(x=6lu); \x7d"

/-- The same program as it is printed. -/
def printedText : String :=
  "unsigned int x = 2147483648l ; " ++
    "int f ( int a , unsigned long b ) " ++
    "\x7b for ( ; ; ) return f ( ( int ) ( a + 1 ) , x ) ; \x7d " ++
    "int g ( int a ) \x7b if ( ( a - ( 1 - 2 ) ) * 3 ) a = a = 5 ; else return - - a ; \x7d " ++
    "int h ( void ) " ++
    "\x7b while ( x < 3 ) do ; while ( x ) ; return ( x ? 1 : 2 ) ? x ? 3 : 4 : ( x = 6ul ) ; \x7d"

theorem reads_text_parenthesesText : ∃ ts p, tokens parenthesesText = .ok ts ∧
    ofTokens ts = .ok p ∧ p.text = printedText ∧
      ∃ ts' p', tokens p.text = .ok ts' ∧ ofTokens ts' = .ok p' ∧ p'.bare = p.bare := by
  have hchars : parenthesesText.toList = _ :=
    toList_append_eq (toList_append_eq (toList_append_eq
      String.toList_ofList String.toList_ofList) String.toList_ofList) String.toList_ofList
  have hprinted : printedText.toList = _ :=
    toList_append_eq (toList_append_eq (toList_append_eq (toList_append_eq (toList_append_eq
      String.toList_ofList String.toList_ofList) String.toList_ofList) String.toList_ofList)
      String.toList_ofList) String.toList_ofList
  have h : ((tokens parenthesesText).toOption.bind fun ts => (ofTokens ts).toOption.bind fun p =>
      some ([' '].intercalate (p.print.map fun l => l.text.toList))) =
      some printedText.toList := by
    rw [tokens, hchars, hprinted]
    decide +kernel
  obtain ⟨ts, hts, h⟩ := toOption_bind_eq_some.1 h
  obtain ⟨p, hp, h⟩ := toOption_bind_eq_some.1 h
  have htext : p.text = printedText :=
    String.toList_injective ((toList_textOf p.print).trans (Option.some.inj h))
  exact ⟨ts, p, hts, hp, htext, reads_text hts hp⟩

end Program

end IntegerC
