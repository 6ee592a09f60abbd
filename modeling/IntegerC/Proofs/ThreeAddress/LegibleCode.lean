import IntegerC.Proofs.Grammar.Identifiers
import IntegerC.Proofs.Ranges
import IntegerC.Proofs.ThreeAddress.Listings

set_option autoImplicit false

/-! # Code with legible listings

The code that is made of a text has a listing that no other code has. Its operands are variables of
the symbol table, which are called by words of the text with or without a number, temporaries, and
constants as literals make them, so none of them is negative.
-/

namespace IntegerC

open Text (NameChars isNameChar)

/-! ## Names -/

namespace ThreeAddress

theorem IsName.of_identifier {x : String} (h : IsIdentifier x) : IsName x := by
  obtain ⟨c, cs, hx, hc, hcs⟩ := h.spelled
  exact ⟨c, cs, hx, hc, fun d hd => by simp [isNameChar, hcs d hd]⟩

theorem IsName.numbered {word : String} (h : IsName word) (n : Nat) : IsName (numbered word n) := by
  obtain ⟨c, cs, hword, hc, hcs⟩ := h
  refine ⟨c, cs ++ '.' :: Nat.toDigits 10 n, by simp [toList_numbered, hword], hc, ?_⟩
  refine List.forall_mem_append.2 ⟨hcs, List.forall_mem_cons.2 ⟨by decide, fun d hd => ?_⟩⟩
  simp [isNameChar, isWordChar_of_mem_toDigits hd]

theorem isName_temporaryName (n : Nat) : IsName (temporaryName n) :=
  IsName.numbered ⟨'t', ['m', 'p'], String.toList_ofList, by decide, by decide⟩ n

end ThreeAddress

open ThreeAddress (IsName)

/-- A declared name is an identifier, possibly with a number behind it. -/
theorem Program.DeclaresWordOf.isName {tree : Program} {x : String} (h : tree.DeclaresWordOf x)
    (hwords : ∀ part ∈ tree.parts, ∀ word ∈ part.declared, IsIdentifier word) : IsName x := by
  obtain ⟨word, hword, hx⟩ := h
  obtain ⟨part, hpart, hword⟩ := List.mem_flatMap.1 hword
  have hname := IsName.of_identifier (hwords part hpart word hword)
  rcases hx with rfl | ⟨n, rfl⟩
  · exact hname
  · exact hname.numbered n

namespace ThreeAddress

/-! ## Instructions -/

section

variable {t : SymbolTable} {v : Value} {i : Instr} {f : Function} {code : List Instr}

/-- Everything that an instruction reads or writes has a type. -/
theorem Instr.WellTyped.values (h : i.WellTyped t) : ∀ v ∈ i.values, ∃ τ, v.HasType t τ := by
  -- instructions have one, two or three values, or the list of a call
  have hone : ∀ {v : Value}, (∃ τ, v.HasType t τ) → ∀ w ∈ [v], ∃ τ, w.HasType t τ :=
    fun hv => List.forall_mem_singleton.2 hv
  have htwo : ∀ {src dst : Value} {σ τ : IntType}, src.HasType t σ → dst.Receives t τ →
      ∀ w ∈ [src, dst], ∃ τ, w.HasType t τ :=
    fun hs hd => List.forall_mem_cons.2 ⟨⟨_, hs⟩, hone ⟨_, hd.hasType⟩⟩
  have hthree : ∀ {left right dst : Value} {ρ σ τ : IntType}, left.HasType t ρ →
      right.HasType t σ → dst.Receives t τ → ∀ w ∈ [left, right, dst], ∃ τ, w.HasType t τ :=
    fun hl hr hd => List.forall_mem_cons.2 ⟨⟨_, hl⟩, htwo hr hd⟩
  cases i with
  | ret v | jumpIfZero v _ | jumpIfNotZero v _ => exact hone h
  | copy src dst =>
      obtain ⟨σ, τ, hs, hd, -⟩ := h
      exact htwo hs hd
  | signExtend src dst | zeroExtend src dst =>
      obtain ⟨τ, hs, hd, -⟩ := h
      exact htwo hs hd
  | truncate src dst =>
      obtain ⟨σ, τ, hs, hd, -⟩ := h
      exact htwo hs hd
  | unary op src dst =>
      obtain ⟨τ, hs, hd⟩ := h
      exact htwo hs hd
  | binary op left right dst =>
      cases op with
      | arith _ | compare _ =>
          obtain ⟨τ, hl, hr, hd⟩ := h
          exact hthree hl hr hd
      | shift _ =>
          obtain ⟨τ, σ, hl, hr, hd⟩ := h
          exact hthree hl hr hd
      | other _ => exact h.elim
  | call f args dst =>
      obtain ⟨params, τ, -, hargs, hd⟩ := h
      refine List.forall_mem_append.2 ⟨fun v hv => ?_, hone ⟨_, hd.hasType⟩⟩
      obtain ⟨σ, -, hσ⟩ := forall₂_exists_left (List.Forall₂.flip hargs) hv
      exact ⟨σ, hσ⟩
  | jump _ | label _ => exact List.forall_mem_nil _

theorem Value.HasType.legible {τ : IntType} (h : v.HasType t τ) (hn : v.Natural)
    (ht : ∀ x, t.Knows x → IsName x) : v.Legible := by
  cases v with
  | constant c => exact hn.nonneg
  | var x => exact ht x (SymbolTable.knows_of_typeOf? h)

/-- Jumps lead to labels of the same code, and only functions are called. -/
theorem CodeTyped.marks_nameChars (h : CodeTyped t code) (ht : ∀ x, t.Knows x → IsName x)
    (hjumps : ∀ i ∈ code, ∀ l ∈ i.target?, l ∈ labelsOf code)
    (hlabels : ∀ l ∈ labelsOf code, Named l) : ∀ m ∈ marks code, NameChars m.name.toList := by
  intro m hm
  cases m with
  | label l =>
      refine (hlabels l ?_).nameChars
      rw [labelsOf_eq_marks]
      exact Mark.label_mem.2 hm
  | jump l =>
      obtain ⟨i, hi, htarget⟩ := jump_mem_marks hm
      exact (hlabels l (hjumps i hi l htarget)).nameChars
  | call f =>
      obtain ⟨args, dst, hcall⟩ := call_mem_marks hm
      obtain ⟨params, τ, hτ, -⟩ := h _ hcall
      exact (ht f (SymbolTable.knows_of_typeOf? hτ)).nameChars

/-- Code with types, whose constants no sign has and whose labels are proper names. -/
theorem CodeTyped.legible (h : CodeTyped t code) (hn : AllNatural code)
    (ht : ∀ x, t.Knows x → IsName x) (hmarks : ∀ m ∈ marks code, NameChars m.name.toList) :
    ∀ i ∈ code, i.Legible := by
  intro i hi
  refine ⟨fun v hv => ?_, fun m hm => hmarks m (List.mem_filterMap.2 ⟨i, hi, hm⟩), ?_⟩
  · obtain ⟨τ, hτ⟩ := (h i hi).values v hv
    exact hτ.legible (hn i hi v hv) ht
  · rintro name left right dst rfl
    exact h _ hi

end

/-! ## Programs -/

/-- The code `p` is made of a text that passes validation. -/
def Program.IsCodeOf (text : String) (p : Program) : Prop :=
  ∃ ts tree q t u, tokens text = .ok ts ∧ Program.ofTokens ts = .ok tree ∧
    tree.validate [] = .ok (q, t) ∧ ofChecked q t = .ok (p, u)

/-- The names of the table that code leaves behind are words of the text, or made of words. -/
theorem isName_of_knows {tree q : IntegerC.Program} {t : SymbolTable}
    {r : Program × SymbolTable} (hchecked : q.Checked t) (hr : Program.ofChecked q t = .ok r)
    (ht : ∀ x ∈ t.names, tree.DeclaresWordOf x)
    (hwords : ∀ part ∈ tree.parts, ∀ word ∈ part.declared, IsIdentifier word) :
    ∀ x, r.2.Knows x → IsName x := by
  intro x hx
  obtain ⟨⟨fs, s⟩, hfs, e⟩ := bind_eq_ok.1 hr
  cases e
  obtain ⟨hgrows, -⟩ := (Coder.functions_made q.decls ⟨t, 0, 0⟩ hchecked.typed
    hchecked.labelled hchecked.consistent).ok_of_eq hfs
  obtain hx | ⟨n, rfl⟩ := hgrows.made x hx
  · exact (ht x (mem_names_of_knows hx)).isName hwords
  · exact isName_temporaryName n

/-- Names of accepted texts are words or made by a pass, and their constants are not negative where
they stand in code. -/
theorem Program.IsCodeOf.legible {text : String} {p : Program} (h : p.IsCodeOf text) :
    p.Legible := by
  obtain ⟨ts, tree, q, t, u, hts, htree, hq, hp⟩ := h
  have hwords := IntegerC.Program.identifiers_of_text hts htree
  obtain ⟨r, l, hr, hl, hq, hnatural⟩ := IntegerC.Program.stages_of_text hts htree hq
  have hvalidated := IntegerC.Program.validated_of_text hts htree hr hl hq
  have htable := IntegerC.Program.tableNames_of_text hts htree hr hl hq
  -- names in the table were written in the text, or made by a pass
  have hnames := isName_of_knows hvalidated.checked hp htable hwords
  obtain ⟨hrange, -⟩ := hvalidated.code_inRange hnatural hp
  obtain ⟨hmade, -⟩ := (ofChecked_made hvalidated.checked).ok_of_eq hp
  obtain ⟨hi, hloops⟩ := hvalidated.loops
  rw [← Decl.loops_of_elaborate hvalidated.elaborates.2] at hloops
  obtain ⟨fs, temps, hlinks⟩ := ofChecked_links hvalidated.checked hloops hp
  have htops : p.topLevels = fs.map .function ++ (staticVars t).map .static := hlinks.topLevels
  intro top htop
  cases top with
  | function f =>
      have hf : f ∈ fs := by simpa [htops] using htop
      obtain ⟨d, -, hd⟩ := forall₂_exists_left hlinks.functions hf
      obtain ⟨σ, defined, hfind⟩ := hd.linkage
      have hmarks := (hmade.functions f htop).typed.marks_nameChars hnames hd.enclosed
        fun l hl => hlinks.named l (List.mem_flatMap.2 ⟨f, hf, hl⟩)
      refine ⟨?_, fun x hx => ?_,
        (hmade.functions f htop).typed.legible (hrange.functions f htop) hnames hmarks⟩
      · rw [hd.name]
        exact (hvalidated.named_of_find? hfind).nameChars
      · obtain ⟨τ, hτ⟩ := (hmade.functions f htop).params x hx
        exact hnames x (SymbolTable.knows_of_typeOf? hτ)
  | static v =>
      have hv : v ∈ staticVars t := by simpa [htops] using htop
      have hmem := (names_staticVars_sublist t).subset (List.mem_map_of_mem hv)
      exact (hvalidated.named _ hmem).nameChars

/-- The text of a function with a static variable and with a loop. -/
def countingText : String :=
  "static long n = 7; int f(int a) \x7b while (a < n) \x7b a = -a + 1; \x7d return f(a); \x7d"

/-- A text with the same code, in which words stand in another order, a sum stands for its value and
braces and parentheses stand at other places. -/
def rewrittenCountingText : String :=
  "long static n = 3 + 4; int f(int a) " ++
    "\x7b while ((a) < n) a = (-a) + 1; \x7b; return f(a); \x7d\x7d"

/-- Programs that are made of texts have the same listing only if they are the same. -/
theorem Program.listing_inj_of_texts {text text' : String} {p q : Program}
    {ending : Text.LineEnding} (hp : p.IsCodeOf text) (hq : q.IsCodeOf text')
    (h : p.listing ending = q.listing ending) : p = q :=
  hp.legible.listing_inj hq.legible h

theorem Program.listing_inj_of_countingText :
    ∃ p q : Program, p.IsCodeOf countingText ∧ q.IsCodeOf rewrittenCountingText ∧
      p.listing .lf = q.listing .lf ∧ p.lines.length = 15 ∧ p = q := by
  have hchars : countingText.toList = _ := String.toList_ofList
  have hchars' : rewrittenCountingText.toList = _ :=
    toList_append_eq String.toList_ofList String.toList_ofList
  have h : ((tokens countingText).toOption.bind fun ts =>
      (IntegerC.Program.ofTokens ts).toOption.bind fun tree =>
        (tree.validate []).toOption.bind fun r => (ofChecked r.1 r.2).toOption.bind fun c =>
          (tokens rewrittenCountingText).toOption.bind fun ts' =>
            (IntegerC.Program.ofTokens ts').toOption.bind fun tree' =>
              (tree'.validate []).toOption.bind fun r' =>
                (ofChecked r'.1 r'.2).toOption.bind fun c' =>
                  some (decide (c.1.lines = c'.1.lines), c.1.lines.length)) = some (true, 15) := by
    rw [tokens, tokens, hchars, hchars']
    decide +kernel
  obtain ⟨ts, hts, h⟩ := toOption_bind_eq_some.1 h
  obtain ⟨tree, htree, h⟩ := toOption_bind_eq_some.1 h
  obtain ⟨⟨r, t⟩, hr, h⟩ := toOption_bind_eq_some.1 h
  obtain ⟨⟨p, u⟩, hp, h⟩ := toOption_bind_eq_some.1 h
  obtain ⟨ts', hts', h⟩ := toOption_bind_eq_some.1 h
  obtain ⟨tree', htree', h⟩ := toOption_bind_eq_some.1 h
  obtain ⟨⟨r', t'⟩, hr', h⟩ := toOption_bind_eq_some.1 h
  obtain ⟨⟨q, u'⟩, hq, h⟩ := toOption_bind_eq_some.1 h
  simp only [Option.some.injEq, Prod.mk.injEq, decide_eq_true_eq] at h
  have hcode : p.IsCodeOf countingText := ⟨ts, tree, r, t, u, hts, htree, hr, hp⟩
  have hcode' : q.IsCodeOf rewrittenCountingText := ⟨ts', tree', r', t', u', hts', htree', hr', hq⟩
  have hlisting : p.listing .lf = q.listing .lf := congrArg Text.LineEnding.lf.unlines h.1
  exact ⟨p, q, hcode, hcode', hlisting, h.2, listing_inj_of_texts hcode hcode' hlisting⟩

end ThreeAddress

end IntegerC
