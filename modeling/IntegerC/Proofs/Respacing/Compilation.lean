import IntegerC.Proofs.Compilation
import IntegerC.Proofs.Grammar
import IntegerC.Proofs.Respacing.Coding
import IntegerC.Proofs.Respacing.Parsing
import IntegerC.Proofs.Respacing.Validation

set_option autoImplicit false

/-! # Compiling two layouts

The layout of a text, which is what stands between its tokens, has no influence on how it is
compiled: texts with the same tokens are compiled to the same texts, or refused for the same reason
at places of their own.
-/

namespace IntegerC

/-! ## Two ends -/

variable {α α' β : Type}

/-- Both computations succeed with one result, or both fail with faults that only differ in their
spans. -/
def EndAlike (r r' : Except Fault α) : Prop := r.mapError Fault.bare = r'.mapError Fault.bare

namespace EndAlike

theorem cases {r r' : Except Fault α} (h : EndAlike r r') :
    (∃ a, r = .ok a ∧ r' = .ok a) ∨ ∃ f f', r = .error f ∧ r' = .error f' ∧ f'.bare = f.bare := by
  cases r with
  | ok a =>
      cases r' with
      | ok a' =>
          cases h
          exact .inl ⟨a, rfl, rfl⟩
      | error f' => cases h
  | error f =>
      cases r' with
      | ok a' => cases h
      | error f' => exact .inr ⟨f, f', rfl, rfl, (Except.error.inj h).symm⟩

theorem trans {r r' r'' : Except Fault α} (h : EndAlike r r') (h' : EndAlike r' r'') :
    EndAlike r r'' := Eq.trans h h'

theorem symm {r r' : Except Fault α} (h : EndAlike r r') : EndAlike r' r := Eq.symm h

theorem ite {c : Prop} [Decidable c] {x : Except Fault α} {y y' : Except Fault α}
    (h : EndAlike y y') : EndAlike (if c then x else y) (if c then x else y') := by
  split
  · rfl
  · exact h

end EndAlike

theorem Cause.bare_bare (c : Cause) : c.bare.bare = c.bare := by cases c <;> rfl

theorem Fault.bare_bare (f : Fault) : f.bare.bare = f.bare := by
  obtain ⟨c, s⟩ := f
  cases s <;> simp [bare, Cause.bare_bare]

/-- Computations end alike if they go on in the same way without spans. -/
theorem Mirrors.endAlike {f : α → α'} {r : Except Fault α} {r' : Except Fault α'}
    {g : α → Except Fault β} {g' : α' → Except Fault β} (hr : Mirrors f r r')
    (hg : ∀ a, EndAlike (g a) (g' (f a))) : EndAlike (r >>= g) (r' >>= g') := by
  cases r with
  | ok a =>
      cases hr
      exact hg a
  | error e =>
      cases hr
      exact congrArg Except.error e.bare_bare.symm

/-! ## Stages -/

theorem Program.validate_bare (p : Program) (t : SymbolTable) :
    Mirrors (Prod.map bare id) (p.validate t) (p.bare.validate t) :=
  p.resolve_bare.bind fun r => r.nameLoops_bare.bind fun l => l.check_bare t

/-- The stages behind the lexer. -/
def stagesOfTokens (ts : List Token) (stop : Option Stage) : Except Fault (Option Compiled) := do
  if stop = some .lexing then return none
  let tree ← Program.ofTokens ts
  if stop = some .parsing then return none
  let (checked, symbols) ← tree.validate []
  if stop = some .validation then return none
  let (code, symbols) ← ThreeAddress.Program.ofChecked checked symbols
  if stop = some .threeAddress then return none
  let (machine, symbols) ← Machine.Program.ofThreeAddress code symbols
  if stop = some .machineCode then return none
  return some ⟨code, machine, symbols⟩

theorem runStages_of_tokens {text : String} {ts : List Token} (h : tokens text = .ok ts)
    (stop : Option Stage) : runStages text stop = stagesOfTokens ts stop := by
  rw [runStages, h]
  rfl

/-- Places of tokens only go into faults. -/
theorem stagesOfTokens_bare (ts : List Token) (stop : Option Stage) :
    EndAlike (stagesOfTokens ts stop) (stagesOfTokens (ts.map Token.bare) stop) :=
  .ite ((Program.ofTokens_bare ts).endAlike fun tree =>
    .ite ((tree.validate_bare []).endAlike fun checked =>
      .ite ((ThreeAddress.Program.ofChecked_bare checked.1 checked.2).endAlike fun _ => rfl)))

section

variable {text text' : String} {ts ts' : List Token}

/-- Both texts have tokens that read as the same bare program, and every stage mirrors its bare
run. -/
theorem runStages_respaced (hts : tokens text = .ok ts) (hts' : tokens text' = .ok ts')
    (h : ts.map Token.lexeme = ts'.map Token.lexeme) (stop : Option Stage) :
    EndAlike (runStages text stop) (runStages text' stop) := by
  have hbare (us : List Token) : us.map Token.bare =
      (us.map Token.lexeme).map fun l => ⟨l.kind, l.text, .nowhere⟩ := by
    rw [List.map_map]
    rfl
  have hsame : ts.map Token.bare = ts'.map Token.bare := by rw [hbare, hbare, h]
  rw [runStages_of_tokens hts, runStages_of_tokens hts']
  refine (stagesOfTokens_bare ts stop).trans ?_
  rw [hsame]
  exact (stagesOfTokens_bare ts' stop).symm

/-! ## Results -/

/-- Two texts with the same tokens, whatever stands between these, are compiled to the same texts,
or each of them is refused with one diagnostic, of one category, severity and message. -/
theorem compile_respaced (hts : tokens text = .ok ts) (hts' : tokens text' = .ok ts')
    (h : ts.map Token.lexeme = ts'.map Token.lexeme) (file : String) (o : Options) :
    (∃ artifacts, compile file text o .standard = ⟨[], artifacts⟩ ∧
      compile file text' o .standard = ⟨[], artifacts⟩) ∨
    ∃ d d' : Diagnostic, compile file text o .standard = ⟨[d], []⟩ ∧
      compile file text' o .standard = ⟨[d'], []⟩ ∧
      d'.category = d.category ∧ d'.severity = d.severity ∧ d'.message = d.message := by
  rcases (runStages_respaced hts hts' h o.stopAfter).cases with
    ⟨r, hr, hr'⟩ | ⟨f, f', hf, hf', hbare⟩
  · refine .inl ?_
    rcases compile_ends file text o with ⟨f, hf, -, -⟩ | ⟨_, artifacts, -, -, hc⟩
    · rw [hr] at hf
      cases hf
    · refine ⟨artifacts, hc, ?_⟩
      rw [← hc, compile, compile, hr, hr']
  · have hcause : f'.cause.bare = f.cause.bare := congrArg Fault.cause hbare
    refine .inr ⟨f.diagnostic file, f'.diagnostic file, ?_, ?_, ?_, rfl, ?_⟩
    · rw [compile, hf]
    · rw [compile, hf']
    · exact (f'.cause.category_bare.symm.trans (congrArg Cause.category hcause)).trans
        f.cause.category_bare
    · exact (f'.cause.message_bare.symm.trans (congrArg Cause.message hcause)).trans
        f.cause.message_bare

end

/-- The text of a function that returns the quotient of its parameter by a variable that is not
declared. -/
def denseText : String := "int f(int n)\x7breturn n/x;\x7d"

/-- The same with a line marker, comments and more blanks. -/
def looseText : String :=
  "# 1 \"f.c\"\nint f ( int n ) // divides\n\x7b\n  return n / /* by */ x ;\n\x7d\n"

theorem compile_looseText : ∃ ts ts', tokens denseText = .ok ts ∧ tokens looseText = .ok ts' ∧
    ts ≠ ts' ∧ ts.map Token.lexeme = ts'.map Token.lexeme ∧
    ∀ (file : String) (o : Options),
      (∃ artifacts, compile file denseText o .standard = ⟨[], artifacts⟩ ∧
        compile file looseText o .standard = ⟨[], artifacts⟩) ∨
      ∃ d d' : Diagnostic, compile file denseText o .standard = ⟨[d], []⟩ ∧
        compile file looseText o .standard = ⟨[d'], []⟩ ∧
        d'.category = d.category ∧ d'.severity = d.severity ∧ d'.message = d.message := by
  have h : ((tokens denseText).toOption.bind fun ts => (tokens looseText).toOption.bind fun ts' =>
      some (decide (ts ≠ ts'), decide (ts.map Token.lexeme = ts'.map Token.lexeme))) =
      some (true, true) := by
    decide +kernel
  obtain ⟨ts, hts, h⟩ := toOption_bind_eq_some.1 h
  obtain ⟨ts', hts', h⟩ := toOption_bind_eq_some.1 h
  simp only [Option.some.injEq, Prod.mk.injEq, decide_eq_true_eq] at h
  exact ⟨ts, ts', hts, hts', h.1, h.2, fun file o => compile_respaced hts hts' h.2 file o⟩

end IntegerC
