import IntegerC.Compilation
import IntegerC.Proofs.Machine.Writing
import IntegerC.Proofs.Parsing

set_option autoImplicit false

/-! # How a compilation ends

The first three stages refuse a text at a piece that begins in it, or hand on what the next stage
relies on; the stages behind them never fail. So a compilation that uses the writers of line feeds
ends with the texts that are asked for, or with a single error that a source text can give rise to.
-/

namespace IntegerC

/-! ## Stages -/

namespace Stage

def index : Stage → Nat
  | lexing => 0
  | parsing => 1
  | validation => 2
  | threeAddress => 3
  | machineCode => 4

instance : LE Stage := ⟨fun s s' => s.index ≤ s'.index⟩

instance (s s' : Stage) : Decidable (s ≤ s') := inferInstanceAs (Decidable (s.index ≤ s'.index))

@[simp]
theorem le_iff {s s' : Stage} : s ≤ s' ↔ s.index ≤ s'.index := Iff.rfl

theorem exists_iff {q : Stage → Prop} :
    (∃ s, q s) ↔ q lexing ∨ q parsing ∨ q validation ∨ q threeAddress ∨ q machineCode := by
  constructor
  · rintro ⟨s, h⟩
    cases s <;> simp [h]
  · rintro (h | h | h | h | h) <;> exact ⟨_, h⟩

/-- The stages before it succeed on the text, and the stage itself fails. -/
def FailsWith (text : String) (f : Fault) : Stage → Prop
  | lexing => tokens text = .error f
  | parsing => ∃ ts, tokens text = .ok ts ∧ Program.ofTokens ts = .error f
  | validation => ∃ ts tree, tokens text = .ok ts ∧ Program.ofTokens ts = .ok tree ∧
      tree.validate [] = .error f
  | threeAddress => ∃ ts tree checked, tokens text = .ok ts ∧ Program.ofTokens ts = .ok tree ∧
      tree.validate [] = .ok checked ∧
      ThreeAddress.Program.ofChecked checked.1 checked.2 = .error f
  | machineCode => ∃ ts tree checked code, tokens text = .ok ts ∧
      Program.ofTokens ts = .ok tree ∧ tree.validate [] = .ok checked ∧
      ThreeAddress.Program.ofChecked checked.1 checked.2 = .ok code ∧
      Machine.Program.ofThreeAddress code.1 code.2 = .error f

/-- Whether a stage is carried out when a compilation stops after `stop`. -/
def Reached (stop : Option Stage) (s : Stage) : Prop := ∀ last ∈ stop, s ≤ last

@[simp]
theorem reached_none (s : Stage) : s.Reached none := by simp [Reached]

@[simp]
theorem reached_some (s last : Stage) : s.Reached (some last) ↔ s ≤ last := by simp [Reached]

variable (stop : Option Stage)

theorem reached_lexing : lexing.Reached stop := by
  rcases stop with _ | (_ | _ | _ | _ | _) <;> simp [index]

theorem reached_parsing : parsing.Reached stop ↔ stop ≠ some lexing := by
  rcases stop with _ | (_ | _ | _ | _ | _) <;> simp [index]

theorem reached_validation :
    validation.Reached stop ↔ parsing.Reached stop ∧ stop ≠ some parsing := by
  rcases stop with _ | (_ | _ | _ | _ | _) <;> simp [index]

theorem reached_threeAddress :
    threeAddress.Reached stop ↔ validation.Reached stop ∧ stop ≠ some validation := by
  rcases stop with _ | (_ | _ | _ | _ | _) <;> simp [index]

theorem reached_machineCode :
    machineCode.Reached stop ↔ threeAddress.Reached stop ∧ stop ≠ some threeAddress := by
  rcases stop with _ | (_ | _ | _ | _ | _) <;> simp [index]

end Stage

theorem ite_pure_eq_error_iff {α : Type} {c : Prop} [Decidable c] {a : α}
    {y : Except Fault α} {f : Fault} :
    (if c then Pure.pure a else y) = .error f ↔ ¬ c ∧ y = .error f := by
  split <;> simp_all [pure, Except.pure]

/-- The first stage that fails decides how the stages end, unless they stop before it. -/
theorem runStages_eq_error {text : String} {stop : Option Stage} {f : Fault} :
    runStages text stop = .error f ↔ ∃ s : Stage, s.Reached stop ∧ s.FailsWith text f := by
  rw [Stage.exists_iff]
  simp only [runStages, bind_eq_error_iff, ite_pure_eq_error_iff,
    Stage.reached_machineCode, Stage.reached_threeAddress, Stage.reached_validation,
    Stage.reached_parsing, Stage.reached_lexing, Stage.FailsWith]
  constructor
  · rintro (h | ⟨ts, hts, hl, h | ⟨tree, htree, hp, h | ⟨checked, hchecked, hv,
      h | ⟨code, hcode, ht, h | ⟨machine, hmachine, hm, h⟩⟩⟩⟩⟩)
    · exact .inl ⟨trivial, h⟩
    · exact .inr (.inl ⟨hl, ts, hts, h⟩)
    · exact .inr (.inr (.inl ⟨⟨hl, hp⟩, ts, tree, hts, htree, h⟩))
    · exact .inr (.inr (.inr (.inl ⟨⟨⟨hl, hp⟩, hv⟩, ts, tree, checked, hts, htree, hchecked, h⟩)))
    · exact .inr (.inr (.inr (.inr
        ⟨⟨⟨⟨hl, hp⟩, hv⟩, ht⟩, ts, tree, checked, code, hts, htree, hchecked, hcode, h⟩)))
    · cases h
  · rintro (⟨-, h⟩ | ⟨hl, ts, hts, h⟩ | ⟨⟨hl, hp⟩, ts, tree, hts, htree, h⟩ |
      ⟨⟨⟨hl, hp⟩, hv⟩, ts, tree, checked, hts, htree, hchecked, h⟩ |
      ⟨⟨⟨⟨hl, hp⟩, hv⟩, ht⟩, ts, tree, checked, code, hts, htree, hchecked, hcode, h⟩)
    · exact .inl h
    · exact .inr ⟨ts, hts, hl, .inl h⟩
    · exact .inr ⟨ts, hts, hl, .inr ⟨tree, htree, hp, .inl h⟩⟩
    · exact .inr ⟨ts, hts, hl, .inr ⟨tree, htree, hp, .inr ⟨checked, hchecked, hv, .inl h⟩⟩⟩
    · exact .inr ⟨ts, hts, hl, .inr ⟨tree, htree, hp, .inr ⟨checked, hchecked, hv,
        .inr ⟨code, hcode, ht, .inl h⟩⟩⟩⟩

/-! ## Faults of a text -/

/-- A program that was read is checked, or it is refused at one of its spans. -/
theorem Program.validate_ensures {p : Span → Prop} {t : Program} (h : Part.AllRead p t.parts) :
    Ensures (t.validate []) (Fault.At p) (fun r => r.1.Checked r.2) := by
  refine (Program.resolve_ensures h).bind fun resolved ⟨hi, hresolved⟩ => ?_
  refine (Program.nameLoops_ensures hresolved.read).bind fun labelled ⟨hsame, hlabelled⟩ => ?_
  exact Program.check_ensures (.of_resolved (hsame.resolved hresolved)) hlabelled

/-- Machine code for code with typed instructions is found, and it has lines on every platform. -/
theorem Machine.Program.ofThreeAddress_succeeds {p : ThreeAddress.Program} {t : SymbolTable}
    (h : p.Made t) : Succeeds (Machine.Program.ofThreeAddress p t) (fun r => r.1.Writable) := by
  refine (Machine.Program.ofCode_known h).bind fun chosen hknown => ?_
  refine (Machine.Program.placed_succeeds h.consistent hknown).bind fun placed hplaced => .pure ?_
  exact Machine.Program.writable_encodable hplaced

/-- What is read from a text is written in it. -/
theorem Program.written_of_text {text : String} {ts : List Token} {tree : Program}
    (hts : tokens text = .ok ts) (htree : Program.ofTokens ts = .ok tree) :
    Part.AllWritten (LineMap.ofChars text.toList) tree.parts :=
  (ofTokens_written ((tokens_ensures text).ok_of_eq hts)).ok_of_eq htree

/-- What is read from a text blames pieces that begin in it. -/
theorem Program.allRead_of_text {text : String} {ts : List Token} {tree : Program}
    (hts : tokens text = .ok ts) (htree : Program.ofTokens ts = .ok tree) :
    Part.AllRead (LineMap.ofChars text.toList).Begins tree.parts :=
  (ofTokens_ensures ((tokens_ensures text).ok_of_eq hts)).ok_of_eq htree

/-- What passes validation is checked. -/
theorem Program.checked_of_text {text : String} {ts : List Token} {tree : Program}
    {r : Program × SymbolTable} (hts : tokens text = .ok ts)
    (htree : Program.ofTokens ts = .ok tree) (hr : tree.validate [] = .ok r) :
    r.1.Checked r.2 :=
  (Program.validate_ensures (Program.allRead_of_text hts htree)).ok_of_eq hr

/-- Only the first three stages refuse a text, and they blame a piece that begins in it. -/
theorem Stage.FailsWith.blames {text : String} {f : Fault} {s : Stage} (h : s.FailsWith text f) :
    s ≤ validation ∧ f.At (LineMap.ofChars text.toList).Begins := by
  cases s with
  | lexing => exact ⟨by decide, (tokens_ensures text).bad_of_eq h⟩
  | parsing =>
    obtain ⟨ts, hts, hf⟩ := h
    have htokens := (tokens_ensures text).ok_of_eq hts
    exact ⟨by decide, (ofTokens_ensures htokens).bad_of_eq hf⟩
  | validation =>
    obtain ⟨ts, tree, hts, htree, hf⟩ := h
    have hread := Program.allRead_of_text hts htree
    exact ⟨by decide, (Program.validate_ensures hread).bad_of_eq hf⟩
  | threeAddress =>
    obtain ⟨ts, tree, checked, hts, htree, hchecked, hf⟩ := h
    have hvalid := Program.checked_of_text hts htree hchecked
    exact ((ThreeAddress.Program.ofChecked_made hvalid).bad_of_eq hf).elim
  | machineCode =>
    obtain ⟨ts, tree, checked, code, hts, htree, hchecked, hcode, hf⟩ := h
    have hvalid := Program.checked_of_text hts htree hchecked
    have hmade := (ThreeAddress.Program.ofChecked_made hvalid).ok_of_eq hcode
    exact ((Machine.Program.ofThreeAddress_succeeds hmade.1).bad_of_eq hf).elim

/-- The results of all stages on a text that they accept. -/
theorem runStages_eq_some {text : String} {c : Compiled} (h : runStages text none = .ok (some c)) :
    ∃ ts tree p t r, tokens text = .ok ts ∧ Program.ofTokens ts = .ok tree ∧
      tree.validate [] = .ok (p, t) ∧ ThreeAddress.Program.ofChecked p t = .ok r ∧ c.code = r.1 ∧
      Machine.Program.ofThreeAddress r.1 r.2 = .ok (c.machine, c.symbols) := by
  simp only [runStages, reduceCtorEq, if_false, bind_eq_ok] at h
  obtain ⟨ts, hts, tree, htree, ⟨p, t⟩, hp, r, hr, ⟨m, s⟩, hm, hc⟩ := h
  cases hc
  exact ⟨ts, tree, p, t, r, hts, htree, hp, hr, rfl, hm⟩

/-- What the stages may hand on: with a stop nothing, and else a program that has lines. -/
def HandsOn (stop : Option Stage) (r : Option Compiled) : Prop :=
  match stop with
  | some _ => r = none
  | none => ∃ c : Compiled, r = some c ∧ c.machine.Writable

/-- The faults of the stages are those of source texts, at places of the text. Each stage is run on
what the one before it ensures. -/
theorem runStages_ensures (text : String) (stop : Option Stage) :
    Ensures (runStages text stop) (Fault.At (LineMap.ofChars text.toList).Begins)
      (HandsOn stop) := by
  have stopped : ∀ {s : Stage}, stop = some s → Ensures (.ok (none : Option Compiled))
      (Fault.At (LineMap.ofChars text.toList).Begins) (HandsOn stop) := by
    rintro s rfl
    rfl
  refine (tokens_ensures text).bind fun ts hts => .ite stopped fun lexing => ?_
  refine (ofTokens_ensures hts).bind fun tree htree => .ite stopped fun parsing => ?_
  refine (Program.validate_ensures htree).bind fun checked hvalid =>
    .ite stopped fun validation => ?_
  have hcode := ThreeAddress.Program.ofChecked_made hvalid
  refine (hcode.mono (fun _ => False.elim) fun _ => id).bind fun code hmade =>
    .ite stopped fun threeAddress => ?_
  have hmachine := Machine.Program.ofThreeAddress_succeeds hmade.1
  refine (hmachine.mono (fun _ => False.elim) fun _ => id).bind fun machine hw =>
    .ite stopped fun machineCode => .pure ?_
  cases stop with
  | none => exact ⟨_, rfl, hw⟩
  | some s => cases s <;> contradiction

/-! ## Results -/

/-- The two texts of a program, as far as the options ask for them. -/
def Options.texts (o : Options) (assembly listing : String) : List Artifact :=
  (if o.writeAssembly then [⟨.assembly, assembly⟩] else []) ++
    (if o.writeListing then [⟨.listing, listing⟩] else [])

/-- The texts that the options ask for: none if the compilation stops early, and otherwise what is
written of the code that the stages make of the source. -/
def Options.Requests (o : Options) (text : String) (artifacts : List Artifact) : Prop :=
  match o.stopAfter with
  | some _ => artifacts = []
  | none => ∃ c assembly, runStages text none = .ok (some c) ∧
      c.machine.assembly o.platform c.symbols .lf = .ok assembly ∧
      artifacts = o.texts assembly (c.code.listing .lf)

/-- An error that the text of a file can give rise to, at an offset inside it. -/
def Diagnostic.Blames (d : Diagnostic) (file text : String) : Prop :=
  d.category ∈ Category.ofText ∧ d.severity = .error ∧ d.file = file ∧
    ∃ offset : Nat, offset ≤ Text.unitsOf text.toList ∧
      d.line = some ((LineMap.ofChars text.toList).position offset).line ∧
      d.column = some ((LineMap.ofChars text.toList).position offset).column

/-- A fault that begins in the text becomes a user diagnostic at a position of that text. -/
theorem Fault.At.blames {f : Fault} {text : String} (file : String)
    (h : f.At (LineMap.ofChars text.toList).Begins) : (f.diagnostic file).Blames file text := by
  obtain ⟨hcause, s, hs, o, ho, hstart⟩ := h
  refine ⟨hcause.1, rfl, rfl, o, ho, ?_, ?_⟩
  · rw [Fault.diagnostic, hs, ← hstart]
    rfl
  · rw [Fault.diagnostic, hs, ← hstart]
    rfl

/-- With a machine program that can be written, writing artifacts to the standard output cannot
fail. -/
theorem Compiled.write_standard {c : Compiled} (h : c.machine.Writable) (file : String)
    (o : Options) : ∃ assembly, c.machine.assembly o.platform c.symbols .lf = .ok assembly ∧
      c.write file o .standard = .ok ⟨[], o.texts assembly (c.code.listing .lf)⟩ := by
  obtain ⟨assembly, hassembly, -⟩ :=
    (Machine.Program.assembly_succeeds h o.platform c.symbols .lf).exists_ok
  refine ⟨assembly, hassembly, ?_⟩
  cases hw : o.writeAssembly <;> cases hl : o.writeListing <;>
    simp [write, Writers.standard, Options.texts, hassembly, hw, hl, Except.map, bind, Except.bind,
      pure, Except.pure]

/-- A compilation ends with the texts that are asked for, or with one error and no text. -/
theorem compile_ends (file text : String) (o : Options) :
    (∃ f, runStages text o.stopAfter = .error f ∧ (f.diagnostic file).Blames file text ∧
      compile file text o .standard = ⟨[f.diagnostic file], []⟩) ∨
    ∃ r artifacts, runStages text o.stopAfter = .ok r ∧ o.Requests text artifacts ∧
      compile file text o .standard = ⟨[], artifacts⟩ := by
  have hstages := runStages_ensures text o.stopAfter
  cases hr : runStages text o.stopAfter with
  | error f =>
    refine .inl ⟨f, rfl, (hstages.bad_of_eq hr).blames file, ?_⟩
    rw [compile, hr]
  | ok r =>
    have hands := hstages.ok_of_eq hr
    cases hstop : o.stopAfter with
    | some s =>
      rw [hstop] at hands
      cases hands
      refine .inr ⟨none, [], rfl, ?_, ?_⟩
      · rw [Options.Requests, hstop]
      · rw [compile, hr]
    | none =>
      rw [hstop] at hands hr
      obtain ⟨c, rfl, hw⟩ := hands
      obtain ⟨assembly, hassembly, hwrite⟩ := Compiled.write_standard hw file o
      refine .inr ⟨some c, o.texts assembly (c.code.listing .lf), rfl, ?_, ?_⟩
      · rw [Options.Requests, hstop]
        exact ⟨c, assembly, hr, hassembly, rfl⟩
      · rw [compile, hstop, hr]
        simp only [hwrite]

/-- There are diagnostics exactly if a stage that is reached fails. -/
theorem diagnostics_ne_nil_iff {file text : String} {o : Options} :
    (compile file text o .standard).diagnostics ≠ [] ↔
      ∃ s : Stage, s.Reached o.stopAfter ∧ ∃ f, s.FailsWith text f := by
  constructor
  · intro hne
    rcases compile_ends file text o with ⟨f, hf, -, -⟩ | ⟨r, artifacts, -, -, h⟩
    · obtain ⟨s, hreached, hfails⟩ := runStages_eq_error.1 hf
      exact ⟨s, hreached, f, hfails⟩
    · exact absurd (congrArg Outcome.diagnostics h) hne
  · rintro ⟨s, hreached, f, hfails⟩
    have hf := runStages_eq_error.2 ⟨s, hreached, hfails⟩
    simp [compile, hf]

/-- Every compilation with the writers of line feeds ends in one of two ways, and only the first
three stages ever refuse a text. A stop hides the error of a later stage and changes no error. -/
theorem compile_standard (file text : String) (o : Options) :
    (((compile file text o .standard).diagnostics = [] ∧
        o.Requests text (compile file text o .standard).artifacts) ∨
      ∃ d : Diagnostic, (compile file text o .standard).diagnostics = [d] ∧ d.Blames file text ∧
        (compile file text o .standard).artifacts = []) ∧
    (∀ s f, Stage.FailsWith text f s → s ≤ .validation) ∧
    ∀ s, ((compile file text { o with stopAfter := some s } .standard).diagnostics ≠ [] ↔
        ∃ s' ≤ s, ∃ f, Stage.FailsWith text f s') ∧
      ((compile file text { o with stopAfter := some s } .standard).diagnostics ≠ [] →
        (compile file text { o with stopAfter := some s } .standard).diagnostics =
          (compile file text { o with stopAfter := none } .standard).diagnostics) := by
  -- the two ends, the stages that refuse, and what a stop changes
  refine ⟨?_, fun s f h => h.blames.1, fun s => ⟨?_, fun hne => ?_⟩⟩
  · rcases compile_ends file text o with ⟨f, -, hblames, h⟩ | ⟨r, artifacts, -, hrequests, h⟩
    · rw [h]
      exact .inr ⟨f.diagnostic file, rfl, hblames, rfl⟩
    · rw [h]
      exact .inl ⟨rfl, hrequests⟩
  · rw [diagnostics_ne_nil_iff]
    simp only [Stage.reached_some]
  · obtain ⟨s', hreached, f, hfails⟩ := diagnostics_ne_nil_iff.1 hne
    have hstop : runStages text (some s) = .error f := runStages_eq_error.2 ⟨s', hreached, hfails⟩
    have hnone : runStages text none = .error f :=
      runStages_eq_error.2 ⟨s', s'.reached_none, hfails⟩
    simp only [compile, hstop, hnone]

end IntegerC
