import IntegerC.CommandLine
import IntegerC.Proofs.CommandLine.Groups
import IntegerC.Proofs.Compilation

set_option autoImplicit false

/-! # How a run of the command ends

Arguments that are not accepted end a run with the code 2, a file that cannot be read and a source
with an error end it with the code 1, and everything else with 0. A run writes files only if it ends
with 0 and compiles to the end, and then every option has the value that was chosen last.
-/

namespace IntegerC.CommandLine

/-! ## Effects -/

/-- The file cannot be read, or its text is refused when it is compiled as the choices ask for. -/
def Fails (cwd : String) (fs : Files) (cs : List Choice) (file : String) : Prop :=
  (∃ failure, fs.read cwd (Path.resolve cwd file) = .error failure) ∨
    ∃ text, fs.read cwd (Path.resolve cwd file) = .ok text ∧
      ∃ d ∈ (compile (Path.resolve cwd file) text (Settings.ofChoices cs).options
        .standard).diagnostics, d.severity = .error

/-- A run that reports an error and does nothing else. -/
structure Effect.Refuses (e : Effect) : Prop where
  code : e.code = 1
  out : e.out = ""
  writes : e.writes = []

theorem Effect.ofOutcome_refuses {assembly : String} {o : Outcome}
    (h : ∃ d ∈ o.diagnostics, d.severity = .error) : (ofOutcome assembly o).Refuses := by
  have hany : o.diagnostics.any (fun d => d.severity = .error) = true := by simpa using h
  unfold ofOutcome
  rw [if_pos hany]
  exact ⟨rfl, rfl, rfl⟩

theorem Effect.code_ofOutcome {assembly : String} {o : Outcome}
    (h : ¬ ∃ d ∈ o.diagnostics, d.severity = .error) : (ofOutcome assembly o).code = 0 := by
  have hany : ¬ o.diagnostics.any (fun d => d.severity = .error) = true := by simpa using h
  unfold ofOutcome
  rw [if_neg hany]

/-- Without texts nothing is printed and nothing is written. -/
theorem Effect.ofOutcome_silent {assembly : String} {o : Outcome} (h : o.artifacts = []) :
    (ofOutcome assembly o).out = "" ∧ (ofOutcome assembly o).writes = [] := by
  unfold ofOutcome
  split <;> simp [h]

/-! ## Runs for accepted arguments -/

variable {cwd : String} {fs : Files} {arguments : List String} {cs : List Choice} {file : String}

theorem run_of_asks_help (h : Asks arguments cs .help) :
    run cwd fs arguments = ⟨0, usage, "", []⟩ := by
  have hread := read_eq_ok_iff.2 ⟨cs, .help, h, rfl⟩
  simp only [run, runWith, hread]
  rfl

theorem run_of_asks_version (h : Asks arguments cs .version) :
    run cwd fs arguments = ⟨0, version ++ "\n", "", []⟩ := by
  have hread := read_eq_ok_iff.2 ⟨cs, .version, h, rfl⟩
  simp only [run, runWith, hread]
  rfl

theorem run_of_asks_file (h : Asks arguments cs (.file file)) : run cwd fs arguments =
    .ofOutcome (assemblyPath cwd (.ofChoices cs) file)
      (compileRead (.ofChoices cs) (Path.resolve cwd file)
        (fs.read cwd (Path.resolve cwd file))) := by
  have hread := read_eq_ok_iff.2 ⟨cs, .file file, h, rfl⟩
  simp only [run, runWith, hread]
  rfl

/-- Arguments that ask for nothing in the grammar of groups end in a misuse. -/
theorem run_of_not_asks (cwd : String) (fs : Files) (h : ¬ ∃ cs e, Asks arguments cs e) :
    ∃ m, run cwd fs arguments = .ofMisuse m := by
  cases hread : read arguments with
  | ok r =>
      obtain ⟨cs, e, hasks, -⟩ := read_eq_ok_iff.1 hread
      exact absurd ⟨cs, e, hasks⟩ h
  | error m =>
      refine ⟨m, ?_⟩
      simp only [run, runWith, hread]
      rfl

/-- A file that cannot be read or does not compile is refused, with nothing written. -/
theorem run_refuses (h : Asks arguments cs (.file file)) (hf : Fails cwd fs cs file) :
    (run cwd fs arguments).Refuses := by
  rw [run_of_asks_file h]
  refine Effect.ofOutcome_refuses ?_
  obtain ⟨failure, hread⟩ | ⟨text, hread, d, hd, herror⟩ := hf
  · rw [hread]
    exact ⟨_, List.mem_singleton_self _, rfl⟩
  · rw [hread]
    exact ⟨d, hd, herror⟩

theorem code_run (h : Asks arguments cs (.file file)) (hf : ¬ Fails cwd fs cs file) :
    (run cwd fs arguments).code = 0 := by
  rw [run_of_asks_file h]
  refine Effect.code_ofOutcome ?_
  cases hread : fs.read cwd (Path.resolve cwd file) with
  | error failure => exact absurd (.inl ⟨failure, hread⟩) hf
  | ok text => exact fun hd => hf (.inr ⟨text, hread, hd⟩)

/-- A compilation that stops at a stage hands on no text. -/
theorem compileRead_stopped {s : Settings} {stage : Stage} (hs : s.stage = some stage)
    (path : String) (input : Except ReadFailure String) :
    (compileRead s path input).artifacts = [] := by
  cases input with
  | error failure => rfl
  | ok text =>
      show (compile path text s.options .standard).artifacts = []
      rcases compile_ends path text s.options with ⟨f, -, -, h⟩ | ⟨r, artifacts, -, hrequests, h⟩
      · rw [h]
      · rw [h]
        rwa [Options.Requests, Settings.options, hs] at hrequests

theorem stage_ofChoices {stage : Stage} (h : .stage stage ∈ cs) :
    ∃ last, (Settings.ofChoices cs).stage = some last := by
  have hmem : stage ∈ cs.filterMap Choice.stage? := List.mem_filterMap.2 ⟨_, h, rfl⟩
  exact ⟨_, List.getLast?_eq_some_getLast (List.ne_nil_of_mem hmem)⟩

theorem run_stopped {stage : Stage} (h : Asks arguments cs (.file file))
    (hs : .stage stage ∈ cs) :
    (run cwd fs arguments).out = "" ∧ (run cwd fs arguments).writes = [] := by
  obtain ⟨last, hlast⟩ := stage_ofChoices hs
  rw [run_of_asks_file h]
  exact Effect.ofOutcome_silent (compileRead_stopped hlast _ _)

/-! ## All runs -/

/-- The four ways in which a run ends. -/
theorem run_cases (cwd : String) (fs : Files) (arguments : List String) :
    (¬ (∃ cs e, Asks arguments cs e) ∧ ∃ m, run cwd fs arguments = .ofMisuse m) ∨
    (∃ cs e, Asks arguments cs e ∧ (e = .help ∨ e = .version) ∧
      (run cwd fs arguments).code = 0 ∧ (run cwd fs arguments).writes = []) ∨
    (∃ cs file, Asks arguments cs (.file file) ∧ Fails cwd fs cs file ∧
      (run cwd fs arguments).Refuses) ∨
    ∃ cs file, Asks arguments cs (.file file) ∧ ¬ Fails cwd fs cs file ∧
      (run cwd fs arguments).code = 0 := by
  by_cases hasks : ∃ cs e, Asks arguments cs e
  · obtain ⟨cs, e, h⟩ := hasks
    cases e with
    | help =>
        refine .inr (.inl ⟨cs, .help, h, .inl rfl, ?_⟩)
        simp [run_of_asks_help h]
    | version =>
        refine .inr (.inl ⟨cs, .version, h, .inr rfl, ?_⟩)
        simp [run_of_asks_version h]
    | file file =>
        by_cases hf : Fails cwd fs cs file
        · exact .inr (.inr (.inl ⟨cs, file, h, hf, run_refuses h hf⟩))
        · exact .inr (.inr (.inr ⟨cs, file, h, hf, code_run h hf⟩))
  · exact .inl ⟨hasks, run_of_not_asks cwd fs hasks⟩

/-- The command is misused exactly when its arguments are no groups of choices in front of an
ending. -/
theorem code_eq_two_iff :
    (run cwd fs arguments).code = 2 ↔ ¬ ∃ cs e, Asks arguments cs e := by
  constructor
  · intro hcode
    obtain ⟨h, -⟩ | ⟨_, _, -, -, h, -⟩ | ⟨_, _, -, -, h⟩ | ⟨_, _, -, -, h⟩ :=
      run_cases cwd fs arguments
    · exact h
    · simp [h] at hcode
    · simp [h.code] at hcode
    · simp [h] at hcode
  · intro h
    obtain ⟨m, hm⟩ := run_of_not_asks cwd fs h
    rw [hm]
    rfl

/-- Exit code 1 tells of one file that was asked for and refused. -/
theorem code_eq_one_iff : (run cwd fs arguments).code = 1 ↔
    ∃ cs file, Asks arguments cs (.file file) ∧ Fails cwd fs cs file := by
  constructor
  · intro hcode
    obtain ⟨-, m, h⟩ | ⟨_, _, -, -, h, -⟩ | ⟨cs, file, hasks, hf, -⟩ | ⟨_, _, -, -, h⟩ :=
      run_cases cwd fs arguments
    · simp [h, Effect.ofMisuse] at hcode
    · simp [h] at hcode
    · exact ⟨cs, file, hasks, hf⟩
    · simp [h] at hcode
  · rintro ⟨cs, file, hasks, hf⟩
    exact (run_refuses hasks hf).code

/-- In all other cases the command succeeds, requests for help and for the version among them. -/
theorem code_eq_zero_iff : (run cwd fs arguments).code = 0 ↔
    ∃ cs e, Asks arguments cs e ∧ ∀ file, e = .file file → ¬ Fails cwd fs cs file := by
  constructor
  · intro hcode
    obtain ⟨-, m, h⟩ | ⟨cs, e, hasks, he, -⟩ | ⟨_, _, -, -, h⟩ | ⟨cs, file, hasks, hf, -⟩ :=
      run_cases cwd fs arguments
    · simp [h, Effect.ofMisuse] at hcode
    · refine ⟨cs, e, hasks, ?_⟩
      rintro file rfl
      simp at he
    · simp [h.code] at hcode
    · refine ⟨cs, .file file, hasks, ?_⟩
      rintro _ ⟨⟩
      exact hf
  · rintro ⟨cs, e, hasks, hf⟩
    cases e with
    | help => rw [run_of_asks_help hasks]
    | version => rw [run_of_asks_version hasks]
    | file file => exact code_run hasks (hf file rfl)

/-- A run that fails prints its message to the standard error only. -/
theorem silent_of_code_ne_zero (h : (run cwd fs arguments).code ≠ 0) :
    (run cwd fs arguments).out = "" ∧ (run cwd fs arguments).writes = [] := by
  obtain ⟨-, m, hm⟩ | ⟨_, _, -, -, h', -⟩ | ⟨_, _, -, -, hrefuses⟩ | ⟨_, _, -, -, h'⟩ :=
    run_cases cwd fs arguments
  · rw [hm]
    exact ⟨rfl, rfl⟩
  · exact absurd h' h
  · exact ⟨hrefuses.out, hrefuses.writes⟩
  · exact absurd h' h

/-- Help, version and a run up to a stage write no file. -/
theorem writes_of_asks {e : Ending} (h : Asks arguments cs e)
    (he : e = .help ∨ e = .version ∨ ∃ stage, .stage stage ∈ cs) :
    (run cwd fs arguments).writes = [] := by
  cases e with
  | help => rw [run_of_asks_help h]
  | version => rw [run_of_asks_version h]
  | file file =>
      obtain ⟨stage, hstage⟩ : ∃ stage, .stage stage ∈ cs := by simpa using he
      exact (run_stopped h hstage).2

/-- How the command ends says what was asked: 2 if the arguments are not accepted, 1 if they name a
file that cannot be read or that is refused, and 0 otherwise. A file that is read is compiled with
the last choice of each kind. Files change only if the code is 0 and neither help, nor the version,
nor a stop was asked for, and a failure and a stopped compilation print nothing. -/
theorem run_outcome (cwd : String) (fs : Files) (arguments : List String) :
    ((run cwd fs arguments).code = 2 ↔ ¬ ∃ cs e, Asks arguments cs e) ∧
    ((run cwd fs arguments).code = 1 ↔
      ∃ cs file, Asks arguments cs (.file file) ∧ Fails cwd fs cs file) ∧
    ((run cwd fs arguments).code = 0 ↔
      ∃ cs e, Asks arguments cs e ∧ ∀ file, e = .file file → ¬ Fails cwd fs cs file) ∧
    (∀ cs file text, Asks arguments cs (.file file) →
      fs.read cwd (Path.resolve cwd file) = .ok text →
        run cwd fs arguments = .ofOutcome (assemblyPath cwd (.ofChoices cs) file)
          (compile (Path.resolve cwd file) text (Settings.ofChoices cs).options .standard)) ∧
    (((run cwd fs arguments).code ≠ 0 ∨ ∃ cs e, Asks arguments cs e ∧
        (e = .help ∨ e = .version ∨ ∃ stage, .stage stage ∈ cs)) →
      fs.write (run cwd fs arguments).writes = fs) ∧
    (((run cwd fs arguments).code ≠ 0 ∨
        ∃ cs file stage, Asks arguments cs (.file file) ∧ .stage stage ∈ cs) →
      (run cwd fs arguments).out = "") := by
  refine ⟨code_eq_two_iff, code_eq_one_iff, code_eq_zero_iff, ?_, fun h => ?_, fun h => ?_⟩
  · intro cs file text hasks hread
    rw [run_of_asks_file hasks, hread]
    rfl
  · have hnone : (run cwd fs arguments).writes = [] := by
      obtain hcode | ⟨cs, e, hasks, he⟩ := h
      · exact (silent_of_code_ne_zero hcode).2
      · exact writes_of_asks hasks he
    rw [hnone]
    rfl
  · obtain hcode | ⟨cs, file, stage, hasks, hstage⟩ := h
    · exact (silent_of_code_ne_zero hcode).1
    · exact (run_stopped hasks hstage).1

/-- Arguments with two outputs, of which the first one is called like a request for help. -/
def twoOutputs : List String :=
  ["-o", "--help", "--platform=macos", "--tac", "--platform", "linux", "--output=b.s", "a.c"]

theorem run_outcome_twoOutputs :
    Asks twoOutputs [.output "--help", .platform .macos, .listing, .platform .linux, .output "b.s"]
      (.file "a.c") ∧
    Files.read [("/src/a.c", "int a;")] "/src" "/src/a.c" = .ok "int a;" ∧
    run "/src" [("/src/a.c", "int a;")] twoOutputs =
      .ofOutcome "/src/b.s" (compile "/src/a.c" "int a;" ⟨.linux, none, true, true⟩ .standard) := by
  have hasks : Asks twoOutputs
      [.output "--help", .platform .macos, .listing, .platform .linux, .output "b.s"]
      (.file "a.c") := by
    refine ⟨⟨[["-o", "--help"], ["--platform=macos"], ["--tac"], ["--platform", "linux"],
      ["--output=b.s"]], ["a.c"], ?_, .file (by decide) (by decide), rfl⟩,
      by simp [Agree, Choice.stage?]⟩
    refine .cons (.outputBehind (.inl rfl) (by decide)) (.cons (.platformWithin .macos) ?_)
    exact .cons .listing (.cons (.platformBehind .linux) (.cons (.outputWithin (by decide)) .nil))
  have hpath : Path.resolve "/src" "a.c" = "/src/a.c" := by decide +kernel
  have hread : Files.read [("/src/a.c", "int a;")] "/src" "/src/a.c" = .ok "int a;" := rfl
  refine ⟨hasks, hread, ?_⟩
  have hrun := (run_outcome "/src" [("/src/a.c", "int a;")] twoOutputs).2.2.2.1 _ _ _ hasks
    (hpath ▸ hread)
  rw [hrun, hpath]
  rfl

end IntegerC.CommandLine
