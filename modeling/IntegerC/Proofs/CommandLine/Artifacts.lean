import Mathlib.Data.List.Infix
import IntegerC.Proofs.CommandLine.Outcomes

set_option autoImplicit false

/-! # The files that a run leaves

A run that compiles to the end writes the assembly text and, if asked to, the listing next to it.
The paths are found from the spelling of the arguments alone and are never compared, so a file can
be lost: the assembly text goes over the input, or the listing goes over the input or over the
assembly text. In all other runs the input stays and each text has a file of its own.
-/

namespace IntegerC

namespace Path

/-! ## Extensions -/

def extension (path : String) : String := String.ofList (extensionOf (lastName path.toList))

theorem names_ne_nil (cs : List Char) : names cs ≠ [] := by
  cases cs with
  | nil => simp [names]
  | cons c cs =>
      unfold names
      split
      · simp
      · split <;> simp

/-- A path of one name is that name. -/
theorem eq_of_names_eq_singleton {cs n : List Char} (h : names cs = [n]) : n = cs := by
  induction cs generalizing n with
  | nil => simpa [names, eq_comm] using h
  | cons c cs ih =>
      unfold names at h
      split at h
      · exact absurd (List.cons.inj h).2 (names_ne_nil cs)
      · split at h
        · rename_i hnil
          exact absurd hnil (names_ne_nil cs)
        · rename_i m ms hcs
          obtain ⟨rfl, rfl⟩ := List.cons.inj h
          rw [ih hcs]

/-- The last name of a path is the end of the path. -/
theorem lastName_suffix (cs : List Char) : lastName cs <:+ cs := by
  induction cs with
  | nil => exact List.suffix_refl []
  | cons c cs ih =>
      unfold lastName at ih ⊢
      unfold names
      split
      · rw [List.getLast?_cons_of_ne_nil (names_ne_nil cs)]
        exact ih.trans (List.suffix_cons c cs)
      · split
        · rename_i hnil
          exact absurd hnil (names_ne_nil cs)
        · rename_i m ms hcs
          cases ms with
          | nil => simp [eq_of_names_eq_singleton hcs]
          | cons n ms =>
              rw [hcs] at ih
              simp only [List.getLast?_cons_cons] at ih ⊢
              exact ih.trans (List.suffix_cons c cs)

/-- The extension of a name is the end of the name. -/
theorem extensionOf_suffix (name : List Char) : extensionOf name <:+ name := by
  unfold extensionOf
  extract_lets behind before
  split
  · exact List.nil_suffix
  · rename_i h
    obtain ⟨-, hlength, -⟩ : name ≠ ['.', '.'] ∧ behind.length ≠ name.length ∧ before ≠ [] := by
      simpa [not_or] using h
    have hsplit : name = (name.reverse.dropWhile (· ≠ '.')).reverse ++ behind := by
      rw [← List.reverse_append, List.takeWhile_append_dropWhile, List.reverse_reverse]
    cases hdrop : name.reverse.dropWhile (· ≠ '.') with
    | nil =>
        rw [hdrop] at hsplit
        exact absurd (congrArg List.length hsplit).symm hlength
    | cons c rest =>
        have hdot := List.head?_dropWhile_not (fun d => decide (d ≠ '.')) name.reverse
        simp only [hdrop, List.head?_cons, decide_eq_false_iff_not, ne_eq, not_not] at hdot
        rw [hdrop, List.reverse_cons, List.append_assoc, hdot] at hsplit
        exact ⟨rest.reverse, hsplit.symm⟩

/-- A path is what is left of it without its extension, and the extension. -/
theorem stripExtension_append_extension (path : String) :
    stripExtension path ++ extension path = path := by
  have hsuffix := (extensionOf_suffix (lastName path.toList)).trans (lastName_suffix path.toList)
  rw [← String.toList_inj, String.toList_append, stripExtension, extension, String.toList_ofList,
    String.toList_ofList]
  exact List.suffix_iff_eq_append.1 hsuffix

/-- Putting an ending in place of the extension gives the path back just where it had that
extension. -/
theorem stripExtension_append_eq_iff {path ending : String} :
    stripExtension path ++ ending = path ↔ extension path = ending := by
  constructor
  · intro h
    have hboth := (stripExtension_append_extension path).trans h.symm
    rw [← String.toList_inj, String.toList_append, String.toList_append,
      List.append_right_inj, String.toList_inj] at hboth
    exact hboth
  · rintro rfl
    exact stripExtension_append_extension path

end Path

namespace CommandLine

variable {cwd : String} {fs : Files} {arguments : List String}

/-! ## Written files -/

namespace Files

/-- A file that can be read is one of the files, under the path as it is given. -/
theorem read_eq_ok {fs : Files} {path text : String} (h : fs.read cwd path = .ok text) :
    fs.find? path = some text := by
  unfold read at h
  split at h
  · rename_i found hfound
    cases h
    exact hfound
  · split at h <;> cases h

theorem find?_write_of_not_mem {texts : List (String × String)} {path : String}
    (h : path ∉ texts.map Prod.fst) (fs : Files) : (fs.write texts).find? path = fs.find? path := by
  induction texts generalizing fs with
  | nil => rfl
  | cons t texts ih =>
      obtain ⟨hne, hrest⟩ : path ≠ t.1 ∧ path ∉ texts.map Prod.fst := by simpa using h
      exact (ih hrest _).trans (Table.find?_put_of_ne fs t.2 hne)

/-- Of texts with paths of their own, each is found under its path. -/
theorem find?_write_of_mem {texts : List (String × String)} (h : (texts.map Prod.fst).Nodup)
    (fs : Files) {t : String × String} (ht : t ∈ texts) :
    (fs.write texts).find? t.1 = some t.2 := by
  induction texts generalizing fs with
  | nil => cases ht
  | cons u texts ih =>
      obtain ⟨hu, hrest⟩ := List.nodup_cons.1 (List.map_cons .. ▸ h)
      rcases List.mem_cons.1 ht with rfl | ht
      · exact (find?_write_of_not_mem hu _).trans (Table.find?_put_self fs t.1 t.2)
      · exact ih hrest _ ht

end Files

/-! ## Collisions -/

/-- The input and the texts of a run have files of their own: the input stays as it was, and each
text is all that its file holds. -/
structure Effect.KeepsFiles (e : Effect) (fs : Files) (input : String) : Prop where
  input_stays : (fs.write e.writes).find? input = fs.find? input
  whole : ∀ t ∈ e.writes, (fs.write e.writes).find? t.1 = some t.2
  apart : (input :: e.writes.map Prod.fst).Nodup

theorem Effect.keepsFiles_iff {e : Effect} {fs : Files} {input : String} :
    e.KeepsFiles fs input ↔ (input :: e.writes.map Prod.fst).Nodup := by
  refine ⟨KeepsFiles.apart, fun h => ?_⟩
  obtain ⟨hinput, hpaths⟩ := List.nodup_cons.1 h
  exact ⟨Files.find?_write_of_not_mem hinput fs,
    fun t ht => Files.find?_write_of_mem hpaths fs ht, h⟩

/-- The ways in which a path of a run is that of another file of it. -/
inductive Collision (cwd : String) (s : Settings) (file : String) : Prop
  | defaultOverInput (ho : s.output = none) (he : Path.extension (Path.resolve cwd file) = ".s")
  | outputOverInput {path : String} (ho : s.output = some path)
      (hp : Path.resolve cwd path = Path.resolve cwd file)
  | listingOverInput (hl : s.listing = true)
      (hp : artifactPath (assemblyPath cwd s file) .listing = Path.resolve cwd file)
  | listingOverAssembly (hl : s.listing = true)
      (he : Path.extension (assemblyPath cwd s file) = ".tac")

/-- The assembly falls on the input just where `-o` names the input, or where there is no `-o` and
the input already ends in `.s`. -/
theorem assemblyPath_eq_input_iff {s : Settings} {file : String} :
    assemblyPath cwd s file = Path.resolve cwd file ↔
      (s.output = none ∧ Path.extension (Path.resolve cwd file) = ".s") ∨
      ∃ path, s.output = some path ∧ Path.resolve cwd path = Path.resolve cwd file := by
  unfold assemblyPath
  cases s.output with
  | none => simp [Path.stripExtension_append_eq_iff]
  | some path => simp

theorem listingPath_eq_assembly_iff {path : String} :
    artifactPath path .listing = path ↔ Path.extension path = ".tac" :=
  Path.stripExtension_append_eq_iff

/-- A run has a collision if the assembly text lies over the input, or if there is a listing that
lies over the input or over the assembly text. -/
theorem collision_iff {s : Settings} {file : String} : Collision cwd s file ↔
    assemblyPath cwd s file = Path.resolve cwd file ∨
      s.listing = true ∧
        (artifactPath (assemblyPath cwd s file) .listing = Path.resolve cwd file ∨
          artifactPath (assemblyPath cwd s file) .listing = assemblyPath cwd s file) := by
  rw [assemblyPath_eq_input_iff, listingPath_eq_assembly_iff]
  constructor
  · rintro (⟨ho, he⟩ | ⟨ho, hp⟩ | ⟨hl, hp⟩ | ⟨hl, he⟩)
    · exact .inl (.inl ⟨ho, he⟩)
    · exact .inl (.inr ⟨_, ho, hp⟩)
    · exact .inr ⟨hl, .inl hp⟩
    · exact .inr ⟨hl, .inr he⟩
  · rintro ((⟨ho, he⟩ | ⟨path, ho, hp⟩) | ⟨hl, hp | he⟩)
    · exact .defaultOverInput ho he
    · exact .outputOverInput ho hp
    · exact .listingOverInput hl hp
    · exact .listingOverAssembly hl he

/-! ## Runs that write -/

/-- The texts under their paths that a run with the settings `s` writes. -/
def Settings.written (s : Settings) (cwd file assembly listing : String) :
    List (String × String) :=
  (assemblyPath cwd s file, assembly) ::
    if s.listing then [(artifactPath (assemblyPath cwd s file) .listing, listing)] else []

/-- The input and the written files are different paths exactly where no collision is named. -/
theorem Settings.apart_written_iff {s : Settings} {file assembly listing : String} :
    (Path.resolve cwd file :: (s.written cwd file assembly listing).map Prod.fst).Nodup ↔
      ¬ Collision cwd s file := by
  rw [collision_iff, written]
  cases s.listing with
  | false => simp [eq_comm]
  | true =>
      simp only [if_true, List.map_cons, List.map_nil, List.nodup_cons, List.mem_cons,
        List.not_mem_nil, or_false, not_false_iff, List.nodup_nil, and_true, true_and]
      grind

theorem ofOutcome_texts (s : Settings) (file assembly listing : String) :
    Effect.ofOutcome (assemblyPath cwd s file) ⟨[], s.options.texts assembly listing⟩ =
      ⟨0, assemblyPath cwd s file ++ "\n", "", s.written cwd file assembly listing⟩ := by
  unfold Effect.ofOutcome Settings.written
  cases hl : s.listing <;> simp [Options.texts, Settings.options, hl, String.join, artifactPath]

/-- A run that writes files compiles the text of a file without a stop. -/
theorem stage_of_writes_ne_nil {cs : List Choice} {file : String}
    (hasks : Asks arguments cs (.file file)) (hwrites : (run cwd fs arguments).writes ≠ []) :
    (Settings.ofChoices cs).stage = none := by
  cases hstage : (Settings.ofChoices cs).stage with
  | none => rfl
  | some stage =>
      refine absurd ?_ hwrites
      rw [run_of_asks_file hasks]
      exact (Effect.ofOutcome_silent (compileRead_stopped hstage _ _)).2

/-- A run that writes files writes what the compilation of a file has as its texts. -/
theorem exists_compiled (hcode : (run cwd fs arguments).code = 0)
    (hwrites : (run cwd fs arguments).writes ≠ []) :
    ∃ cs file text assembly listing, Asks arguments cs (.file file) ∧
      fs.find? (Path.resolve cwd file) = some text ∧
      (compile (Path.resolve cwd file) text (Settings.ofChoices cs).options .standard).artifacts =
        (Settings.ofChoices cs).options.texts assembly listing ∧
      run cwd fs arguments =
        ⟨0, assemblyPath cwd (.ofChoices cs) file ++ "\n", "",
          (Settings.ofChoices cs).written cwd file assembly listing⟩ := by
  obtain ⟨cs, e, hasks, hfails⟩ := code_eq_zero_iff.1 hcode
  cases e with
  | help => exact absurd (writes_of_asks hasks (.inl rfl)) hwrites
  | version => exact absurd (writes_of_asks hasks (.inr (.inl rfl))) hwrites
  | file file =>
      have hrun : run cwd fs arguments = _ := run_of_asks_file hasks
      -- something is written, so no stage was asked for and both texts were made
      have hstage := stage_of_writes_ne_nil hasks hwrites
      have hfails := hfails file rfl
      cases hread : fs.read cwd (Path.resolve cwd file) with
      | error failure => exact absurd (.inl ⟨failure, hread⟩) hfails
      | ok text =>
          rw [hread] at hrun
          rcases compile_ends (Path.resolve cwd file) text (Settings.ofChoices cs).options with
            ⟨f, -, -, h⟩ | ⟨r, artifacts, -, hrequests, h⟩
          · refine absurd (.inr ⟨text, hread, f.diagnostic (Path.resolve cwd file), ?_, rfl⟩) hfails
            rw [h]
            exact List.mem_singleton_self _
          · rw [Options.Requests, Settings.options, hstage] at hrequests
            obtain ⟨c, assembly, -, -, rfl⟩ := hrequests
            have hfile := Files.read_eq_ok hread
            refine ⟨cs, file, text, assembly, c.code.listing .lf, hasks, hfile, ?_, ?_⟩
            · rw [h, Settings.options, hstage]
            · rw [hrun, compileRead, h, ← hstage]
              exact ofOutcome_texts _ _ _ _

/-- A run that writes prints the path of the assembly text and changes no files but those that it
writes. The input stays, and each text is all of a file of its own with the printed path that of the
assembly text, exactly if no two paths of the run collide. -/
theorem run_keeps_files_iff (hcode : (run cwd fs arguments).code = 0)
    (hwrites : (run cwd fs arguments).writes ≠ []) :
    ∃ cs file text assembly listing, Asks arguments cs (.file file) ∧
      fs.find? (Path.resolve cwd file) = some text ∧
      (compile (Path.resolve cwd file) text (Settings.ofChoices cs).options .standard).artifacts =
        (Settings.ofChoices cs).options.texts assembly listing ∧
      (run cwd fs arguments).writes = (Settings.ofChoices cs).written cwd file assembly listing ∧
      (run cwd fs arguments).out = assemblyPath cwd (.ofChoices cs) file ++ "\n" ∧
      (∀ path ∉ (run cwd fs arguments).writes.map Prod.fst,
        (fs.write (run cwd fs arguments).writes).find? path = fs.find? path) ∧
      ((run cwd fs arguments).KeepsFiles fs (Path.resolve cwd file) ↔
        ¬ Collision cwd (.ofChoices cs) file) := by
  obtain ⟨cs, file, text, assembly, listing, hasks, htext, hartifacts, hrun⟩ :=
    exists_compiled hcode hwrites
  refine ⟨cs, file, text, assembly, listing, hasks, htext, hartifacts, ?_, ?_, ?_, ?_⟩
  · rw [hrun]
  · rw [hrun]
  · exact fun path h => Files.find?_write_of_not_mem h fs
  · rw [Effect.keepsFiles_iff, hrun]
    exact Settings.apart_written_iff

/-- A run that writes both texts next to the input. -/
def listedRun : Effect := run "/src" [("/src/a.c", "int a;")] ["--tac", "a.c"]

theorem run_keeps_files_iff_listed : listedRun.code = 0 ∧ listedRun.writes ≠ [] ∧
    ∃ cs file, Asks ["--tac", "a.c"] cs (.file file) ∧
      (listedRun.KeepsFiles [("/src/a.c", "int a;")] (Path.resolve "/src" file) ↔
        ¬ Collision "/src" (.ofChoices cs) file) := by
  have hcode : listedRun.code = 0 := by decide +kernel
  have hwrites : listedRun.writes ≠ [] := by decide +kernel
  obtain ⟨cs, file, -, -, -, hasks, -, -, -, -, -, h⟩ := run_keeps_files_iff hcode hwrites
  exact ⟨hcode, hwrites, cs, file, hasks, h⟩

/-- Here the listing goes over the assembly text. -/
example : Collision "/src" (.ofChoices [.output "out.tac", .listing]) "a.c" :=
  .listingOverAssembly (by decide) (by decide +kernel)

end CommandLine

end IntegerC
