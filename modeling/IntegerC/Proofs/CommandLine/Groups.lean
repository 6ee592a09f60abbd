import Mathlib.Data.List.Forall2
import IntegerC.CommandLine.Arguments

set_option autoImplicit false

/-! # Groups of arguments

The arguments that are accepted are groups in a row, each of one or two arguments that make one
choice, and an ending: a request for help or for the version, behind which anything may stand, or
the file alone. Reading finds the groups from left to right and keeps the last choice of each kind;
flags of two different stages are refused.
-/

namespace IntegerC.CommandLine

open Machine (Platform)

/-! ## Choices -/

inductive Choice where
  | output (path : String)
  | platform (p : Platform)
  | stage (s : Stage)
  | listing
deriving Repr, DecidableEq

def platformName : Platform → String
  | .linux => "linux"
  | .macos => "macos"

namespace Choice

/-- The arguments that make a choice. -/
inductive Spelled : Choice → List String → Prop
  | outputBehind {option path : String} (ho : option = "-o" ∨ option = "--output")
      (hp : path ≠ "") : Spelled (.output path) [option, path]
  | outputWithin {path : String} (hp : path ≠ "") : Spelled (.output path) ["--output=" ++ path]
  | platformBehind (p : Platform) : Spelled (.platform p) ["--platform", platformName p]
  | platformWithin (p : Platform) : Spelled (.platform p) ["--platform=" ++ platformName p]
  | stage (s : Stage) : Spelled (.stage s) ["--" ++ stageName s]
  | listing : Spelled .listing ["--tac"]

def output? : Choice → Option String
  | output path => some path
  | _ => none

def platform? : Choice → Option Platform
  | platform p => some p
  | _ => none

def stage? : Choice → Option Stage
  | stage s => some s
  | _ => none

end Choice

def Settings.choose (s : Settings) : Choice → Settings
  | .output path => s.withOutput path
  | .platform p => { s with platform := p }
  | .stage stage => { s with stage := some stage }
  | .listing => { s with listing := true }

/-- The settings that choices ask for: the last one of each kind counts. -/
def Settings.ofChoices (cs : List Choice) : Settings where
  output := (cs.filterMap Choice.output?).getLast?
  platform := (cs.filterMap Choice.platform?).getLast?.getD .linux
  stage := (cs.filterMap Choice.stage?).getLast?
  listing := decide (.listing ∈ cs)

/-- After any number of choices the last one of each kind is what counts. -/
theorem Settings.foldl_choose (cs : List Choice) (s : Settings) :
    cs.foldl choose s =
      { output := (cs.filterMap Choice.output?).getLast?.or s.output
        platform := (cs.filterMap Choice.platform?).getLast?.getD s.platform
        stage := (cs.filterMap Choice.stage?).getLast?.or s.stage
        listing := decide (.listing ∈ cs) || s.listing } := by
  induction cs generalizing s with
  | nil => simp
  | cons c cs ih =>
      rw [List.foldl_cons, ih]
      cases c <;>
        simp [choose, withOutput, Choice.output?, Choice.platform?, Choice.stage?,
          List.getLast?_cons]

theorem Settings.ofChoices_eq_foldl (cs : List Choice) : ofChoices cs = cs.foldl choose {} := by
  simp [foldl_choose, ofChoices]

/-! ## Words -/

def Word.Spelled (a : String) : Word → Prop
  | .help => a = "-h" ∨ a = "--help"
  | .version => a = "-V" ∨ a = "--version"
  | .output option none => (a = "-o" ∨ a = "--output") ∧ option = a
  | .output option (some path) => a = "--output=" ++ path ∧ option = "--output"
  | .platform none => a = "--platform"
  | .platform (some name) => a = "--platform=" ++ name
  | .stage s => a = "--" ++ stageName s
  | .listing => a = "--tac"
  | .unknown => a.toList.head? = some '-'
  | .file => a.toList.head? ≠ some '-'

theorem valueBehind?_eq_some {word a v : String} :
    valueBehind? word a = some v ↔ a = word ++ v := by
  rw [valueBehind?, ← String.toList_inj, String.toList_append]
  split
  · rename_i h
    obtain ⟨rest, hrest⟩ := List.isPrefixOf_iff_prefix.1 h
    rw [← hrest, List.drop_left, Option.some_inj, ← String.toList_inj, String.toList_ofList,
      List.append_right_inj]
  · rename_i h
    refine iff_of_false (by simp) fun e => h ?_
    exact List.isPrefixOf_iff_prefix.2 ⟨v.toList, e.symm⟩

theorem stageOfFlag?_eq_some {a : String} {s : Stage} :
    stageOfFlag? a = some s ↔ a = "--" ++ stageName s := by
  constructor
  · intro h
    have hflag := List.find?_some h
    exact (of_decide_eq_true hflag).symm
  · rintro rfl
    cases s <;> decide

theorem platformOfName?_eq_some {name : String} {p : Platform} :
    platformOfName? name = some p ↔ name = platformName p := by
  constructor
  · intro h
    unfold platformOfName? at h
    split at h <;> cases h <;> rfl
  · rintro rfl
    cases p <;> rfl

namespace Word

theorem spelled_of_eq {w : Word} {a : String} (h : ofArgument a = w) : w.Spelled a := by
  subst h
  fun_cases ofArgument a <;> simp_all [Spelled, valueBehind?_eq_some, stageOfFlag?_eq_some]

theorem append_ne {word other : String} (h : ¬ word.toList <+: other.toList) (rest : String) :
    word ++ rest ≠ other := by
  rintro rfl
  exact h (by simp)

theorem ofArgument_outputWithin (path : String) :
    ofArgument ("--output=" ++ path) = .output "--output" (some path) := by
  have hne : ∀ other : String, ¬ "--output=".toList <+: other.toList →
      "--output=" ++ path ≠ other := fun _ h => append_ne h path
  have hvalue := valueBehind?_eq_some.2 (rfl : "--output=" ++ path = _)
  rw [ofArgument, if_neg, if_neg, if_neg, hvalue]
  all_goals exact not_or_intro (hne _ (by decide)) (hne _ (by decide))

/-- The platform may stand behind an equality sign. -/
theorem ofArgument_platformWithin (name : String) :
    ofArgument ("--platform=" ++ name) = .platform (some name) := by
  have hne : ∀ other : String, ¬ "--platform=".toList <+: other.toList →
      "--platform=" ++ name ≠ other := fun _ h => append_ne h name
  have hvalue := valueBehind?_eq_some.2 (rfl : "--platform=" ++ name = _)
  have houtput : valueBehind? "--output=" ("--platform=" ++ name) = none := by
    rw [Option.eq_none_iff_forall_ne_some]
    intro v hv
    have hlist := congrArg String.toList (valueBehind?_eq_some.1 hv)
    simp at hlist
  rw [ofArgument, if_neg, if_neg, if_neg, houtput]
  dsimp only
  rw [if_neg (hne _ (by decide)), hvalue]
  all_goals exact not_or_intro (hne _ (by decide)) (hne _ (by decide))

theorem ofArgument_help {a : String} (h : a = "-h" ∨ a = "--help") : ofArgument a = .help :=
  if_pos h

theorem ofArgument_version {a : String} (h : a = "-V" ∨ a = "--version") :
    ofArgument a = .version := by
  obtain rfl | rfl := h <;> decide

theorem ofArgument_output {a : String} (h : a = "-o" ∨ a = "--output") :
    ofArgument a = .output a none := by
  obtain rfl | rfl := h <;> decide

theorem ofArgument_platform : ofArgument "--platform" = .platform none := by decide

theorem ofArgument_listing : ofArgument "--tac" = .listing := by decide

theorem ofArgument_stage (s : Stage) : ofArgument ("--" ++ stageName s) = .stage s := by
  cases s <;> decide

/-- Every argument that is not a file begins with a dash. -/
theorem head?_of_spelled {w : Word} {a : String} (h : w.Spelled a) (hw : w ≠ .file) :
    a.toList.head? = some '-' := by
  cases w with
  | help | version =>
      obtain rfl | rfl := h
      all_goals rfl
  | output option v =>
      cases v with
      | none =>
          obtain ⟨rfl | rfl, -⟩ := h
          all_goals rfl
      | some path =>
          obtain ⟨rfl, -⟩ := h
          rw [String.toList_append]
          rfl
  | platform v =>
      cases v with
      | none =>
          obtain rfl := h
          rfl
      | some name =>
          obtain rfl := h
          rw [String.toList_append]
          rfl
  | stage s =>
      obtain rfl := h
      rw [String.toList_append]
      rfl
  | listing =>
      obtain rfl := h
      rfl
  | unknown => exact h
  | file => exact absurd rfl hw

/-- An argument without a dash in front is a file. -/
theorem ofArgument_file {a : String} (h : a.toList.head? ≠ some '-') : ofArgument a = .file := by
  by_contra hne
  exact h (head?_of_spelled (spelled_of_eq rfl) hne)

end Word

/-! ## Endings -/

/-- How accepted arguments end. -/
inductive Ending where
  | help
  | version
  | file (name : String)
deriving Repr, DecidableEq

inductive Ending.Spelled : Ending → List String → Prop
  | help {a : String} (h : a = "-h" ∨ a = "--help") (rest : List String) :
      Spelled .help (a :: rest)
  | version {a : String} (h : a = "-V" ∨ a = "--version") (rest : List String) :
      Spelled .version (a :: rest)
  | file {name : String} (hne : name ≠ "") (hdash : name.toList.head? ≠ some '-') :
      Spelled (.file name) [name]

/-- What an ending asks for behind choices that lead to the settings `s`. -/
def Ending.request (s : Settings) : Ending → Request
  | help => .help
  | version => .version
  | file name => .compile s name

def Agree (stages : List Stage) : Prop := ∀ s ∈ stages, ∀ s' ∈ stages, s = s'

/-- The arguments are groups that make `choices`, in this order, in front of an ending, and no two
choices are of different stages. -/
structure Asks (arguments : List String) (choices : List Choice) (ending : Ending) : Prop where
  spelled : ∃ groups back, List.Forall₂ Choice.Spelled choices groups ∧ ending.Spelled back ∧
    arguments = groups.flatten ++ back
  agree : Agree (choices.filterMap Choice.stage?)

/-! ## Reading -/

variable {s : Settings}

/-- Reading stops at an ending, whatever the choices before it were. -/
theorem readFrom_ending {e : Ending} {back : List String} (h : e.Spelled back) :
    readFrom s back = .ok (e.request s) := by
  cases h with
  | help h rest =>
      simp only [readFrom.eq_def, Word.ofArgument_help h]
      rfl
  | version h rest =>
      simp only [readFrom.eq_def, Word.ofArgument_version h]
      rfl
  | file hne hdash =>
      simp only [readFrom.eq_def, Word.ofArgument_file hdash]
      exact if_pos ⟨trivial, hne⟩

/-- A stage flag is taken where every stage asked for so far, with this one, is the same. -/
theorem Settings.withStage_eq_ok {stage : Stage} {flag : String}
    (h : Agree (s.stage.toList ++ [stage])) :
    s.withStage stage flag = .ok (s.choose (.stage stage)) := by
  obtain ⟨output, platform, first, listing⟩ := s
  cases first with
  | none => rfl
  | some first =>
      obtain rfl : first = stage := h _ (by simp) _ (by simp)
      exact if_pos rfl

theorem Settings.withPlatform_name (s : Settings) (p : Platform) :
    s.withPlatform (platformName p) = .ok (s.choose (.platform p)) := by
  cases p <;> rfl

/-- Reading passes over a group, unless its stage contradicts an earlier one. -/
theorem readFrom_group {c : Choice} {group : List String} (h : c.Spelled group)
    (hs : Agree (s.stage.toList ++ c.stage?.toList)) (rest : List String) :
    readFrom s (group ++ rest) = readFrom (s.choose c) rest := by
  cases h with
  | outputBehind ho hp =>
      simp only [List.cons_append, List.nil_append, readFrom.eq_def s, Word.ofArgument_output ho]
      exact if_neg hp
  | outputWithin hp =>
      simp only [List.cons_append, List.nil_append, readFrom.eq_def s, Word.ofArgument_outputWithin]
      exact if_neg hp
  | platformBehind p =>
      simp only [List.cons_append, List.nil_append, readFrom.eq_def s, Word.ofArgument_platform,
        s.withPlatform_name]
  | platformWithin p =>
      simp only [List.cons_append, List.nil_append, readFrom.eq_def s,
        Word.ofArgument_platformWithin, s.withPlatform_name]
  | stage t =>
      simp only [List.cons_append, List.nil_append, readFrom.eq_def s, Word.ofArgument_stage,
        Settings.withStage_eq_ok hs]
  | listing =>
      simp only [List.cons_append, List.nil_append, readFrom.eq_def s, Word.ofArgument_listing]
      rfl

/-- Behind a group it is the stage of that group that later ones must agree with. -/
theorem agree_cons (s : Settings) (c : Choice) (cs : List Choice) :
    Agree (s.stage.toList ++ (c :: cs).filterMap Choice.stage?) ↔
      Agree (s.stage.toList ++ c.stage?.toList) ∧
        Agree ((s.choose c).stage.toList ++ cs.filterMap Choice.stage?) := by
  have hone : Agree s.stage.toList := by
    cases s.stage <;> simp [Agree]
  cases c with
  | stage t =>
      cases hs : s.stage with
      | none => simp [Choice.stage?, Settings.choose, Agree]
      | some first =>
          simp only [Choice.stage?, Settings.choose, Agree, List.filterMap_cons, Option.toList_some,
            List.cons_append, List.nil_append, List.forall_mem_cons]
          grind
  | output path | platform p | listing =>
      simp [List.filterMap_cons, Choice.stage?, Settings.choose, Settings.withOutput, hone]

/-- The arguments make choices, from the settings `s` on, and then end so that they ask for `r`. -/
def AsksFrom (s : Settings) (arguments : List String) (r : Request) : Prop :=
  ∃ (cs : List Choice) (e : Ending) (groups : List (List String)) (back : List String),
    List.Forall₂ Choice.Spelled cs groups ∧ e.Spelled back ∧ arguments = groups.flatten ++ back ∧
      Agree (s.stage.toList ++ cs.filterMap Choice.stage?) ∧
      r = e.request (cs.foldl Settings.choose s)

namespace AsksFrom

theorem ending {e : Ending} {back : List String} (h : e.Spelled back) :
    AsksFrom s back (e.request s) := by
  refine ⟨[], e, [], back, .nil, h, rfl, ?_, rfl⟩
  cases s.stage <;> simp [Agree]

theorem group {c : Choice} {first rest : List String} {r : Request} (h : c.Spelled first)
    (hs : Agree (s.stage.toList ++ c.stage?.toList)) (hrest : AsksFrom (s.choose c) rest r) :
    AsksFrom s (first ++ rest) r := by
  obtain ⟨cs, e, groups, back, hcs, he, rfl, hagree, rfl⟩ := hrest
  refine ⟨c :: cs, e, first :: groups, back, .cons h hcs, he, ?_, ?_, rfl⟩
  · rw [List.flatten_cons, List.append_assoc]
  · exact (agree_cons s c cs).2 ⟨hs, hagree⟩

/-- A group without a stage never contradicts another one. -/
theorem groupOf {c : Choice} {first rest : List String} {r : Request} (h : c.Spelled first)
    (hc : c.stage? = none) (hrest : AsksFrom (s.choose c) rest r) :
    AsksFrom s (first ++ rest) r := by
  refine group h ?_ hrest
  rw [hc]
  cases s.stage <;> simp [Agree]

end AsksFrom

/-- A platform that is accepted is one that the command knows by that name. -/
theorem Settings.eq_choose_of_withPlatform {s s' : Settings} {name : String}
    (h : s.withPlatform name = .ok s') :
    ∃ p, name = platformName p ∧ s' = s.choose (.platform p) := by
  unfold withPlatform at h
  split at h
  · cases h
  · split at h
    · rename_i p hp
      cases h
      exact ⟨p, platformOfName?_eq_some.1 hp, rfl⟩
    · cases h

/-- A stage may be asked for again, but not another one. -/
theorem Settings.eq_choose_of_withStage {s s' : Settings} {stage : Stage} {flag : String}
    (h : s.withStage stage flag = .ok s') :
    Agree (s.stage.toList ++ [stage]) ∧ s' = s.choose (.stage stage) := by
  obtain ⟨output, platform, first, listing⟩ := s
  cases first with
  | none =>
      cases h
      exact ⟨by simp [Agree], rfl⟩
  | some first =>
      unfold withStage at h
      dsimp only at h
      split at h
      · rename_i heq
        cases h
        subst heq
        exact ⟨by simp [Agree], rfl⟩
      · cases h

/-- What is read was asked for. -/
theorem asksFrom_of_readFrom {as : List String} {r : Request} (h : readFrom s as = .ok r) :
    AsksFrom s as r := by
  fun_induction readFrom s as with
  | case2 s a rest hword =>
      cases h
      have hspelled := Word.spelled_of_eq hword
      exact .ending (.help hspelled rest)
  | case3 s a rest hword =>
      cases h
      have hspelled := Word.spelled_of_eq hword
      exact .ending (.version hspelled rest)
  | case5 s a rest option path hword hpath ih =>
      obtain ⟨rfl, -⟩ : a = "--output=" ++ path ∧ _ := Word.spelled_of_eq hword
      exact .groupOf (.outputWithin hpath) rfl (ih h)
  | case8 s a option hword path rest hpath ih =>
      obtain ⟨ha, -⟩ : (a = "-o" ∨ a = "--output") ∧ _ := Word.spelled_of_eq hword
      exact .groupOf (.outputBehind ha hpath) rfl (ih h)
  | case9 s a rest name hword s' hs ih =>
      obtain rfl : a = "--platform=" ++ name := Word.spelled_of_eq hword
      obtain ⟨p, rfl, rfl⟩ := Settings.eq_choose_of_withPlatform hs
      exact .groupOf (.platformWithin p) rfl (ih h)
  | case12 s a hword name rest s' hs ih =>
      obtain rfl : a = "--platform" := Word.spelled_of_eq hword
      obtain ⟨p, rfl, rfl⟩ := Settings.eq_choose_of_withPlatform hs
      exact .groupOf (.platformBehind p) rfl (ih h)
  | case14 s a rest stage hword s' hs ih =>
      obtain rfl : a = "--" ++ stageName stage := Word.spelled_of_eq hword
      obtain ⟨hagree, rfl⟩ := Settings.eq_choose_of_withStage hs
      exact .group (.stage stage) hagree (ih h)
  | case16 s a rest hword ih =>
      obtain rfl : a = "--tac" := Word.spelled_of_eq hword
      exact .groupOf .listing rfl (ih h)
  | case18 s a rest hword hlast =>
      cases h
      obtain ⟨rfl, hne⟩ := hlast
      have hspelled := Word.spelled_of_eq hword
      exact .ending (.file hne hspelled)
  | _ => cases h

/-- What is asked for is read. -/
theorem readFrom_of_asksFrom {as : List String} {r : Request} (h : AsksFrom s as r) :
    readFrom s as = .ok r := by
  obtain ⟨cs, e, groups, back, hcs, he, rfl, hagree, rfl⟩ := h
  induction hcs generalizing s with
  | nil => exact readFrom_ending he
  | @cons c group cs groups hc _ ih =>
      obtain ⟨hstage, hrest⟩ := (agree_cons s c cs).1 hagree
      rw [List.flatten_cons, List.append_assoc, readFrom_group hc hstage]
      exact ih hrest

/-- Arguments are read exactly if they are groups in front of an ending, and they ask for that
ending with the last choice of each kind. -/
theorem read_eq_ok_iff {arguments : List String} {r : Request} :
    read arguments = .ok r ↔ ∃ (cs : List Choice) (e : Ending), Asks arguments cs e ∧
      r = e.request (.ofChoices cs) := by
  constructor
  · intro h
    obtain ⟨cs, e, groups, back, hcs, he, harguments, hagree, hr⟩ := asksFrom_of_readFrom h
    rw [← Settings.ofChoices_eq_foldl] at hr
    exact ⟨cs, e, ⟨⟨groups, back, hcs, he, harguments⟩, hagree⟩, hr⟩
  · rintro ⟨cs, e, ⟨⟨groups, back, hcs, he, harguments⟩, hagree⟩, rfl⟩
    rw [Settings.ofChoices_eq_foldl]
    exact readFrom_of_asksFrom ⟨cs, e, groups, back, hcs, he, harguments, hagree, rfl⟩

end IntegerC.CommandLine
