import IntegerC.Compilation

set_option autoImplicit false

/-! # Arguments of the command

The arguments are read from left to right. Options come first, the one file last; a request for help
or for the version ends the reading at once. A later `--output` or `--platform` replaces an earlier
one, while the flags of two different stages contradict each other.
-/

namespace IntegerC.CommandLine

open Machine (Platform)

/-! ## Requests -/

structure Settings where
  output : Option String := none
  platform : Platform := .linux
  stage : Option Stage := none
  listing : Bool := false
deriving Repr, DecidableEq

inductive Misuse where
  | missingValue (option : String)
  | unsupportedPlatform (name : String)
  | twoStages (first : Stage) (flag : String)
  | unknownOption (argument : String)
  | notOneFile
deriving Repr, DecidableEq

inductive Request where
  | help
  | version
  | compile (settings : Settings) (file : String)
deriving Repr, DecidableEq

/-! ## Words of the command line -/

def stageName : Stage → String
  | .lexing => "lex"
  | .parsing => "parse"
  | .validation => "validate"
  | .threeAddress => "tacky"
  | .machineCode => "codegen"

def stages : List Stage := [.lexing, .parsing, .validation, .threeAddress, .machineCode]

def stageOfName? (name : String) : Option Stage := stages.find? (fun s => stageName s = name)

/-- The stage that an argument is the flag of. -/
def stageOfFlag? (argument : String) : Option Stage :=
  stages.find? (fun s => "--" ++ stageName s = argument)

def platformOfName? : String → Option Platform
  | "linux" => some .linux
  | "macos" => some .macos
  | _ => none

def Misuse.message : Misuse → String
  | missingValue option => s!"{option} expects a value"
  | unsupportedPlatform name => s!"Unsupported --platform \"{name}\" (expected linux|macos)"
  | twoStages first flag =>
      s!"Only one stage flag may be given (got --{stageName first} and {flag})"
  | unknownOption argument => s!"Unknown option \"{argument}\""
  | notOneFile => "Expected exactly one <file.c> argument (and it must be last)"

/-! ## Reading -/

/-- The value behind a word that an argument begins with. -/
def valueBehind? (word argument : String) : Option String :=
  if word.toList.isPrefixOf argument.toList then
    some (String.ofList (argument.toList.drop word.toList.length))
  else none

namespace Settings

def withOutput (s : Settings) (path : String) : Settings := { s with output := some path }

def withPlatform (s : Settings) (name : String) : Except Misuse Settings :=
  if name = "" then .error (.missingValue "--platform")
  else
    match platformOfName? name with
    | some p => .ok { s with platform := p }
    | none => .error (.unsupportedPlatform name)

/-- The settings with a stop after `stage`, asked for by `flag`. -/
def withStage (s : Settings) (stage : Stage) (flag : String) : Except Misuse Settings :=
  match s.stage with
  | none => .ok { s with stage := some stage }
  | some first => if first = stage then .ok s else .error (.twoStages first flag)

end Settings

inductive Word where
  | help
  | version
  | output (option : String) (value : Option String)
  | platform (value : Option String)
  | stage (s : Stage)
  | listing
  | unknown
  | file
deriving Repr, DecidableEq

/-- What an argument is. The value of an option may be part of it or be the next argument. -/
def Word.ofArgument (a : String) : Word :=
  if a = "-h" ∨ a = "--help" then .help
  else if a = "-V" ∨ a = "--version" then .version
  else if a = "-o" ∨ a = "--output" then .output a none
  else
    match valueBehind? "--output=" a with
    | some v => .output "--output" (some v)
    | none =>
        if a = "--platform" then .platform none
        else
          match valueBehind? "--platform=" a with
          | some v => .platform (some v)
          | none =>
              match stageOfFlag? a with
              | some s => .stage s
              | none =>
                  if a = "--tac" then .listing
                  else if a.toList.head? = some '-' then .unknown
                  else .file

/-- What the arguments ask for, given the settings of those before them. -/
def readFrom (s : Settings) : List String → Except Misuse Request
  | [] => .error .notOneFile
  | a :: as =>
      match Word.ofArgument a with
      | .help => .ok .help
      | .version => .ok .version
      | .output option (some v) =>
          if v = "" then .error (.missingValue option) else readFrom (s.withOutput v) as
      | .output option none =>
          match as with
          | [] => .error (.missingValue option)
          | v :: rest =>
              -- the next argument is the value, whatever it begins with
              if v = "" then .error (.missingValue option) else readFrom (s.withOutput v) rest
      | .platform (some v) =>
          match s.withPlatform v with
          | .ok s' => readFrom s' as
          | .error m => .error m
      | .platform none =>
          match as with
          | [] => .error (.missingValue "--platform")
          | v :: rest =>
              match s.withPlatform v with
              | .ok s' => readFrom s' rest
              | .error m => .error m
      | .stage stage =>
          match s.withStage stage a with
          | .ok s' => readFrom s' as
          | .error m => .error m
      | .listing => readFrom { s with listing := true } as
      | .unknown => .error (.unknownOption a)
      -- options stand before the file
      | .file => if as = [] ∧ a ≠ "" then .ok (.compile s a) else .error .notOneFile

def read (arguments : List String) : Except Misuse Request := readFrom {} arguments

end IntegerC.CommandLine
