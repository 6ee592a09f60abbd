import IntegerC.CommandLine.Arguments
import IntegerC.CommandLine.Path

set_option autoImplicit false

/-! # The command

`run` says all that the command does with its arguments and the files at hand: the exit code, what it
prints, and the files it writes. Nothing is written unless the exit code is zero.
-/

namespace IntegerC.CommandLine

/-! ## Files -/

/-- Texts under absolute paths. A directory is there if a file is below it. -/
abbrev Files := Table String

inductive ReadFailure where
  | missing (path : String)
  | directory
  | other (message : String)
deriving Repr, DecidableEq

def ReadFailure.message : ReadFailure → String
  | missing path => s!"Error: ENOENT: no such file or directory, open '{path}'"
  | directory => "Error: EISDIR: illegal operation on a directory, read"
  | other message => s!"Error: {message}"

namespace Files

/-- Whether a path without a file is a directory: the way to a file leads through it, or the way to the
directory in which the command runs. -/
def isDirectory (fs : Files) (cwd path : String) : Bool :=
  (cwd :: fs.names).any (Path.leadsThrough path)

def read (fs : Files) (cwd path : String) : Except ReadFailure String :=
  match fs.find? path with
  | some text => .ok text
  | none => if fs.isDirectory cwd path then .error .directory else .error (.missing path)

/-- The files after texts have been written, the first one first. -/
def write (fs : Files) (texts : List (String × String)) : Files :=
  texts.foldl (fun fs t => fs.put t.1 t.2) fs

end Files

/-! ## Texts of the command -/

def usage : String :=
  "\n".intercalate
    ["cinder [options] <file.c>",
     "",
     "Options:",
     "  -o, --output <file>   Assembly output path (default: <file>.s)",
     "      --platform <p>    Target platform: linux|macos (default: linux)",
     "      --lex             Stop after lexing",
     "      --parse           Stop after parsing",
     "      --validate        Stop after semantic analysis",
     "      --tacky           Stop after TAC generation",
     "      --codegen         Stop after assembly lowering",
     "      --tac             Also write the TAC listing (.tac)",
     "  -V, --version         Print version",
     "  -h, --help            Show help",
     "",
     "Notes:",
     "  - <file.c> must be the last argument.",
     "  - Stage flags run the compiler up to that stage and write nothing.",
     ""]

def version : String := "0.1.0"

/-! ## Runs -/

structure Effect where
  code : Nat
  out : String
  err : String
  writes : List (String × String)
deriving Repr, DecidableEq

/-- The run that ends with a complaint about the arguments. -/
def Effect.ofMisuse (m : Misuse) : Effect :=
  ⟨2, "", "cinder: " ++ m.message ++ "\n" ++ usage ++ "\n", []⟩

def assemblyPath (cwd : String) (s : Settings) (file : String) : String :=
  match s.output with
  | some path => Path.resolve cwd path
  | none => Path.stripExtension (Path.resolve cwd file) ++ ".s"

/-- The path of an artifact, next to that of the assembly text. -/
def artifactPath (assembly : String) : ArtifactKind → String
  | .assembly => assembly
  | .listing => Path.stripExtension assembly ++ ".tac"

def Settings.options (s : Settings) : Options where
  platform := s.platform
  stopAfter := s.stage
  writeListing := s.listing

def compileRead (s : Settings) (path : String) (input : Except ReadFailure String) : Outcome :=
  match input with
  | .ok text => IntegerC.compile path text s.options .standard
  | .error f =>
      ⟨[.aboutFile .ioReadFailed ("Failed to read entry file: " ++ f.message) path], []⟩

/-- The run that reports how a compilation ended and, if it found no error, writes its artifacts, the
assembly text to `assembly`. -/
def Effect.ofOutcome (assembly : String) (o : Outcome) : Effect :=
  let err := String.join (o.diagnostics.map (fun d => d.text ++ "\n"))
  if o.diagnostics.any (fun d => d.severity = .error) then ⟨1, "", err, []⟩
  else
    let out := if o.artifacts.any (fun a => a.kind = .assembly) then assembly ++ "\n" else ""
    ⟨0, out, err, o.artifacts.map (fun a => (artifactPath assembly a.kind, a.text))⟩

/-- The run for a request, given how the file at an absolute path is read. -/
def Effect.ofRequest {m : Type → Type} [Monad m] (cwd : String)
    (read : String → m (Except ReadFailure String)) : Request → m Effect
  | .help => return ⟨0, usage, "", []⟩
  | .version => return ⟨0, version ++ "\n", "", []⟩
  | .compile s file => do
      let path := Path.resolve cwd file
      let input ← read path
      return Effect.ofOutcome (assemblyPath cwd s file) (compileRead s path input)

/-- The run for a list of arguments, given how the file at an absolute path is read. -/
def runWith {m : Type → Type} [Monad m] (cwd : String)
    (read : String → m (Except ReadFailure String)) (arguments : List String) : m Effect :=
  match CommandLine.read arguments with
  | .ok request => Effect.ofRequest cwd read request
  | .error misuse => return .ofMisuse misuse

/-- The run for a list of arguments in the directory `cwd`, with the files `fs` at hand. -/
def run (cwd : String) (fs : Files) (arguments : List String) : Effect :=
  Id.run (runWith cwd (fun path => fs.read cwd path) arguments)

end IntegerC.CommandLine
