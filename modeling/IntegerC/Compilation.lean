import IntegerC.Diagnostic
import IntegerC.Loop
import IntegerC.Machine.Assembly
import IntegerC.Machine.Layout
import IntegerC.Machine.Encodable
import IntegerC.Machine.Code
import IntegerC.Scope
import IntegerC.Syntax.Parser
import IntegerC.ThreeAddress.Code
import IntegerC.ThreeAddress.Listing
import IntegerC.Token.Lexer

set_option autoImplicit false

/-! # Compilation of one source text

`compile` takes a source text through all stages and writes the results asked for. The first fault
becomes the only diagnostic, and then nothing is written. A compilation can also stop after a stage,
and then nothing is written either.
-/

namespace IntegerC

/-! ## Stages -/

/-- The stages that a compilation can stop after. -/
inductive Stage where
  | lexing | parsing | validation | threeAddress | machineCode
deriving Repr, DecidableEq

/-- What the last two stages make of a source. -/
structure Compiled where
  code : ThreeAddress.Program
  machine : Machine.Program
  symbols : Machine.Symbols
deriving Repr

/-- The checked program that a syntax tree stands for, against a table of names known before it. -/
def Program.validate (p : Program) (symbols : SymbolTable) :
    Except Fault (Program × SymbolTable) := do
  let resolved ← p.resolve
  let labelled ← resolved.nameLoops
  labelled.check symbols

/-- Machine code that can be written: with a place for every variable and no defect left. -/
def Machine.Program.ofThreeAddress (p : ThreeAddress.Program) (t : SymbolTable) :
    Except Fault (Machine.Program × Machine.Symbols) := do
  let symbols := Machine.Symbols.ofTable t
  let chosen ← Machine.Program.ofCode t p
  let placed ← chosen.placed symbols
  return (placed.encodable, symbols)

/-- Takes a source through the stages up to `stop`. There is a result only without a stop. -/
def runStages (text : String) (stop : Option Stage) : Except Fault (Option Compiled) := do
  let ts ← tokens text
  if stop = some .lexing then return none
  let tree ← Program.ofTokens ts
  if stop = some .parsing then return none
  let (checked, symbols) ← tree.validate []
  if stop = some .validation then return none
  let (code, symbols) ← ThreeAddress.Program.ofChecked checked symbols
  if stop = some .threeAddress then return none
  let (machine, symbols) ← Machine.Program.ofThreeAddress code symbols
  if stop = some .machineCode then return none
  return some ⟨code, machine, symbols⟩

/-! ## Results -/

structure Options where
  platform : Machine.Platform := .linux
  stopAfter : Option Stage := none
  writeAssembly : Bool := true
  writeListing : Bool := false
deriving Repr, DecidableEq

inductive ArtifactKind where
  | assembly | listing
deriving Repr, DecidableEq

structure Artifact where
  kind : ArtifactKind
  text : String
deriving Repr, DecidableEq

structure Outcome where
  diagnostics : List Diagnostic
  artifacts : List Artifact
deriving Repr, DecidableEq

/-- Why a text cannot be written: a fault of the program, or a failure of the writer itself. -/
inductive WriteFailure where
  | fault (f : Fault)
  | broken (message : String)
deriving Repr, DecidableEq

def WriteFailure.diagnostic (file : String) : WriteFailure → Diagnostic
  | fault f => f.diagnostic file
  | broken message => .aboutFile .internalError ("Internal error: " ++ message) file

/-- The writers of the results; there may be none for the listing. -/
structure Writers where
  assembly : Machine.Program → Machine.Symbols → Machine.Platform → Except WriteFailure String
  listing : Option (ThreeAddress.Program → String)

def Writers.standard : Writers where
  assembly p symbols platform :=
    match p.assembly platform symbols .lf with
    | .ok text => .ok text
    | .error f => .error (.fault f)
  listing := some (·.listing .lf)

/-- The warning that a listing was asked for but cannot be written. -/
def missingListing (file : String) : Diagnostic where
  category := .unknown
  severity := .warning
  message := "emitTacky=true but no TAC writer is configured; skipping .tac artifact."
  file := file
  line := none
  column := none

/-- Writes the results that the options ask for, the assembly text first. -/
def Compiled.write (c : Compiled) (file : String) (o : Options) (w : Writers) :
    Except WriteFailure Outcome := do
  let assembly ←
    if o.writeAssembly then
      (w.assembly c.machine c.symbols o.platform).map (fun text => [Artifact.mk .assembly text])
    else pure []
  match o.writeListing, w.listing with
  | false, _ => return ⟨[], assembly⟩
  | true, some listing => return ⟨[], assembly ++ [⟨.listing, listing c.code⟩]⟩
  | true, none => return ⟨[missingListing file], assembly⟩

/-- Compiles the source `text`, which diagnostics call `file`. -/
def compile (file text : String) (o : Options) (w : Writers) : Outcome :=
  match runStages text o.stopAfter with
  | .error f => ⟨[f.diagnostic file], []⟩
  | .ok none => ⟨[], []⟩
  | .ok (some c) =>
      match c.write file o w with
      | .ok outcome => outcome
      | .error failure => ⟨[failure.diagnostic file], []⟩

end IntegerC
