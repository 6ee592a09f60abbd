import IntegerC.CommandLine

set_option autoImplicit false

/-! # The program -/

namespace IntegerC

open CommandLine

def readText (path : String) : IO (Except ReadFailure String) := do
  try
    let text ← IO.FS.readFile path
    return .ok text
  catch
    | .noFileOrDirectory .. => return .error (.missing path)
    | .inappropriateType .. => return .error .directory
    | e => return .error (.other (toString e))

def writeText (path text : String) : IO Unit := do
  IO.FS.createDirAll (Path.parent path)
  IO.FS.writeFile path text

end IntegerC

open IntegerC IntegerC.CommandLine in
/-- Compiles the file that the arguments name. -/
def main (arguments : List String) : IO UInt32 := do
  let cwd := (← IO.currentDir).toString
  let effect ← runWith cwd readText arguments
  for (path, text) in effect.writes do
    writeText path text
  IO.print effect.out
  IO.eprint effect.err
  return effect.code.toUInt32
