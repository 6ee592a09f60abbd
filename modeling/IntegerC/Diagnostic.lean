import IntegerC.Fault

set_option autoImplicit false

/-! # Diagnostics

What a user is told: a message in a category, its severity, and the file with the line and the
column where they are known.
-/

namespace IntegerC

inductive Severity where
  | error | warning | info
deriving Repr, DecidableEq

namespace Severity

def all : List Severity := [error, warning, info]

def text : Severity → String
  | error => "error"
  | warning => "warning"
  | info => "info"

def ofText? (s : String) : Option Severity := all.find? (fun v => v.text = s)

end Severity

structure Diagnostic where
  category : Category
  severity : Severity
  message : String
  file : String
  line : Option Nat
  column : Option Nat
deriving Repr, DecidableEq

namespace Diagnostic

/-- The place that a diagnostic names: the file, and line and column if both are known. -/
def place (d : Diagnostic) : String :=
  match d.line, d.column with
  | some line, some column => s!"{d.file}:{line}:{column}"
  | _, _ => d.file

/-- The line that is shown for a diagnostic. -/
def text (d : Diagnostic) : String :=
  s!"{d.place}: {d.severity.text}: [{d.category.id}] {d.message}"

def aboutFile (category : Category) (message file : String) : Diagnostic :=
  ⟨category, .error, message, file, none, none⟩

end Diagnostic

def Fault.diagnostic (f : Fault) (file : String) : Diagnostic where
  category := f.cause.category
  severity := .error
  message := f.cause.message
  file := file
  line := f.span.map (·.start.line)
  column := f.span.map (·.start.column)

end IntegerC
