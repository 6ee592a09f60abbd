import IntegerC.CType
import IntegerC.CommandLine
import IntegerC.CommandLine.Arguments
import IntegerC.CommandLine.Path
import IntegerC.Compilation
import IntegerC.ConstantExpr
import IntegerC.Diagnostic
import IntegerC.Fault
import IntegerC.Loop
import IntegerC.Machine
import IntegerC.Machine.Assembly
import IntegerC.Machine.Code
import IntegerC.Machine.Encodable
import IntegerC.Machine.Layout
import IntegerC.Main
import IntegerC.Operator
import IntegerC.Position
import IntegerC.Proofs.Blame
import IntegerC.Proofs.Checking
import IntegerC.Proofs.CommandLine.Artifacts
import IntegerC.Proofs.CommandLine.Groups
import IntegerC.Proofs.CommandLine.Outcomes
import IntegerC.Proofs.Compilation
import IntegerC.Proofs.ConstantEvaluation
import IntegerC.Proofs.Cutting
import IntegerC.Proofs.Declarations
import IntegerC.Proofs.DeclaredFirst
import IntegerC.Proofs.ElaboratedChecking
import IntegerC.Proofs.Elaboration
import IntegerC.Proofs.Evaluation
import IntegerC.Proofs.Execution
import IntegerC.Proofs.FaultSpans
import IntegerC.Proofs.Grammar.Commas
import IntegerC.Proofs.Grammar.Identifiers
import IntegerC.Proofs.Grammar.Printing
import IntegerC.Proofs.Indentation
import IntegerC.Proofs.Joining
import IntegerC.Proofs.Labelling
import IntegerC.Proofs.Lexing
import IntegerC.Proofs.Linking
import IntegerC.Proofs.Lookups
import IntegerC.Proofs.Machine.Arguments
import IntegerC.Proofs.Machine.AssemblyReading
import IntegerC.Proofs.Machine.Balance
import IntegerC.Proofs.Machine.Bits
import IntegerC.Proofs.Machine.Calls
import IntegerC.Proofs.Machine.Encodings
import IntegerC.Proofs.Machine.Fixpoints
import IntegerC.Proofs.Machine.Frames
import IntegerC.Proofs.Machine.LineCodes
import IntegerC.Proofs.Machine.MendedRuns
import IntegerC.Proofs.Machine.Platforms
import IntegerC.Proofs.Machine.Simulation
import IntegerC.Proofs.Nesting.Slices
import IntegerC.Proofs.Positions
import IntegerC.Proofs.Ranges
import IntegerC.Proofs.Rechecking
import IntegerC.Proofs.Respacing.Compilation
import IntegerC.Proofs.Respelling.Compilation
import IntegerC.Proofs.ScopedResolution
import IntegerC.Proofs.Stopping
import IntegerC.Proofs.ThreeAddress.ConstantRuns
import IntegerC.Proofs.ThreeAddress.ExprRuns
import IntegerC.Proofs.ThreeAddress.FunctionRuns
import IntegerC.Proofs.ThreeAddress.FunctionTemporaries
import IntegerC.Proofs.ThreeAddress.FunctionTypes
import IntegerC.Proofs.ThreeAddress.LegibleCode
import IntegerC.Proofs.ThreeAddress.ListingLines
import IntegerC.Proofs.ThreeAddress.Listings
import IntegerC.Proofs.Tiling
import IntegerC.Proofs.Tree
import IntegerC.Scope
import IntegerC.SymbolTable
import IntegerC.Syntax
import IntegerC.Syntax.Cursor
import IntegerC.Syntax.ExprParser
import IntegerC.Syntax.Parser
import IntegerC.Syntax.Specifier
import IntegerC.Text.Character
import IntegerC.Text.Lines
import IntegerC.ThreeAddress
import IntegerC.ThreeAddress.Code
import IntegerC.ThreeAddress.ExprCode
import IntegerC.ThreeAddress.Listing
import IntegerC.Token
import IntegerC.Token.Lexer
import IntegerC.Typing
import IntegerC.Proofs.Machine.Outlines
