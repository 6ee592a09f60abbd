import IntegerC.CType
import IntegerC.Token

set_option autoImplicit false

/-! # Faults

A `Fault` is why a program is refused, with the piece of the source that is to blame. Each
`Cause` belongs to one numbered `Category`, and `Cause.message` holds the wording of all of them.
-/

namespace IntegerC

/-! ## Categories -/

/-- The numbered groups of diagnostics. -/
inductive Category where
  | unknown | internalError | ioReadFailed
  | lexError
  | parseError | invalidSpecifier
  | duplicateDeclaration | undeclaredVariable | nestedFunctionDefinition | breakOutsideLoop
  | continueOutsideLoop | invalidLvalue
  | conflictingType | duplicateDefinition | conflictingLinkage | invalidInitializer | invalidCall
  | brokenInvariant
deriving Repr, DecidableEq

namespace Category

def all : List Category :=
  [unknown, internalError, ioReadFailed, lexError, parseError, invalidSpecifier,
   duplicateDeclaration, undeclaredVariable, nestedFunctionDefinition, breakOutsideLoop,
   continueOutsideLoop, invalidLvalue, conflictingType, duplicateDefinition, conflictingLinkage,
   invalidInitializer, invalidCall, brokenInvariant]

def id : Category → String
  | unknown => "CND000"
  | internalError => "CND001"
  | ioReadFailed => "CND002"
  | lexError => "CND100"
  | parseError => "CND200"
  | invalidSpecifier => "CND201"
  | duplicateDeclaration => "CND300"
  | undeclaredVariable => "CND301"
  | nestedFunctionDefinition => "CND302"
  | breakOutsideLoop => "CND303"
  | continueOutsideLoop => "CND304"
  | invalidLvalue => "CND305"
  | conflictingType => "CND400"
  | duplicateDefinition => "CND401"
  | conflictingLinkage => "CND402"
  | invalidInitializer => "CND403"
  | invalidCall => "CND404"
  | brokenInvariant => "CND500"

def name : Category → String
  | unknown => "Unknown"
  | internalError => "InternalError"
  | ioReadFailed => "IoReadFailed"
  | lexError => "LexError"
  | parseError => "ParseError"
  | invalidSpecifier => "InvalidSpecifier"
  | duplicateDeclaration => "DuplicateDeclaration"
  | undeclaredVariable => "UndeclaredVariable"
  | nestedFunctionDefinition => "NestedFunctionDefinition"
  | breakOutsideLoop => "BreakOutsideLoop"
  | continueOutsideLoop => "ContinueOutsideLoop"
  | invalidLvalue => "InvalidLvalue"
  | conflictingType => "ConflictingType"
  | duplicateDefinition => "DuplicateDefinition"
  | conflictingLinkage => "ConflictingLinkage"
  | invalidInitializer => "InvalidInitializer"
  | invalidCall => "InvalidCall"
  | brokenInvariant => "InternalLoweringError"

def ofId? (s : String) : Option Category := all.find? (fun c => c.id = s)

theorem ofId?_id (c : Category) : ofId? c.id = some c := by cases c <;> decide

end Category

/-! ## Causes -/

inductive Expectation where
  | keyword (k : Keyword)
  | punct (p : Punct)
  | identifier
  | endOfInput
  | expression
  | parameters
deriving Repr, DecidableEq

namespace Expectation

def text : Expectation → String
  | keyword k => s!"\"{k.text}\""
  | punct p => s!"\"{p.text}\""
  | identifier => "an identifier"
  | endOfInput => "\"eof\""
  | expression => "an expression"
  | parameters => "\"void\" or a parameter"

end Expectation

/-- What a name was used as. -/
inductive NameUse where
  | variable | function
deriving Repr, DecidableEq

/-- The operators that refuse a zero divisor. -/
inductive Division where
  | quotient | remainder
deriving Repr, DecidableEq

/-- Why a program is refused. The last group tells of programs that no accepted source gives rise
to. -/
inductive Cause where
  | unterminatedComment
  | invalidLiteral (lexeme : String)
  | unexpectedCharacter (c : Char)
  | unexpectedToken (expected : Expectation) (found : Token)
  | endlessTokens
  | constantTooLarge (text : String)
  | functionInForHeader
  | missingType
  | repeatedSpecifier (words : List Keyword)
  | signedAndUnsigned
  | manyStorageClasses
  | storageOnCast
  | storageOnParameter
  | storageOnForHeader
  | staticBlockFunction (name : String)
  | duplicateDeclaration (name : String)
  | undeclared (use : NameUse) (name : String)
  | nestedFunction (name : String)
  | breakOutsideLoop
  | continueOutsideLoop
  | notAssignable
  | conflictingType (name : String) (previous : CType)
  | duplicateDefinition (name : String)
  | conflictingLinkage (name : String)
  | divisionByZero (op : Division)
  | nonConstantInitializer (name : String)
  | externInitializer (name : String)
  | functionAsVariable (name : String)
  | notAFunction (name : String)
  | argumentCount (name : String) (expected actual : Nat)
  | untypedExpression (form : String)
  | unlabelledLoop
  | unknownFunction (name : String)
  | unknownObject (name : String)
  | unknownOperator (name : String)
  | unplaceableName (name : String)
  | unplacedName (name : String)
  | bareZeroExtension
deriving Repr, DecidableEq

namespace Cause

def category : Cause → Category
  | unterminatedComment | invalidLiteral _ | unexpectedCharacter _ => .lexError
  | unexpectedToken _ _ | endlessTokens | constantTooLarge _ | functionInForHeader => .parseError
  | missingType | repeatedSpecifier _ | signedAndUnsigned | manyStorageClasses | storageOnCast
  | storageOnParameter | storageOnForHeader | staticBlockFunction _ => .invalidSpecifier
  | duplicateDeclaration _ => .duplicateDeclaration
  | undeclared _ _ => .undeclaredVariable
  | nestedFunction _ => .nestedFunctionDefinition
  | breakOutsideLoop => .breakOutsideLoop
  | continueOutsideLoop => .continueOutsideLoop
  | notAssignable => .invalidLvalue
  | conflictingType _ _ => .conflictingType
  | duplicateDefinition _ => .duplicateDefinition
  | conflictingLinkage _ => .conflictingLinkage
  | divisionByZero _ | nonConstantInitializer _ | externInitializer _ => .invalidInitializer
  | functionAsVariable _ | notAFunction _ | argumentCount _ _ _ => .invalidCall
  | untypedExpression _ | unlabelledLoop | unknownFunction _ | unknownObject _
  | unknownOperator _ | unplaceableName _ | unplacedName _ | bareZeroExtension =>
      .brokenInvariant

/-- What is shown for a character: a character of two UTF-16 code units is refused at its first
unit, which on its own is shown as U+FFFD. -/
def shownCharacter (c : Char) : Char := if c.toNat < 0x10000 then c else '\uFFFD'

/-- What went wrong, without the heading that internal faults carry. -/
def description : Cause → String
  | unterminatedComment => "Unterminated block comment"
  | invalidLiteral lexeme => s!"Invalid integer literal \"{lexeme}\""
  | unexpectedCharacter c => s!"Unexpected character \"{shownCharacter c}\""
  | unexpectedToken expected found =>
      s!"Expected {expected.text} but found {found.describe}"
  | endlessTokens => "Token list does not end"
  | constantTooLarge text => s!"Constant {text} is too large to represent in any integer type"
  | functionInForHeader => "Function declaration is not allowed in a \"for\" loop header"
  | missingType => "Missing type specifier"
  | repeatedSpecifier words =>
      "Invalid type specifier \"" ++ " ".intercalate (words.map Keyword.text) ++ "\""
  | signedAndUnsigned => "Type cannot be both signed and unsigned"
  | manyStorageClasses => "At most one storage class is allowed"
  | storageOnCast => "Storage class not allowed in a cast"
  | storageOnParameter => "Storage class not allowed on a parameter"
  | storageOnForHeader => "Storage class not allowed on a \"for\" loop header declaration"
  | staticBlockFunction name =>
      s!"Block-scope function declaration \"{name}\" cannot be static"
  | duplicateDeclaration name => s!"\"{name}\" is already declared in this scope"
  | undeclared .variable name => s!"Use of undeclared variable \"{name}\""
  | undeclared .function name => s!"Use of undeclared function \"{name}\""
  | nestedFunction name => s!"Function \"{name}\" cannot be defined inside another function"
  | breakOutsideLoop => "\"break\" statement outside of a loop"
  | continueOutsideLoop => "\"continue\" statement outside of a loop"
  | notAssignable => "Left side of an assignment must be a variable"
  | conflictingType name previous =>
      s!"Conflicting types for \"{name}\": previously declared as \"{previous.text}\""
  | duplicateDefinition name => s!"Redefinition of \"{name}\""
  | conflictingLinkage name => s!"Conflicting linkage for \"{name}\""
  | divisionByZero .quotient => "Division by zero in constant expression"
  | divisionByZero .remainder => "Remainder by zero in constant expression"
  | nonConstantInitializer name =>
      s!"Initializer of static variable \"{name}\" is not a constant expression"
  | externInitializer name =>
      s!"Initializer on local extern variable declaration \"{name}\""
  | functionAsVariable name => s!"Function \"{name}\" used as a variable"
  | notAFunction name => s!"\"{name}\" is not a function"
  | argumentCount name expected actual =>
      s!"Function \"{name}\" expects {expected} argument(s) but got {actual}"
  | untypedExpression form => s!"expression \"{form}\" has no type"
  | unlabelledLoop => "loop without a label"
  | unknownFunction name => s!"function \"{name}\" missing from symbol table"
  | unknownObject name => s!"variable \"{name}\" has no object entry in the symbol table"
  | unknownOperator name => s!"unsupported binary operator \"{name}\""
  | unplaceableName name => s!"pseudo register \"{name}\" has no object entry"
  | unplacedName name => s!"pseudo register \"{name}\" reached the emitter"
  | bareZeroExtension => "zero extension reached the emitter without legalization"

def message (c : Cause) : String :=
  if c.category = .brokenInvariant then "Internal lowering error: " ++ c.description
  else c.description

/-- The name that a cause is about, where the diagnostic carries it. -/
def identifier? : Cause → Option String
  | duplicateDeclaration name | undeclared _ name | nestedFunction name
  | conflictingType name _ | duplicateDefinition name | conflictingLinkage name => some name
  | _ => none

end Cause

/-! ## Faults -/

/-- A cause, and the piece of the source to blame where it is known. -/
structure Fault where
  cause : Cause
  span : Option Span
deriving Repr, DecidableEq

def Cause.at (c : Cause) (s : Span) : Fault := ⟨c, some s⟩

def Cause.nowhere (c : Cause) : Fault := ⟨c, none⟩

end IntegerC
