import IntegerC.Position
import IntegerC.Proofs.Ensures

set_option autoImplicit false

/-! # Where faults point

A fault that a source text can give rise to belongs to one of the categories for users and points at
a piece of the text. `Fault.At p f` says so of the fault `f`, with `p` of the piece. Pieces that
begin inside the text are the ones with `Begins`.
-/

namespace IntegerC

/-- The categories of the faults of a source text. -/
def Category.ofText : List Category :=
  [.lexError, .parseError, .invalidSpecifier, .duplicateDeclaration, .undeclaredVariable,
   .nestedFunctionDefinition, .breakOutsideLoop, .continueOutsideLoop, .invalidLvalue,
   .conflictingType, .duplicateDefinition, .conflictingLinkage, .invalidInitializer, .invalidCall]

example : Category.ofText.map Category.id =
    ["CND100", "CND200", "CND201", "CND300", "CND301", "CND302", "CND303", "CND304", "CND305",
     "CND400", "CND401", "CND402", "CND403", "CND404"] := by decide

/-- A cause that a source text can give rise to. The tokens of a text do end. -/
def Cause.FromText (c : Cause) : Prop := c.category ∈ Category.ofText ∧ c ≠ .endlessTokens

-- so that the simplifier finds out for a given cause
attribute [simp] Cause.category Category.ofText Cause.FromText

instance (c : Cause) : Decidable c.FromText := inferInstanceAs (Decidable (_ ∧ _))

/-- A fault that a source text can give rise to, at a piece of it with `p`. -/
def Fault.At (p : Span → Prop) (f : Fault) : Prop :=
  f.cause.FromText ∧ ∃ s, f.span = some s ∧ p s

theorem Fault.At.of {p : Span → Prop} {c : Cause} {s : Span} (hc : c.FromText) (hs : p s) :
    (c.at s).At p :=
  ⟨hc, s, rfl, hs⟩

/-- A piece that begins at an offset inside the text, of which the end counts as one. -/
def LineMap.Begins (m : LineMap) (s : Span) : Prop := ∃ o ≤ m.size, s.start = m.position o

theorem LineMap.begins_span {m : LineMap} {o : Nat} (h : o ≤ m.size) (stop : Int) :
    m.Begins (m.span o stop) :=
  ⟨o, h, rfl⟩

end IntegerC
