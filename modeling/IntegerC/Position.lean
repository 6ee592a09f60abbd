import IntegerC.Text.Character

set_option autoImplicit false

/-! # Places in a source text

A `Position` is a line, a column and an offset; a `Span` runs from one position up to another. A
`LineMap` holds where the lines of a text start and finds the line of an offset by bisection.
Offsets and columns count UTF-16 code units; only a line feed ends a line.
-/

namespace IntegerC

/-- A place in a text: line and column count from one, the offset from zero. -/
structure Position where
  line : Nat
  column : Nat
  offset : Nat
deriving Repr, DecidableEq, Inhabited

def Position.origin : Position := ⟨1, 1, 0⟩

/-- A piece of a text, from `start` up to but not including `stop`. -/
structure Span where
  start : Position
  stop : Position
deriving Repr, DecidableEq, Inhabited

/-! ## Line starts -/

/-- The offsets just behind the line feeds of a text that itself begins at offset `at`. -/
def lineStartsFrom (offset : Nat) : List Char → List Nat
  | [] => []
  | c :: cs =>
      let next := offset + Text.units c
      if c = '\n' then next :: lineStartsFrom next cs else lineStartsFrom next cs

/-- The line structure of a text: the offset at which each line starts, and the length. -/
structure LineMap where
  starts : Array Nat
  size : Nat
deriving Repr

namespace LineMap

/-- The line structure of a text given as its characters. -/
def ofChars (cs : List Char) : LineMap where
  starts := (0 :: lineStartsFrom 0 cs).toArray
  size := Text.unitsOf cs

/-- The last line in `lo … hi` that starts at or before `offset`, given that line `lo` does. -/
def bisect (m : LineMap) (offset lo hi : Nat) : Nat :=
  if lo < hi then
    let mid := (lo + hi + 1) / 2
    if m.starts.getD mid 0 ≤ offset then m.bisect offset mid hi else m.bisect offset lo (mid - 1)
  else lo
termination_by hi - lo
decreasing_by all_goals omega

def clamp (m : LineMap) (offset : Int) : Nat := min offset.toNat m.size

/-- The place of an offset; one outside the text stands for the nearest one inside. -/
def position (m : LineMap) (offset : Int) : Position :=
  let inside := m.clamp offset
  let line := m.bisect inside 0 (m.starts.size - 1)
  ⟨line + 1, inside - m.starts.getD line 0 + 1, inside⟩

def span (m : LineMap) (start stop : Int) : Span := ⟨m.position start, m.position stop⟩

end LineMap

end IntegerC
