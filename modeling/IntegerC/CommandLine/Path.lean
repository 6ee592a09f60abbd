set_option autoImplicit false

/-! # Paths

Paths of a file system with `/` between names. `resolve` makes a path absolute and takes out `.` and
`..`; the extension of a path is what follows the last dot of its last name, with the dot, unless
that dot begins the name.
-/

namespace IntegerC.Path

/-! ## Names -/

/-- The names of a path, split at each slash. There is always at least one, which may be empty. -/
def names : List Char → List (List Char)
  | [] => [[]]
  | c :: cs =>
      if c = '/' then [] :: names cs
      else
        match names cs with
        | [] => [[c]]
        | n :: ns => (c :: n) :: ns

/-- The names of an absolute path without `.` and `..`, given those walked through so far, the last one
first. Above the root there is the root. -/
def walk (above : List (List Char)) : List (List Char) → List (List Char)
  | [] => above.reverse
  | n :: ns =>
      if n = [] ∨ n = ['.'] then walk above ns
      else if n = ['.', '.'] then walk above.tail ns
      else walk (n :: above) ns

def ofNames (ns : List (List Char)) : String :=
  String.ofList ('/' :: ['/'].intercalate ns)

/-- The absolute path that `path` stands for in the directory `cwd`. -/
def resolve (cwd path : String) : String :=
  let cs := path.toList
  let whole := if cs.head? = some '/' then cs else cwd.toList ++ '/' :: cs
  ofNames (walk [] (names whole))

/-! ## Extensions -/

def lastName (path : List Char) : List Char := ((names path).getLast?).getD []

def extensionOf (name : List Char) : List Char :=
  let behind := (name.reverse.takeWhile (· ≠ '.')).reverse
  let before := name.take (name.length - behind.length - 1)
  if name = ['.', '.'] ∨ behind.length = name.length ∨ before = [] then [] else '.' :: behind

def stripExtension (path : String) : String :=
  let cs := path.toList
  String.ofList (cs.take (cs.length - (extensionOf (lastName cs)).length))

/-! ## Directories -/

def steps (path : String) : List (List Char) := walk [] (names path.toList)

/-- The directory that an absolute path is in; the root is in itself. -/
def parent (path : String) : String := ofNames (steps path).dropLast

/-- Whether the absolute path `path` is `directory` or leads through it. -/
def leadsThrough (directory path : String) : Bool := (steps directory).isPrefixOf (steps path)

end IntegerC.Path
