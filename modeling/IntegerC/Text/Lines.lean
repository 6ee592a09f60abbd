set_option autoImplicit false

/-! # Texts made of lines -/

namespace IntegerC.Text

inductive LineEnding where
  | lf | crlf
deriving Repr, DecidableEq

namespace LineEnding

def text : LineEnding → String
  | lf => "\n"
  | crlf => "\r\n"

/-- The lines with a line ending between any two of them and one at the end. -/
def unlines (e : LineEnding) (lines : List String) : String := e.text.intercalate lines ++ e.text

end LineEnding

end IntegerC.Text
