/-! Blank characters of source text, and the characters at which a word ends.
The ranges are closed and hold the blank characters in increasing order. -/

namespace Vau

/-- Closed ranges of code points that separate words without being part of one. -/
def blankRanges : List (Nat × Nat) :=
  [(0x09, 0x0D), (0x20, 0x20), (0x85, 0x85), (0xA0, 0xA0), (0x1680, 0x1680), (0x2000, 0x200A),
   (0x2028, 0x2029), (0x202F, 0x202F), (0x205F, 0x205F), (0x3000, 0x3000)]

def isBlank (c : Char) : Bool :=
  blankRanges.any fun r => decide (r.1 ≤ c.toNat) && decide (c.toNat ≤ r.2)

def isDelimiter (c : Char) : Bool :=
  isBlank c || c == '(' || c == ')' || c == '"' || c == ';'

end Vau
