/-! The inspected form of a text: between single quotes, or between double quotes
when the text has a single quote and no double one. The quote in use, the
backslash and characters that do not print are escaped. -/

namespace Vau

namespace Inspected

/-- Closed ranges of characters beyond the printable ones of ASCII that do not print:
controls, blanks other than the space, format characters and private use. -/
def hiddenRanges : List (Nat × Nat) :=
  [(0x00, 0x1F), (0x7F, 0xA0), (0xAD, 0xAD), (0x600, 0x605), (0x61C, 0x61C), (0x6DD, 0x6DD),
   (0x70F, 0x70F), (0x1680, 0x1680), (0x180E, 0x180E), (0x2000, 0x200F), (0x2028, 0x202F),
   (0x205F, 0x206F), (0x3000, 0x3000), (0xE000, 0xF8FF), (0xFEFF, 0xFEFF), (0xFFF0, 0xFFFB),
   (0xFFFE, 0xFFFF), (0xE0000, 0xE007F), (0xF0000, 0x10FFFF)]

def isHidden (c : Char) : Bool :=
  hiddenRanges.any fun r => decide (r.1 ≤ c.toNat) && decide (c.toNat ≤ r.2)

def hexDigits (n : Nat) : Nat → List Char
  | 0 => []
  | width + 1 => hexDigits (n / 16) width ++ [Nat.digitChar (n % 16)]

/-- A character that does not print, in the shortest of the three numeric escapes. -/
def numeric (c : Char) : List Char :=
  let n := c.toNat
  if n ≤ 0xFF then '\\' :: 'x' :: hexDigits n 2
  else if n ≤ 0xFFFF then '\\' :: 'u' :: hexDigits n 4
  else '\\' :: 'U' :: hexDigits n 8

def encodeChar (quote c : Char) : List Char :=
  if c = quote ∨ c = '\\' then ['\\', c]
  else if c = '\n' then ['\\', 'n']
  else if c = '\r' then ['\\', 'r']
  else if c = '\t' then ['\\', 't']
  else if isHidden c then numeric c
  else [c]

def quoteFor (s : List Char) : Char :=
  if s.contains '\'' && !s.contains '"' then '"' else '\''

end Inspected

def inspectedText (s : String) : String :=
  let q := Inspected.quoteFor s.toList
  String.ofList (q :: (s.toList.flatMap (Inspected.encodeChar q) ++ [q]))

end Vau
