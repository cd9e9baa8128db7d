/-! Cutting a text into the lines that a source excerpt shows. A carriage return
directly before a line feed is one break with it, and a break at the end of the
text starts no further line. -/

namespace Vau

def isLineBreak (c : Char) : Bool :=
  let n := c.toNat
  (decide (0x0A ≤ n) && decide (n ≤ 0x0D)) || (decide (0x1C ≤ n) && decide (n ≤ 0x1E)) ||
    n == 0x85 || n == 0x2028 || n == 0x2029

def shownLines : List Char → List (List Char)
  | [] => []
  | '\r' :: '\n' :: rest => [] :: shownLines rest
  | c :: rest =>
    if isLineBreak c then [] :: shownLines rest
    else
      match shownLines rest with
      | [] => [[c]]
      | line :: more => (c :: line) :: more

theorem isLineBreak_newline : isLineBreak '\n' = true := by decide

end Vau
