/-! Integers as decimal text. Writing and reading both refuse more than
`digitLimit` digits; leading zeros count and the sign does not. -/

namespace Vau

@[irreducible] def digitLimit : Nat := 4300

/-- The least number that has more than `digitLimit` digits. -/
def digitBound : Nat := Nat.pow 10 digitLimit

def decimalText : Int → List Char
  | .ofNat n => Nat.toDigits 10 n
  | .negSucc n => '-' :: Nat.toDigits 10 (n + 1)

def writeDecimal? (n : Int) : Option (List Char) :=
  if n.natAbs < digitBound then some (decimalText n) else none

def digitValue (c : Char) : Nat := c.toNat - '0'.toNat

def digitsValue (ds : List Char) : Nat :=
  ds.foldl (fun n c => 10 * n + digitValue c) 0

/-- A nonempty run of at most `digitLimit` digits as a number. -/
def readDigits? (ds : List Char) : Option Nat :=
  if ds ≠ [] ∧ ds.all Char.isDigit = true ∧ ds.length ≤ digitLimit then some (digitsValue ds)
  else none

def readDecimal? : List Char → Option Int
  | '-' :: ds => (readDigits? ds).map fun n => -(n : Int)
  | '+' :: ds => (readDigits? ds).map fun n => (n : Int)
  | ds => (readDigits? ds).map fun n => (n : Int)

end Vau
