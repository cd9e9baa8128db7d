import Vau.Failure

/-! Arithmetic and comparison of integers. Every operand is checked, from left to right,
before anything is computed; booleans are not integers. -/

namespace Vau

def integerOperand (operator : String) : Value → Except Failure Int
  | .int n => .ok n
  | v => .error (.typeMismatch ("integer operand for " ++ operator) v)

def integerOperands (operator : String) (vs : List Value) : Except Failure (List Int) :=
  vs.mapM (integerOperand operator)

namespace Arithmetic

/-- The quotient of the absolute values, negated if just one of the two is negative. -/
def truncated (x y : Int) : Int :=
  let q : Int := (x.natAbs / y.natAbs : Nat)
  if x < 0 ↔ y < 0 then q else -q

/-- What the truncated quotient leaves of `x`. -/
def remaining (x y : Int) : Int :=
  x - y * truncated x y

def divide (a : Arithmetic) (f : Int → Int → Int) (x y : Int) : Except Failure Int :=
  if y = 0 then .error (.divisionByZero a.name x) else .ok (f x y)

def compute : Arithmetic → List Int → Except Failure Int
  | .add, ns => .ok (ns.foldl (· + ·) 0)
  | .multiply, ns => .ok (ns.foldl (· * ·) 1)
  | .subtract, [n] => .ok (-n)
  | .subtract, n :: ns => .ok (ns.foldl (· - ·) n)
  | .quotient, [x, y] => divide .quotient truncated x y
  | .remainder, [x, y] => divide .remainder remaining x y
  | .modulo, [x, y] => divide .modulo Int.fmod x y
  | a, _ => .error (.arity (.text a.signature.text) .nil)

def apply (a : Arithmetic) (vs : List Value) : Except Failure Int := do
  a.compute (← integerOperands a.name vs)

end Arithmetic

namespace Comparison

def holds : Comparison → Int → Int → Bool
  | .less, x, y => decide (x < y)
  | .greater, x, y => decide (x > y)
  | .lessEq, x, y => decide (x ≤ y)
  | .greaterEq, x, y => decide (x ≥ y)

/-- Whether the relation holds between each number and the next. -/
def chain (c : Comparison) : List Int → Bool
  | x :: y :: rest => c.holds x y && c.chain (y :: rest)
  | _ => true

def apply (c : Comparison) (vs : List Value) : Except Failure Bool := do
  return c.chain (← integerOperands c.name vs)

end Comparison

end Vau
