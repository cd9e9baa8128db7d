import Vau.Primitive

/-! Values. Pairs, environments and operatives live in a store and are named by
their place in it; everything else is its own content. -/

namespace Vau

inductive Value where
  | nil
  | ignore
  | inert
  | bool (b : Bool)
  | int (n : Int)
  | str (s : String)
  | sym (name : String)
  | pair (ref : Nat)
  | env (ref : Nat)
  | operative (ref : Nat)
  /-- A wrapper around a combiner; `label` tells wrappers of one combiner apart. -/
  | applicative (label : Nat) (underlying : Value)
  | primitive (p : Primitive)
deriving DecidableEq, Repr, Inhabited

namespace Value

def isPair : Value → Bool
  | .pair _ => true
  | _ => false

def isSymbol : Value → Bool
  | .sym _ => true
  | _ => false

def isApplicative : Value → Bool
  | .applicative _ _ => true
  | _ => false

/-- Whatever may stand as an operator; a boolean selects one of two operands. -/
def isCombiner : Value → Bool
  | .bool _ => true
  | .operative _ => true
  | .applicative _ _ => true
  | .primitive _ => true
  | _ => false

def core : Value → Value
  | .applicative _ underlying => underlying.core
  | v => v

end Value

def Test.holds : Test → Value → Bool
  | .null, v => v == .nil
  | .pair, v => v.isPair
  | .symbol, v => v.isSymbol
  | .integer, .int _ => true
  | .string, .str _ => true
  | .boolean, .bool _ => true
  | .environment, .env _ => true
  | .operative, .operative _ => true
  | .operative, .primitive _ => true
  | .applicative, .applicative _ _ => true
  | .applicative, .bool _ => true
  | .combiner, v => v.isCombiner
  | .ignore, v => v == .ignore
  | .inert, v => v == .inert
  | _, _ => false

end Vau
