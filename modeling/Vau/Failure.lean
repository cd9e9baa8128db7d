import Vau.Store

/-! The ways an evaluation ends without a value. A failure belongs to the language and
is reported with its kind and a description; the other stops do not. -/

namespace Vau

inductive Expectation where
  | text (s : String)
  | shape (pattern : Value)
deriving DecidableEq, Repr

inductive Failure where
  | unbound (name : String)
  | arity (expected : Expectation) (actual : Value)
  | notCombinable (v : Value)
  | typeMismatch (expected : String) (actual : Value)
  | stackExhausted
  | stepLimit (limit : Int)
  | divisionByZero (operator : String) (dividend : Int)
  | user (message : String) (irritants : List Value)
  | read (message : Option String)
  /-- A failure of no more specific kind. -/
  | plain (message : Option String)
deriving DecidableEq, Repr

def Failure.kind : Failure → String
  | .unbound _ => "UnboundSymbol"
  | .arity _ _ => "ArityMismatch"
  | .notCombinable _ => "NotCombinable"
  | .typeMismatch _ _ => "TypeMismatch"
  | .stackExhausted => "StackExhausted"
  | .stepLimit _ => "StepLimitExceeded"
  | .divisionByZero _ _ => "DivisionByZero"
  | .user _ _ => "UserError"
  | .read _ => "ReadError"
  | .plain _ => "KernError"

inductive Stop where
  | failure (f : Failure)
  /-- An integer has too many digits to be written or read. -/
  | digits
  /-- A walk over cyclic pairs would never end. -/
  | endless
  /-- The fuel of an evaluation ran out before it ended. -/
  | outOfFuel
deriving DecidableEq, Repr

end Vau
