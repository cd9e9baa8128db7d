import Vau.Failure

/-! Equality of values. Identity compares pairs by place and wrappers by the combiner they
wrap; structural equality goes into pairs, along tails in a loop and into heads by
nesting. -/

namespace Vau

namespace Value

/-- Equality of anything but pairs: by kind and content, wrappers by what they wrap. -/
def atomEq : Value → Value → Bool
  | .applicative _ u, .applicative _ v => u == v
  | a, b => a == b

def identical (a b : Value) : Bool :=
  if a.isPair || b.isPair then a == b else a.atomEq b

end Value

namespace Store

/-- Compares along the tails, given how heads are compared. -/
def equalSpine (s : Store) (equalHeads : Value → Value → Except Stop Bool) :
    Nat → Value → Value → Except Stop Bool
  | fuel, .pair a, .pair b =>
    if a = b then .ok true
    else
      match fuel with
      | 0 => .error .endless
      | fuel + 1 =>
        match equalHeads (s.head a) (s.head b) with
        | .error e => .error e
        | .ok false => .ok false
        | .ok true => equalSpine s equalHeads fuel (s.tail a) (s.tail b)
  | _, a, b => .ok (a.atomEq b)

def equal (s : Store) : Nat → Value → Value → Except Stop Bool
  | 0, _, _ => .error (.failure .stackExhausted)
  | room + 1, a, b => s.equalSpine (s.equal room) (s.cells.size * s.cells.size) a b

/-- Whether each value equals the next one; the first unequal pair decides. -/
def allEqual (s : Store) (room : Nat) : List Value → Except Stop Bool
  | a :: b :: rest =>
    match s.equal room a b with
    | .error e => .error e
    | .ok false => .ok false
    | .ok true => s.allEqual room (b :: rest)
  | _ => .ok true

end Store

end Vau
