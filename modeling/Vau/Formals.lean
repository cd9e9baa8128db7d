import Vau.Environment
import Vau.Failure

/-! Formal parameter trees against operand trees. A symbol takes whatever stands at its
place, so a dotted tail and a lone symbol are one rule. Both walks go down the spine
first and then into the heads, the last one first, as loops over a stack would. -/

namespace Vau

namespace Formals

inductive Mismatch where
  | shape
  | notFormal
  | repeated
  | endless
deriving DecidableEq, Repr

def Mismatch.stop (pattern operands : Value) : Mismatch → Stop
  | .shape => .failure (.arity (.shape pattern) operands)
  | .notFormal => .failure (.typeMismatch "formal parameter tree" pattern)
  | .repeated => .failure (.typeMismatch "formal tree without repeated symbols" pattern)
  | .endless => .endless

/-- What two spines walked in step end in, and the heads passed on the way, the last first. -/
structure Descent where
  pattern : Value
  operand : Value
  heads : List (Value × Value)

/-- Walks the spine of a pattern and of its operands in step. -/
def descend (s : Store) : Nat → List (Value × Value) → Value → Value → Except Mismatch Descent
  | fuel, heads, .pair p, .pair o =>
    match fuel with
    | 0 => .error .endless
    | fuel + 1 => descend s fuel ((s.head p, s.head o) :: heads) (s.tail p) (s.tail o)
  | _, _, .pair _, _ => .error .shape
  | _, heads, p, o => .ok ⟨p, o, heads⟩

def leaf : Value → Value → Except Mismatch (List (String × Value))
  | .sym name, o => .ok [(name, o)]
  | .ignore, _ => .ok []
  | .nil, .nil => .ok []
  | .nil, _ => .error .shape
  | _, _ => .error .notFormal

/-- Matches with at most `spine` steps along a spine and `room` levels of heads. -/
def matchWithin (s : Store) (spine : Nat) :
    Nat → Value → Value → Except Mismatch (List (String × Value))
  | 0, _, _ => .error .endless
  | room + 1, pattern, operand => do
    let d ← descend s spine [] pattern operand
    let here ← leaf d.pattern d.operand
    let inside ← d.heads.mapM fun h => matchWithin s spine room h.1 h.2
    return here ++ inside.flatten

/-- Pairs of places in a pattern and its operands that can be met before one is met again. -/
def places (s : Store) : Nat := s.cells.size * s.cells.size

def leafNames (seen : List String) : Value → Except Mismatch (List String)
  | .sym name => if name ∈ seen then .error .repeated else .ok (seen ++ [name])
  | .ignore => .ok seen
  | .nil => .ok seen
  | _ => .error .notFormal

/-- Adds the symbols of a formal tree to those seen before, with `room` levels of heads. -/
def namesWithin (s : Store) : Nat → List String → Value → Except Mismatch (List String)
  | 0, _, _ => .error .endless
  | room + 1, seen, v =>
    match s.spine? v with
    | none => .error .endless
    | some (heads, last) => do
      let seen ← leafNames seen last
      heads.reverse.foldlM (fun seen h => namesWithin s room seen h) seen

end Formals

namespace Store

def matchFormals (s : Store) (pattern operands : Value) : Except Stop (List (String × Value)) :=
  let bound := Formals.places s
  (Formals.matchWithin s bound (bound + 1) pattern operands).mapError
    (Formals.Mismatch.stop pattern operands)

def formalNames (s : Store) (pattern : Value) : Except Stop (List String) :=
  (Formals.namesWithin s (s.cells.size + 1) [] pattern).mapError
    (Formals.Mismatch.stop pattern .nil)

/-- Binds a pattern in the frame `e` itself; a mismatch binds nothing. -/
def bindFormals (s : Store) (e : Nat) (pattern operands : Value) : Except Stop Store :=
  (s.matchFormals pattern operands).map (s.defineAll e)

end Store

end Vau
