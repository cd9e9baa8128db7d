import Vau.Arithmetic
import Vau.Equality
import Vau.Machine
import Vau.Printer

/-! What the operations do. An operation reads and changes the world only; it answers with
a value, or with an expression to be evaluated in its place. -/

namespace Vau

inductive Answer where
  | value (v : Value)
  /-- Evaluation goes on with `expr` in `env`, in the place of the call. -/
  | proceed (expr : Value) (env : Nat)
deriving DecidableEq, Repr

namespace Operation

def computed {α : Type} : Except Failure α → Deed α
  | .ok a => pure a
  | .error f => Deed.fail f

def pairOperand : Value → Deed Nat
  | .pair r => pure r
  | v => Deed.fail (.typeMismatch "pair" v)

def envOperand : Value → Deed Nat
  | .env e => pure e
  | v => Deed.fail (.typeMismatch "environment" v)

/-- The environment parameter of an operative whose formals bind `names`. -/
def checkDynamic (names : List String) : Value → Deed Unit
  | .sym name =>
    if name ∈ names then
      Deed.fail (.typeMismatch "environment parameter distinct from the operand formals" (.sym name))
    else pure ()
  | .ignore => pure ()
  | .nil => pure ()
  | v => Deed.fail (.typeMismatch "symbol, #ignore or () as environment parameter" v)

def raised : List Value → Failure
  | .str message :: irritants => .user message irritants
  | irritants => .user "error" irritants

/-- The value of an operation that never answers with an expression. `room` levels of
nesting are left for printing and comparing. -/
def value (room : Nat) (env : Nat) : Operation → List Value → Deed Value
  | .vau, formals :: dynamic :: body => do
    let names ← Deed.tries fun s => s.formalNames formals
    checkDynamic names dynamic
    Deed.makes fun s => s.newOperative ⟨env, formals, dynamic, body, none⟩
  | .wrap, [v] =>
    if v.isCombiner then Deed.makes fun s => s.wrap v
    else Deed.fail (.typeMismatch "combiner" v)
  | .unwrap, [.applicative _ underlying] => pure underlying
  | .unwrap, [v] => Deed.fail (.typeMismatch "applicative" v)
  | .makeEnvironment, [] => do return .env (← Deed.makes fun s => s.newFrame none)
  | .makeEnvironment, [v] => do
    let parent ← envOperand v
    return .env (← Deed.makes fun s => s.newFrame (some parent))
  | .cons, [x, y] => Deed.makes fun s => s.cons x y none
  | .head, [v] => do
    let r ← pairOperand v
    Deed.reads fun s => s.head r
  | .tail, [v] => do
    let r ← pairOperand v
    Deed.reads fun s => s.tail r
  | .setHead, [v, x] => do
    let r ← pairOperand v
    Deed.changes fun s => s.setHead r x
    return .inert
  | .setTail, [v, x] => do
    let r ← pairOperand v
    Deed.changes fun s => s.setTail r x
    return .inert
  | .arithmetic a, vs => do return .int (← computed (a.apply vs))
  | .compare c, vs => do return .bool (← computed (c.apply vs))
  | .equal, vs => do return .bool (← Deed.tries fun s => s.allEqual room vs)
  | .same, [a, b] => pure (.bool (a.identical b))
  | .test t, [v] => pure (.bool (t.holds v))
  | .display, vs => do
    let texts ← Deed.tries fun s => vs.mapM (s.format room .shown)
    Deed.records ⟨.stdout, " ".intercalate texts⟩
    return .inert
  | .error, vs => Deed.fail (raised vs)
  | o, _ => Deed.fail (.arity (.text o.signature.text) .nil)

def perform (room : Nat) (env : Nat) : Operation → List Value → Deed Answer
  | .eval, [expr, v] => do
    let e ← envOperand v
    return .proceed expr e
  | o, vs => do return .value (← o.value room env vs)

end Operation

end Vau
