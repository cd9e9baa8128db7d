import Vau.Description
import Vau.Operation

/-! The evaluator. One activation reduces a combination and whatever takes its place, with
one frame on the call stack; operators, operands and all but the last form of a body are
evaluated by nested activations. Fuel bounds the length of a chain of activations and
replacements, and room bounds their nesting. -/

namespace Vau

abbrev HostFunction := List Value → Nat → Action Answer

structure Settings where
  stepLimit : Option Int := none
  /-- Nested activations that the host's stack carries. -/
  room : Nat := hostRoom
  fuel : Nat := 1000000000000000
  /-- Whether a log of calls is kept. -/
  logging : Bool := false
  functions : Array HostFunction := #[]

abbrev Evaluation := Value → Nat → Action Value

/-- Evaluates the elements of an operand list from left to right, at most `fuel` of them. -/
def operandValues (ev : Evaluation) (env : Nat) (operands : Value) :
    Nat → List Value → Value → Action (List Value)
  | fuel, done, .pair r =>
    match fuel with
    | 0 => throw .outOfFuel
    | fuel + 1 => do
      let head ← (Deed.reads fun s => s.head r).act
      let v ← ev head env
      let rest ← (Deed.reads fun s => s.tail r).act
      operandValues ev env operands fuel (v :: done) rest
  | _, done, .nil => pure done.reverse
  | _, _, _ => Action.fail (.arity (.text "proper operand list") operands)

/-- Evaluates the operands once for each wrapper and returns what was wrapped. -/
def unwrapAll (ev : Evaluation) (env : Nat) (fuel : Nat) : Value → Value → Action (Value × Value)
  | .applicative _ underlying, operands => do
    let vs ← operandValues ev env operands fuel [] operands
    let fresh ← (Deed.makes fun s => s.list vs .nil).act
    unwrapAll ev env fuel underlying fresh
  | combiner, operands => pure (combiner, operands)

/-- Evaluates all forms but the last, which is left to take their place. -/
def runForms (ev : Evaluation) (env : Nat) : List Value → Action Answer
  | [] => pure (.value .inert)
  | [last] => pure (.proceed last env)
  | form :: rest => do
    let _ ← ev form env
    runForms ev env rest

def bindDynamic (frame env : Nat) : Value → Deed Unit
  | .sym name => Deed.changes fun s => s.define frame name (.env env)
  | _ => pure ()

/-- Calls an operative: a fresh frame in its scope binds the operands and the caller's
environment, and the body runs there. -/
def callOperative (ev : Evaluation) (o : Operative) (operands : Value) (env : Nat) :
    Action Answer := do
  let frame ← (Deed.makes fun s => s.newFrame (some o.scope)).act
  (Deed.binds frame o.formals operands).act
  (bindDynamic frame env o.dynamic).act
  runForms ev frame o.body

def Form.perform (ev : Evaluation) (env : Nat) : Form → List Value → Action Answer
  | .define, [definiend, expression] => do
    let _ ← (Deed.tries fun s => s.formalNames definiend).act
    let v ← ev expression env
    (Deed.binds env definiend v).act
    match definiend with
    | .sym name => (Deed.changes fun s => s.giveName v name).act
    | _ => pure ()
    return .value .inert
  | .assign, [target, expression] =>
    match target with
    | .sym name => do
      let v ← ev expression env
      let owner ← (Deed.reads fun s => s.owner? env name).act
      match owner with
      | none => Action.fail (.unbound name)
      | some o => (Deed.changes fun s => s.define o name v).act
      return .value .inert
    | v => Action.fail (.typeMismatch "symbol" v)
  | .sequence, forms => runForms ev env forms
  | f, _ => Action.fail (.arity (.text f.signature.text) .nil)

def checkedOperands (signature : Signature) (operands : Value) : Deed (List Value) := do
  match ← Deed.reads fun s => s.spine? operands with
  | none => throw .endless
  | some (vs, .nil) =>
    if signature.admits vs.length then pure vs
    else Deed.fail (.arity (.text signature.text) operands)
  | some _ => Deed.fail (.arity (.text signature.text) operands)

def callPrimitive (cfg : Settings) (ev : Evaluation) (room : Nat) (p : Primitive)
    (operands : Value) (env : Nat) : Action Answer := do
  let vs ← (checkedOperands p.signature operands).act
  match p with
  | .form f => f.perform ev env vs
  | .operation o => (o.perform room env vs).act
  | .host slot _ _ =>
    match cfg.functions[slot]? with
    | some f => f vs env
    | none => pure (.value .inert)

def select (ev : Evaluation) (env : Nat) (fuel : Nat) (b : Bool) (operands : Value) :
    Action Answer := do
  match ← operandValues ev env operands fuel [] operands with
  | [x, y] => pure (.value (if b then x else y))
  | _ => Action.fail (.arity (.text "2 operands") operands)

def combine (cfg : Settings) (ev : Evaluation) (fuel room : Nat) (combiner operands : Value)
    (env : Nat) : Action Answer :=
  match combiner with
  | .operative r => do
    let o ← (Deed.reads fun s => s.operative r).act
    Action.notes cfg.logging ("[DBG] operative " ++ Store.inspectedName o.name)
    callOperative ev o operands env
  | .primitive p => do
    Action.notes cfg.logging ("[DBG] primitive " ++ p.name)
    callPrimitive cfg ev room p operands env
  | .bool b => select ev env fuel b operands
  | v => Action.fail (.notCombinable v)

/-- Starts a nested activation, if there is room for it. -/
def nested (run : Nat → Nat → Value → Nat → Action Value) : Nat → Evaluation
  | 0 => fun _ _ => Action.fail .stackExhausted
  | room + 1 => fun expr env m => run room m.stack.size expr env m

/-- Evaluates the operator of a combination and, once for each wrapper around what that gives,
the operands; returns the combiner and what it is to receive. -/
def resolve (ev : Evaluation) (fuel : Nat) (r env : Nat) : Action (Value × Value) := do
  let head ← (Deed.reads fun s => s.head r).act
  let operator ← ev head env
  let operands ← (Deed.reads fun s => s.tail r).act
  unwrapAll ev env fuel operator operands

/-- One turn of the activation that was entered with `base` frames on the call stack. -/
def turn (cfg : Settings) (ev : Evaluation) (fuel room base : Nat) (expr : Value) (env : Nat) :
    Action Answer := do
  Action.tick cfg.stepLimit
  match expr with
  | .sym name => do
    match ← (Deed.reads fun s => s.lookup? env name).act with
    | some v => pure (.value v)
    | none => Action.fail (.unbound name)
  | .pair r => do
    Action.enter base expr
    let (combiner, operands) ← resolve ev fuel r env
    combine cfg ev fuel room combiner operands env
  | v => pure (.value v)

/-- The activation that was entered with `base` frames on the call stack: turns are taken
until one answers with a value. -/
def reduce (cfg : Settings) : Nat → Nat → Nat → Value → Nat → Action Value
  | 0, _, _, _, _ => throw .outOfFuel
  | fuel + 1, room, base, expr, env => do
    match ← turn cfg (nested (reduce cfg fuel) room) fuel room base expr env with
    | .value v => Action.leave base v
    | .proceed expr env => reduce cfg fuel room base expr env

def evaluate (cfg : Settings) (expr : Value) (env : Nat) : Action Value := fun m =>
  reduce cfg cfg.fuel cfg.room m.stack.size expr env m

def evaluateIn (cfg : Settings) (expr : Value) : Value → Action Value
  | .env e => evaluate cfg expr e
  | v => Action.fail (.typeMismatch "environment" v)

/-- Calls a combiner with arguments that are already evaluated: one wrapper is taken off. -/
def applyTo (cfg : Settings) (combiner : Value) (args : List Value) (env : Option Value) :
    Action Value := do
  let operator :=
    match combiner with
    | .applicative _ underlying => underlying
    | v => v
  let operands ← (Deed.makes fun s => s.list args .nil).act
  let expr ← (Deed.makes fun s => s.cons operator operands none).act
  match env with
  | some v => evaluateIn cfg expr v
  | none => do
    let e ← (Deed.makes fun s => s.newFrame none).act
    evaluate cfg expr e

end Vau
