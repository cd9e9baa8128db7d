import Vau.Eval

/-! Evaluation by plain recursion. There is no call stack and nothing takes the place of
anything else: the last form of a body and an expression to go on with are evaluated by
recursion like all others. Depth bounds the recursion. -/

namespace Vau

/-- What a direct evaluation changes: a machine without its call stack. -/
structure Ledger where
  world : World
  steps : Nat
  calls : Array String

abbrev Work := EStateM Stop Ledger

def Machine.ledger (m : Machine) : Ledger := ⟨m.world, m.steps, m.calls⟩

def Deed.work {α : Type} (d : Deed α) : Work α := fun l =>
  match d l.world with
  | .ok a w => .ok a { l with world := w }
  | .error e w => .error e { l with world := w }

namespace Direct

def fail {α : Type} (f : Failure) : Work α := throw (.failure f)

def tick (limit : Option Int) : Work Unit := fun l =>
  let l := { l with steps := l.steps + 1 }
  match limit with
  | none => .ok () l
  | some n => if n < l.steps then .error (.failure (.stepLimit n)) l else .ok () l

def note (logging : Bool) (call : String) : Work Unit := fun l =>
  .ok () (if logging then { l with calls := l.calls.push call } else l)

abbrev Recursion := Value → Nat → Work Value

/-- The values of the elements of an operand list. The tail is read after the element before
it has been evaluated, which may have changed it. -/
def operands (ev : Recursion) (env : Nat) (whole : Value) : Nat → Value → Work (List Value)
  | depth, .pair r =>
    match depth with
    | 0 => throw .outOfFuel
    | depth + 1 => do
      let head ← (Deed.reads fun s => s.head r).work
      let v ← ev head env
      let rest ← (Deed.reads fun s => s.tail r).work
      let vs ← operands ev env whole depth rest
      return v :: vs
  | _, .nil => return []
  | _, _ => fail (.arity (.text "proper operand list") whole)

def unwrap (ev : Recursion) (env depth : Nat) : Value → Value → Work (Value × Value)
  | .applicative _ underlying, given => do
    let vs ← operands ev env given depth given
    let fresh ← (Deed.makes fun s => s.list vs .nil).work
    unwrap ev env depth underlying fresh
  | combiner, given => return (combiner, given)

def inOrder (ev : Recursion) (env : Nat) (forms : List Value) : Work Value :=
  forms.foldlM (fun _ form => ev form env) .inert

def operative (ev : Recursion) (o : Operative) (given : Value) (env : Nat) : Work Value := do
  let frame ← (Deed.makes fun s => s.newFrame (some o.scope)).work
  (Deed.binds frame o.formals given).work
  (bindDynamic frame env o.dynamic).work
  inOrder ev frame o.body

def define (ev : Recursion) (env : Nat) (definiend expression : Value) : Work Value := do
  let _ ← (Deed.tries fun s => s.formalNames definiend).work
  let v ← ev expression env
  (Deed.binds env definiend v).work
  match definiend with
  | .sym name => (Deed.changes fun s => s.giveName v name).work
  | _ => pure ()
  return .inert

def assign (ev : Recursion) (env : Nat) (target expression : Value) : Work Value :=
  match target with
  | .sym name => do
    let v ← ev expression env
    let owner ← (Deed.reads fun s => s.owner? env name).work
    match owner with
    | none => fail (.unbound name)
    | some o => (Deed.changes fun s => s.define o name v).work
    return .inert
  | v => fail (.typeMismatch "symbol" v)

def form (ev : Recursion) (env : Nat) : Form → List Value → Work Value
  | .define, [definiend, expression] => define ev env definiend expression
  | .assign, [target, expression] => assign ev env target expression
  | .sequence, forms => inOrder ev env forms
  | f, _ => fail (.arity (.text f.signature.text) .nil)

/-- An operation that answers with an expression has the value of that expression. -/
def operation (ev : Recursion) (depth env : Nat) (o : Operation) (vs : List Value) :
    Work Value := do
  match ← (o.perform depth env vs).work with
  | .value v => return v
  | .proceed expr env => ev expr env

def primitive (ev : Recursion) (depth : Nat) (p : Primitive) (given : Value) (env : Nat) :
    Work Value := do
  let vs ← (checkedOperands p.signature given).work
  match p with
  | .form f => form ev env f vs
  | .operation o => operation ev depth env o vs
  | .host _ _ _ => return .inert

def select (ev : Recursion) (env depth : Nat) (b : Bool) (given : Value) : Work Value := do
  match ← operands ev env given depth given with
  | [x, y] => return if b then x else y
  | _ => fail (.arity (.text "2 operands") given)

def apply (logging : Bool) (ev : Recursion) (depth : Nat) (combiner given : Value) (env : Nat) :
    Work Value :=
  match combiner with
  | .operative r => do
    let o ← (Deed.reads fun s => s.operative r).work
    note logging ("[DBG] operative " ++ Store.inspectedName o.name)
    operative ev o given env
  | .primitive p => do
    note logging ("[DBG] primitive " ++ p.name)
    primitive ev depth p given env
  | .bool b => select ev env depth b given
  | v => fail (.notCombinable v)

/-- The value of an expression in an environment, within a depth of recursion. -/
def eval (cfg : Settings) : Nat → Value → Nat → Work Value
  | 0, _, _ => throw .outOfFuel
  | depth + 1, expr, env => do
    tick cfg.stepLimit
    match expr with
    | .sym name => do
      match ← (Deed.reads fun s => s.lookup? env name).work with
      | some v => return v
      | none => fail (.unbound name)
    | .pair r => do
      let head ← (Deed.reads fun s => s.head r).work
      let operator ← eval cfg depth head env
      let rest ← (Deed.reads fun s => s.tail r).work
      let (combiner, given) ← unwrap (eval cfg depth) env depth operator rest
      apply cfg.logging (eval cfg depth) depth combiner given env
    | v => return v

end Direct

end Vau
