/-! The primitives: the evaluating forms, the operations, and functions that a host
supplies. Each has a name, a signature and the way it takes its operands. -/

namespace Vau

structure Signature where
  least : Nat
  most : Option Nat
  wantsEnv : Bool := false
deriving DecidableEq, Repr

namespace Signature

def exactly (n : Nat) : Signature := ⟨n, some n, false⟩

def atLeast (n : Nat) : Signature := ⟨n, none, false⟩

def between (m n : Nat) : Signature := ⟨m, some n, false⟩

def withEnv (s : Signature) : Signature := { s with wantsEnv := true }

def admits (s : Signature) (n : Nat) : Bool :=
  decide (s.least ≤ n) && s.most.all fun m => decide (n ≤ m)

def text (s : Signature) : String :=
  match s.most with
  | none => "at least " ++ toString s.least ++ " operands"
  | some m =>
    if s.least = m then toString m ++ " operands"
    else toString s.least ++ " to " ++ toString m ++ " operands"

end Signature

inductive Form where
  | define
  | assign
  | sequence
deriving DecidableEq, Repr

inductive Arithmetic where
  | add
  | multiply
  | subtract
  | quotient
  | remainder
  | modulo
deriving DecidableEq, Repr

inductive Comparison where
  | less
  | greater
  | lessEq
  | greaterEq
deriving DecidableEq, Repr

inductive Test where
  | null
  | pair
  | symbol
  | integer
  | string
  | boolean
  | environment
  | operative
  | applicative
  | combiner
  | ignore
  | inert
deriving DecidableEq, Repr

/-- The primitives that never start an evaluation while they run. -/
inductive Operation where
  | vau
  | wrap
  | unwrap
  | eval
  | makeEnvironment
  | cons
  | head
  | tail
  | setHead
  | setTail
  | arithmetic (a : Arithmetic)
  | compare (c : Comparison)
  | equal
  | same
  | test (t : Test)
  | display
  | error
deriving DecidableEq, Repr

inductive Primitive where
  | form (f : Form)
  | operation (o : Operation)
  /-- A function of the host, found in the host's table at `slot`. -/
  | host (slot : Nat) (name : String) (signature : Signature)
deriving DecidableEq, Repr

def Form.name : Form → String
  | .define => "$define!"
  | .assign => "$set!"
  | .sequence => "$sequence"

def Form.signature : Form → Signature
  | .define => (Signature.exactly 2).withEnv
  | .assign => (Signature.exactly 2).withEnv
  | .sequence => (Signature.atLeast 0).withEnv

def Arithmetic.name : Arithmetic → String
  | .add => "+"
  | .multiply => "*"
  | .subtract => "-"
  | .quotient => "quotient"
  | .remainder => "remainder"
  | .modulo => "modulo"

def Arithmetic.signature : Arithmetic → Signature
  | .add => .atLeast 0
  | .multiply => .atLeast 0
  | .subtract => .atLeast 1
  | .quotient => .exactly 2
  | .remainder => .exactly 2
  | .modulo => .exactly 2

def Comparison.name : Comparison → String
  | .less => "<"
  | .greater => ">"
  | .lessEq => "<="
  | .greaterEq => ">="

def Test.name : Test → String
  | .null => "null?"
  | .pair => "pair?"
  | .symbol => "symbol?"
  | .integer => "integer?"
  | .string => "string?"
  | .boolean => "boolean?"
  | .environment => "environment?"
  | .operative => "operative?"
  | .applicative => "applicative?"
  | .combiner => "combiner?"
  | .ignore => "ignore?"
  | .inert => "inert?"

def Operation.name : Operation → String
  | .vau => "$vau"
  | .wrap => "wrap"
  | .unwrap => "unwrap"
  | .eval => "eval"
  | .makeEnvironment => "make-environment"
  | .cons => "cons"
  | .head => "head"
  | .tail => "tail"
  | .setHead => "set-head!"
  | .setTail => "set-tail!"
  | .arithmetic a => a.name
  | .compare c => c.name
  | .equal => "="
  | .same => "eq?"
  | .test t => t.name
  | .display => "display"
  | .error => "error"

def Operation.signature : Operation → Signature
  | .vau => (Signature.atLeast 2).withEnv
  | .wrap => .exactly 1
  | .unwrap => .exactly 1
  | .eval => .exactly 2
  | .makeEnvironment => .between 0 1
  | .cons => .exactly 2
  | .head => .exactly 1
  | .tail => .exactly 1
  | .setHead => .exactly 2
  | .setTail => .exactly 2
  | .arithmetic a => a.signature
  | .compare _ => .atLeast 2
  | .equal => .atLeast 2
  | .same => .exactly 2
  | .test _ => .exactly 1
  | .display => .atLeast 0
  | .error => .atLeast 0

namespace Primitive

def name : Primitive → String
  | .form f => f.name
  | .operation o => o.name
  | .host _ name _ => name

def signature : Primitive → Signature
  | .form f => f.signature
  | .operation o => o.signature
  | .host _ _ signature => signature

/-- Built-in primitives that receive their operands unevaluated; the others are bound wrapped. -/
def takesOperands : Primitive → Bool
  | .form _ => true
  | .operation .vau => true
  | _ => false

/-- The built-in primitives in the order in which a root environment receives them. -/
def builtins : List Primitive :=
  [.operation (.arithmetic .add), .operation (.test .applicative), .operation (.test .boolean),
   .operation (.test .combiner), .operation .cons, .form .define, .operation .display,
   .operation (.test .environment), .operation .equal, .operation .same, .operation .error,
   .operation .eval, .operation (.compare .greater), .operation (.compare .greaterEq),
   .operation .head, .operation (.test .ignore), .operation (.test .inert),
   .operation (.test .integer), .operation (.compare .less), .operation (.compare .lessEq),
   .operation .makeEnvironment, .operation (.arithmetic .modulo),
   .operation (.arithmetic .multiply), .operation (.test .null), .operation (.test .operative),
   .operation (.test .pair), .operation (.arithmetic .quotient),
   .operation (.arithmetic .remainder), .form .sequence, .form .assign, .operation .setHead,
   .operation .setTail, .operation (.test .string), .operation (.arithmetic .subtract),
   .operation (.test .symbol), .operation .tail, .operation .unwrap, .operation .vau,
   .operation .wrap]

end Primitive

end Vau
