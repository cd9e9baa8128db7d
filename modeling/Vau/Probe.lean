import Vau.Session

/-! Primitives with which a host watches evaluation from inside: what is passed, how deep
the call stack is, and which operands and environment a call receives. -/

namespace Vau

namespace Probe

/-- Notes the text of its operand and returns the operand. -/
def trace : Supply :=
  .function false (.exactly 1) fun vs _ =>
    match vs with
    | [v] => Deed.act do
      let text ← Deed.tries fun s => s.print .plain v
      Deed.records ⟨.note, text⟩
      return .value v
    | _ => pure (.value .inert)

def depth : Supply :=
  .function false (.exactly 0) fun _ _ m => .ok (.value (.int m.stack.size)) m

def operands : Supply :=
  .function true (.atLeast 0) fun vs _ =>
    Deed.act do return .value (← Deed.makes fun s => s.list vs .nil)

def environment : Supply :=
  .function true (.withEnv (.exactly 0)) fun _ env => pure (.value (.env env))

/-- A list of three: up to two of its operands may be missing and are then empty lists. -/
def three : Supply :=
  .function false (.between 1 3) fun vs _ =>
    Deed.act do return .value (← Deed.makes fun s => s.list ((vs ++ [Value.nil, Value.nil]).take 3) .nil)

/-- Goes on with its operand as an expression in the caller's environment. -/
def resume : Supply :=
  .function false (.withEnv (.exactly 1)) fun vs env =>
    match vs with
    | [expr] => pure (.proceed expr env)
    | _ => pure (.value .inert)

def count (signature : Signature) : Supply :=
  .function false signature fun vs _ => pure (.value (.int vs.length))

def returner : Supply :=
  .combiner fun s =>
    let r := s.newFrame none
    r.2.newOperative ⟨r.1, .sym "x", .ignore, [.sym "x"], none⟩

end Probe

end Vau
