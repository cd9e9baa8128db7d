import Vau.Formals

/-! The state of an evaluation. The world is what programs can change for good: the store
and the record of side effects. The machine adds the call stack and the step counter. -/

namespace Vau

/-- Where a side effect goes; notes are for the host alone. -/
inductive Channel where
  | stdout
  | stderr
  | note
deriving DecidableEq, Repr

structure Effect where
  channel : Channel
  message : String
deriving DecidableEq, Repr

structure World where
  store : Store := .empty
  effects : Array Effect := #[]
deriving DecidableEq, Repr

structure Machine where
  world : World := {}
  /-- The combinations being reduced, outermost first. -/
  stack : Array Value := #[]
  steps : Nat := 0
  /-- The combiners called, kept when a log of calls is asked for. -/
  calls : Array String := #[]
deriving DecidableEq, Repr

abbrev Deed := EStateM Stop World

/-- A change of the machine that may stop; the changes made before a stop remain. -/
abbrev Action := EStateM Stop Machine

namespace Deed

def fail {α : Type} (f : Failure) : Deed α := throw (.failure f)

def reads {α : Type} (f : Store → α) : Deed α := fun w => .ok (f w.store) w

def tries {α : Type} (f : Store → Except Stop α) : Deed α := fun w =>
  match f w.store with
  | .ok a => .ok a w
  | .error e => .error e w

def makes {α : Type} (f : Store → α × Store) : Deed α := fun w =>
  match w with
  | ⟨store, effects⟩ =>
    let r := f store
    .ok r.1 ⟨r.2, effects⟩

def changes (f : Store → Store) : Deed Unit := fun w =>
  match w with
  | ⟨store, effects⟩ => .ok () ⟨f store, effects⟩

def records (e : Effect) : Deed Unit := fun w =>
  match w with
  | ⟨store, effects⟩ => .ok () ⟨store, effects.push e⟩

/-- Binds a pattern in a frame, or stops with nothing bound. -/
def binds (e : Nat) (pattern operands : Value) : Deed Unit := do
  let bs ← tries fun s => s.matchFormals pattern operands
  changes fun s => s.defineAll e bs

def act {α : Type} (d : Deed α) : Action α := fun m =>
  match m with
  | ⟨world, stack, steps, calls⟩ =>
    match d world with
    | .ok a world => .ok a ⟨world, stack, steps, calls⟩
    | .error e world => .error e ⟨world, stack, steps, calls⟩

end Deed

namespace Machine

def reset (m : Machine) : Machine := { m with stack := #[], steps := 0 }

def store (m : Machine) : Store := m.world.store

end Machine

namespace Action

def fail {α : Type} (f : Failure) : Action α := throw (.failure f)

def tick (limit : Option Int) : Action Unit := fun m =>
  let m := { m with steps := m.steps + 1 }
  match limit with
  | none => .ok () m
  | some l => if l < m.steps then .error (.failure (.stepLimit l)) m else .ok () m

/-- Makes `frame` the frame of the activation that was entered with `base` frames. -/
def enter (base : Nat) (frame : Value) : Action Unit := fun m =>
  .ok () { m with
    stack := if base < m.stack.size then m.stack.setIfInBounds base frame else m.stack.push frame }

/-- Drops the frames of the activation that was entered with `base` frames. -/
def leave {α : Type} (base : Nat) (a : α) : Action α := fun m =>
  .ok a { m with stack := m.stack.shrink base }

def notes (logging : Bool) (call : String) : Action Unit := fun m =>
  .ok () (if logging then { m with calls := m.calls.push call } else m)

end Action

end Vau
