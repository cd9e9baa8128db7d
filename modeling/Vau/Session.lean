import Vau.Eval
import Vau.Prelude
import Vau.Reader.Grammar
import Vau.Report

/-! Sessions: one root environment in which scripts are read and evaluated one after
another. A host can supply primitives of its own, which replace built-in ones of the
same name and are there before the prelude is loaded. -/

namespace Vau

inductive Supply where
  | function (takesOperands : Bool) (signature : Signature) (run : HostFunction)
  | combiner (make : Store → Value × Store)
  /-- Something that cannot be called, in its inspected form. -/
  | other (inspected : String)

/-- A supplied primitive. One that is given under a symbol comes after all given under a
text, also where the names agree. -/
structure Supplied where
  name : String
  underSymbol : Bool := false
  supply : Supply

inductive Entry where
  | builtin (p : Primitive)
  | supplied (s : Supplied)

namespace Supplied

/-- Whether a supplied primitive takes the place of a built-in one. -/
def replaces (s : Supplied) (p : Primitive) : Bool := !s.underSymbol && s.name == p.name

def entries (supplied : List Supplied) : List Entry :=
  let builtins := Primitive.builtins.map fun p =>
    match supplied.find? fun s => s.replaces p with
    | some s => .supplied s
    | none => .builtin p
  let added := supplied.filter fun s => !Primitive.builtins.any fun p => s.replaces p
  builtins ++ added.map Entry.supplied

end Supplied

structure Foundation where
  store : Store
  functions : Array HostFunction := #[]

namespace Foundation

/-- Binds a primitive, wrapped unless it takes its operands as they are. -/
def bindPrimitive (f : Foundation) (root : Nat) (name : String) (takesOperands : Bool)
    (p : Primitive) : Foundation :=
  let r := if takesOperands then (.primitive p, f.store) else f.store.wrap (.primitive p)
  { f with store := r.2.define root name r.1 }

def addEntry (root : Nat) (f : Foundation) : Entry → Except Problem Foundation
  | .builtin p => .ok (f.bindPrimitive root p.name p.takesOperands p)
  | .supplied s =>
    match s.supply with
    | .function takesOperands signature run =>
      let p := Primitive.host f.functions.size s.name signature
      let f := { f with functions := f.functions.push run }
      .ok (f.bindPrimitive root s.name takesOperands p)
    | .combiner make =>
      let r := make f.store
      .ok { f with store := r.2.define root s.name r.1 }
    | .other inspected =>
      .error (.notCallable
        ("Primitive " ++ inspectedText s.name ++ " is not callable: " ++ inspected))

def build (store : Store) (supplied : List Supplied) : Except Problem (Nat × Foundation) := do
  let r := store.newFrame none
  let f ← (Supplied.entries supplied).foldlM (addEntry r.1) { store := r.2 }
  return (r.1, f)

end Foundation

structure Session where
  settings : Settings
  root : Nat
  machine : Machine
  /-- Frames shown in a trace. -/
  traceDepth : Int := 12

inductive Outcome where
  | success (v : Value)
  | failure (kind message : String) (location : Option Location)
  /-- Something other than a failure of the language. -/
  | raised (s : Stop)
deriving DecidableEq, Repr

/-- Evaluates forms in order, each from a cleared call stack and step count. -/
def runProgram (cfg : Settings) (root : Nat) : List Value → Value → Action Value
  | [], last => pure last
  | form :: rest, _ => do
    modify Machine.reset
    let v ← evaluate cfg form root
    runProgram cfg root rest v

namespace Session

def bare (store : Store) (stepLimit : Option Int) (supplied : List Supplied) :
    Except Problem Session := do
  let (root, f) ← Foundation.build store supplied
  return {
    settings := { stepLimit := stepLimit, functions := f.functions }
    root := root
    machine := { world := { store := f.store } } }

/-- Brings data into the store and evaluates them as a program. -/
def program (s : Session) (data : List Datum) : Action Value := do
  let forms ← (Deed.makes fun st => st.loadAll data).act
  runProgram s.settings s.root forms .inert

/-- Loads what was read as a prelude. -/
def load (s : Session) : Except Refusal (List Datum) → Except Problem Session
  | .error (.error e) => .error (.failure (Failure.read none).kind e.message)
  | .error .digits => .error (.stopped .digits)
  | .ok data =>
    match s.program data s.machine with
    | .ok _ m => .ok { s with machine := m.reset }
    | .error e m => .error (e.problem m.store)

/-- Loads the prelude, of which each session has a reading of its own. A host may read it once for all
of its sessions: these then share the pairs of the code, and what the scripts of one do to them the
others see. Here no session reaches the pairs of another. -/
def loadPrelude (s : Session) : Except Problem Session := s.load (read "core" preludeText)

def start (store : Store) (stepLimit : Option Int) (prelude : Bool) (supplied : List Supplied) :
    Except Problem Session := do
  let s ← bare store stepLimit supplied
  if prelude then s.loadPrelude else return s

/-- The machine at the beginning of a script: no side effects, frames, steps or calls. -/
def cleared (m : Machine) : Machine :=
  { m with world := { m.world with effects := #[] }, stack := #[], steps := 0, calls := #[] }

def recordError (m : Machine) (message : String) : Machine :=
  { m with world := { m.world with effects := m.world.effects.push ⟨.stderr, message⟩ } }

def runData (s : Session) (source : String) (data : List Datum) : Outcome × Session :=
  match s.program data s.machine with
  | .ok v m => (.success v, { s with machine := m })
  | .error (.failure f) m =>
    match failureMessage m s.traceDepth source f with
    | .ok message =>
      (.failure f.kind message (failureLocation m), { s with machine := recordError m message })
    | .error e => (.raised e, { s with machine := m })
  | .error e m => (.raised e, { s with machine := m })

def run (s : Session) (source : String) : Outcome × Session :=
  let s := { s with machine := cleared s.machine }
  match read scriptSource source with
  | .error (.error e) =>
    let f := Failure.read (some e.message)
    let message := f.kind ++ ": " ++ e.message
    (.failure f.kind message none, { s with machine := recordError s.machine message })
  | .error .digits => (.raised .digits, s)
  | .ok data => s.runData source data

def evaluate (s : Session) (expr : Value) : Action Value := do
  modify Machine.reset
  Vau.evaluate s.settings expr s.root

end Session

end Vau
