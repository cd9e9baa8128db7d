import Vau.Description
import Vau.Machine
import Vau.Text.Lines

/-! The report of a failure: its description, an excerpt of the source around the place
where it happened, and the innermost frames of the call stack. -/

namespace Vau

/-- The name of scripts in locations; places in the prelude are not reported. -/
def scriptSource : String := "script"

def excerptRadius : Int := 2

namespace Excerpt

def padLeft (width : Nat) (text : String) : String :=
  String.ofList (List.replicate (width - text.length) ' ') ++ text

def entry (line : Int) (column : Option Int) (width : Nat) (number : Int) (text : List Char) :
    List String :=
  let mark := if number = line then ">" else " "
  let shown := mark ++ " " ++ padLeft width (toString number) ++ " | " ++ String.ofList text
  match column with
  | some c =>
    if number = line then
      let caret := String.ofList (List.replicate (c - 1).toNat ' ')
      [shown, "  " ++ padLeft width "" ++ " | " ++ caret ++ "^"]
    else [shown]
  | none => [shown]

end Excerpt

def excerpt (source : String) (line : Int) (column : Option Int) (radius : Int) : String :=
  let lines := shownLines source.toList
  if line < 1 ∨ (lines.length : Int) < line then ""
  else
    let first := max 1 (line - radius)
    let last := min (lines.length : Int) (line + radius)
    let width := (toString last).length
    let numbered := lines.mapIdx fun i text => ((i : Int) + 1, text)
    let shown := numbered.filter fun l => decide (first ≤ l.1) && decide (l.1 ≤ last)
    "\n".intercalate (shown.flatMap fun l => Excerpt.entry line column width l.1 l.2)

def failureLocation (m : Machine) : Option Location :=
  m.stack.toList.reverse.findSome? fun frame =>
    match m.store.location frame with
    | some l => if l.source = some scriptSource then some l else none
    | none => none

/-- The frames kept for a trace of a given depth, the outermost first. A depth of zero keeps
all of them, and a negative depth drops that many of the outermost. -/
def tracedFrames (depth : Int) (stack : List Value) : List Value :=
  if 0 < depth then stack.drop (stack.length - depth.toNat)
  else stack.drop (-depth).toNat

def frameWidth : Int := 40

def stackTrace (m : Machine) (depth : Int) : Except Stop String := do
  let stack := m.stack.toList
  if stack.isEmpty then return ""
  let frames ← (tracedFrames depth stack).mapM (m.store.print (.within frameWidth))
  let omitted :=
    if depth < stack.length then ["... " ++ toString ((stack.length : Int) - depth) ++ " more"]
    else []
  return "Kern stacktrace: " ++ " ".intercalate (omitted ++ frames)

def failureMessage (m : Machine) (depth : Int) (source : String) (f : Failure) :
    Except Stop String := do
  let headline := f.kind ++ ": " ++ (← f.describe m.store)
  let place :=
    match failureLocation m with
    | none => ""
    | some l =>
      "\n(line " ++ toString l.line ++ ", col " ++ toString l.column ++ ")\n" ++
        excerpt source l.line (some l.column) excerptRadius
  let trace ← stackTrace m depth
  return headline ++ place ++ (if trace.isEmpty then "" else "\n" ++ trace)

/-- A message with its line and column in front, unless it already begins with a line. -/
def locatedMessage (message : Option String) (line column : Option Int) : String :=
  let text :=
    match message with
    | none => "Unknown error"
    | some t => if t.isEmpty then "Unknown error" else t
  match line with
  | none => text
  | some l =>
    if "Error on line ".toList.isPrefixOf text.toList then text
    else
      let place :=
        match column with
        | none => ""
        | some c => ", col " ++ toString c
      "Error on line " ++ toString l ++ place ++ ": " ++ text

inductive Problem where
  | failure (kind text : String)
  /-- A host primitive is not a function. -/
  | notCallable (text : String)
  | stopped (s : Stop)
deriving DecidableEq, Repr

def Stop.problem (s : Store) : Stop → Problem
  | .failure f =>
    match f.describe s with
    | .ok text => .failure f.kind text
    | .error e => .stopped e
  | e => .stopped e

end Vau
