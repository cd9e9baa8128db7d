import Vau.Reader.Datum
import Vau.Text.Decimal
import Vau.Text.Inspected
import Vau.Text.Quoted

/-! Parse trees and the data they stand for. A tree may also hold finished data and
sequences of trees. A dotted tail is converted before the elements it follows. -/

namespace Vau

inductive Tag where
  | program
  | list
  | tail
  | integer
  | string
  | boolean
  | constant
  | nil
  | symbol
  | other (name : Option String)
deriving DecidableEq, Repr

def Tag.name? : Tag → Option String
  | .program => some "program"
  | .list => some "list"
  | .tail => some "tail"
  | .integer => some "integer"
  | .string => some "string"
  | .boolean => some "boolean"
  | .constant => some "constant"
  | .nil => some "nil"
  | .symbol => some "symbol"
  | .other name => name

def Tag.ofName (name : String) : Tag :=
  ([.program, .list, .tail, .integer, .string, .boolean, .constant, .nil, .symbol].find?
    fun t => t.name? == some name).getD (.other (some name))

/-- Where a tree begins, as far as it is known. -/
structure Origin where
  line : Option Int := none
  column : Option Int := none
deriving DecidableEq, Repr

namespace Origin

def ofPosition (p : Position) : Origin := ⟨some p.line, some p.column⟩

def number : Option Int → String
  | none => "None"
  | some n => toString n

def text (o : Origin) : String :=
  "(line " ++ number o.line ++ ", col " ++ number o.column ++ ")"

def location (o : Origin) (source : Option String) : Option Location :=
  match o.line, o.column with
  | some line, some column => some ⟨line, column, source⟩
  | _, _ => none

end Origin

inductive Node where
  | datum (d : Datum)
  | sequence (items : List Node)
  | tree (tag : Tag) (text : String) (origin : Origin) (children : List Node)
deriving Inhabited

inductive ReadError where
  | unconsumed (position : Position) (rest : List Char)
  | tooDeep
  | noHead (origin : Origin)
  | notOneTail (origin : Origin)
  | badString (text : String) (origin : Origin) (flaw : Flaw)
  | unexpected (tag : Tag)
deriving DecidableEq, Repr

namespace ReadError

/-- The beginning of the text that was left over: at most twenty characters of one line. -/
def leftover (rest : List Char) : List Char := (rest.take 20).takeWhile fun c => c != '\n'

def message : ReadError → String
  | .unconsumed p rest =>
    "Parse Error in input text at L" ++ toString p.line ++ ":C" ++ toString p.column ++
      ". Rule 'program' parsed successfully, but failed to consume the entire input. " ++
      "Unconsumed text begins with: '" ++ String.ofList (leftover rest) ++ "...'"
  | .tooDeep => "source nested too deeply to read"
  | .noHead o => "dotted list without a head " ++ o.text
  | .notOneTail o => "expected one datum after '.' " ++ o.text
  | .badString text o flaw => "bad string literal " ++ text ++ " " ++ o.text ++ ": " ++ flaw.message
  | .unexpected tag =>
    "unexpected syntax node: " ++
      match tag.name? with
      | none => "None"
      | some name => inspectedText name

end ReadError

inductive Refusal where
  | error (e : ReadError)
  | digits
deriving DecidableEq, Repr

namespace Node

def isTail : Node → Bool
  | .tree .tail _ _ _ => true
  | _ => false

/-- The shape of a list node's children must be that of a list, dotted or not. -/
def checkTail (origin : Origin) (children : List Node) : Except Refusal Unit :=
  match children.getLast? with
  | some (.tree .tail _ _ dotted) =>
    if children.length = 1 then .error (.error (.noHead origin))
    else if dotted.length = 1 then .ok ()
    else .error (.error (.notOneTail origin))
  | _ => .ok ()

def integer (text : String) : Except Refusal Datum :=
  match readDecimal? text.toList with
  | some n => .ok (.int n)
  | none => .error .digits

def string (text : String) (origin : Origin) : Except Refusal Datum :=
  match Quoted.decode text.toList with
  | .ok content => .ok (.str (String.ofList content))
  | .error flaw => .error (.error (.badString text origin flaw))

mutual

def toDatum (source : Option String) : Node → Except Refusal Datum
  | .datum d => .ok d
  | .sequence items => (toItems source items).map Datum.ofItems
  | .tree .program _ _ children => (toItems source children).map Datum.ofItems
  | .tree .list _ origin children => do
    checkTail origin children
    let tail ← toEnding source children
    let items ← toElements source children
    return Datum.listAt (origin.location source) items tail
  | .tree .integer text _ _ => integer text
  | .tree .string text origin _ => string text origin
  | .tree .boolean text _ _ => .ok (.bool (text == "#t" || text == "#true"))
  | .tree .constant text _ _ => .ok (if text = "#ignore" then .ignore else .inert)
  | .tree .nil _ _ _ => .ok .nil
  | .tree .symbol text _ _ => .ok (.sym text)
  | .tree tag _ _ _ => .error (.error (.unexpected tag))

def toItems (source : Option String) : List Node → Except Refusal (List Datum)
  | [] => .ok []
  | n :: rest => do
    let d ← toDatum source n
    let ds ← toItems source rest
    return d :: ds

/-- The data of a list node's children other than a dotted tail at the end. -/
def toElements (source : Option String) : List Node → Except Refusal (List Datum)
  | [] => .ok []
  | n :: rest =>
    if n.isTail && rest.isEmpty then .ok []
    else do
      let d ← toDatum source n
      let ds ← toElements source rest
      return d :: ds

/-- What ends a list: the datum of a dotted tail, or the empty list. -/
def toEnding (source : Option String) : List Node → Except Refusal Datum
  | [] => .ok .nil
  | [.tree .tail _ _ (n :: _)] => toDatum source n
  | _ :: rest => toEnding source rest

end

end Node

end Vau
