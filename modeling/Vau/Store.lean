import Vau.Location
import Vau.Value

/-! The store: every pair, environment frame and operative that exists, in the order
of creation. Pairs can be changed in place, so a chain of pairs may be cyclic; a walk
of more steps than there are pairs shows that it is. -/

namespace Vau

structure Cell where
  head : Value
  tail : Value
  location : Option Location := none
deriving DecidableEq, Repr

/-- The bindings of one frame, oldest first, and the frame that encloses it. -/
structure Frame where
  bindings : List (String × Value) := []
  parent : Option Nat := none
deriving DecidableEq, Repr

structure Operative where
  scope : Nat
  formals : Value
  dynamic : Value
  body : List Value
  name : Option String := none
deriving DecidableEq, Repr

structure Store where
  cells : Array Cell := #[]
  frames : Array Frame := #[]
  operatives : Array Operative := #[]
  /-- How many wrappers have been made. -/
  wrappers : Nat := 0
deriving DecidableEq, Repr

namespace Store

def empty : Store := {}

/-- The cell of a pair; a name that was never given out stands for a pair of empty lists. -/
def cell (s : Store) (r : Nat) : Cell := s.cells.getD r ⟨.nil, .nil, none⟩

def head (s : Store) (r : Nat) : Value := (s.cell r).head

def tail (s : Store) (r : Nat) : Value := (s.cell r).tail

def location (s : Store) : Value → Option Location
  | .pair r => (s.cell r).location
  | _ => none

def frame (s : Store) (e : Nat) : Frame := s.frames.getD e {}

def operative (s : Store) (r : Nat) : Operative := s.operatives.getD r ⟨0, .nil, .nil, [], none⟩

def cons (s : Store) (head tail : Value) (location : Option Location) : Value × Store :=
  (.pair s.cells.size, { s with cells := s.cells.push ⟨head, tail, location⟩ })

def setHead (s : Store) (r : Nat) (v : Value) : Store :=
  { s with cells := s.cells.modify r fun c => { c with head := v } }

def setTail (s : Store) (r : Nat) (v : Value) : Store :=
  { s with cells := s.cells.modify r fun c => { c with tail := v } }

def newFrame (s : Store) (parent : Option Nat) : Nat × Store :=
  (s.frames.size, { s with frames := s.frames.push { parent := parent } })

def newOperative (s : Store) (o : Operative) : Value × Store :=
  (.operative s.operatives.size, { s with operatives := s.operatives.push o })

def wrap (s : Store) (v : Value) : Value × Store :=
  (.applicative s.wrappers v, { s with wrappers := s.wrappers + 1 })

def list (s : Store) (items : List Value) (tail : Value) : Value × Store :=
  items.foldr (fun v acc => acc.2.cons v acc.1 none) (tail, s)

/-- Follows the tails of `v`, collecting heads, until something other than a pair. -/
def walk (s : Store) : Nat → List Value → Value → Option (List Value × Value)
  | fuel, heads, .pair r =>
    match fuel with
    | 0 => none
    | fuel + 1 => s.walk fuel (s.head r :: heads) (s.tail r)
  | _, heads, v => some (heads.reverse, v)

/-- The elements of a chain of pairs and what ends it, or nothing if it is cyclic. -/
def spine? (s : Store) (v : Value) : Option (List Value × Value) :=
  s.walk s.cells.size [] v

def nameOf? (s : Store) : Value → Option String
  | .sym name => some name
  | .operative r => (s.operative r).name
  | .applicative _ underlying => s.nameOf? underlying
  | .primitive p => some p.name
  | _ => none

/-- Names the operative under any wrappers, unless it already has a name. -/
def giveName (s : Store) (v : Value) (name : String) : Store :=
  match v.core with
  | .operative r =>
    { s with operatives := s.operatives.modify r fun o =>
        if o.name.isNone then { o with name := some name } else o }
  | _ => s

@[simp] theorem size_cells_cons (s : Store) (x y : Value) (l : Option Location) :
    (s.cons x y l).2.cells.size = s.cells.size + 1 := by
  simp [cons]

theorem cell_cons (s : Store) (x y : Value) (l : Option Location) (r : Nat) :
    (s.cons x y l).2.cell r = if r = s.cells.size then ⟨x, y, l⟩ else s.cell r := by
  by_cases h : r = s.cells.size
  · simp [cell, cons, h]
  · simp [cell, cons, Array.getElem?_push, h]

theorem frame_newFrame (s : Store) (p : Option Nat) (e : Nat) :
    (s.newFrame p).2.frame e = if e = s.frames.size then ⟨[], p⟩ else s.frame e := by
  by_cases h : e = s.frames.size
  · simp [frame, newFrame, h]
  · simp [frame, newFrame, Array.getElem?_push, h]

end Store

end Vau
