/-! Positions in a text and locations of what was read from it. Lines and columns
count from one, a column counts characters, and only a line feed starts a line. -/

namespace Vau

structure Position where
  line : Int
  column : Int
deriving DecidableEq, Repr

namespace Position

def start : Position := ⟨1, 1⟩

def step (p : Position) (c : Char) : Position :=
  if c = '\n' then ⟨p.line + 1, 1⟩ else ⟨p.line, p.column + 1⟩

def advance (p : Position) (cs : List Char) : Position := cs.foldl step p

@[simp] theorem advance_nil (p : Position) : p.advance [] = p := rfl

@[simp] theorem advance_cons (p : Position) (c : Char) (cs : List Char) :
    p.advance (c :: cs) = (p.step c).advance cs := rfl

theorem advance_append (p : Position) (as bs : List Char) :
    p.advance (as ++ bs) = (p.advance as).advance bs := by
  simp [advance, List.foldl_append]

end Position

/-- Where a list was written: its opening parenthesis and the name of its source. -/
structure Location where
  line : Int
  column : Int
  source : Option String
deriving DecidableEq, Repr

end Vau
