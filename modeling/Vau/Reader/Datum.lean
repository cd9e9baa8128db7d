import Vau.Store

/-! Data as read from text, before it enters a store. Only the first pair of a written
list carries a location. -/

namespace Vau

inductive Datum where
  | nil
  | ignore
  | inert
  | bool (b : Bool)
  | int (n : Int)
  | str (s : String)
  | sym (name : String)
  | pair (head tail : Datum) (location : Option Location)
  /-- A sequence that is no list; its items are the elements of `items`. -/
  | group (items : Datum)
deriving DecidableEq, Repr

namespace Datum

/-- The list of `items` before `tail`, located at its first pair. -/
def listAt (location : Option Location) (items : List Datum) (tail : Datum) : Datum :=
  match items with
  | [] => .nil
  | first :: rest => .pair first (rest.foldr (fun d t => .pair d t none) tail) location

def ofItems (items : List Datum) : Datum :=
  .group (items.foldr (fun d t => .pair d t none) .nil)

end Datum

namespace Store

/-- Brings a datum into the store, the tail of a pair before its head. -/
def load (s : Store) : Datum → Value × Store
  | .nil => (.nil, s)
  | .ignore => (.ignore, s)
  | .inert => (.inert, s)
  | .bool b => (.bool b, s)
  | .int n => (.int n, s)
  | .str t => (.str t, s)
  | .sym name => (.sym name, s)
  | .pair head tail location =>
    let t := s.load tail
    let h := t.2.load head
    h.2.cons h.1 t.1 location
  | .group items => s.load items

def loadAll (s : Store) : List Datum → List Value × Store
  | [] => ([], s)
  | d :: ds =>
    let first := s.load d
    let rest := first.2.loadAll ds
    (first.1 :: rest.1, rest.2)

end Store

end Vau
