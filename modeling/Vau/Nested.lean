import Vau.Failure

/-! Host data: values, and sequences of host data. Sequences become lists, and proper
lists become sequences, at every level. -/

namespace Vau

inductive Nested where
  | value (v : Value)
  | sequence (items : List Nested)
deriving Inhabited

namespace Store

/-- The elements that an iteration over a chain of pairs visits, and how it fails. -/
def iterate (s : Store) (v : Value) : List Value × Option Stop :=
  match s.spine? v with
  | none => ([], some .endless)
  | some (items, .nil) => (items, none)
  | some (items, _) => (items, some (.failure (.typeMismatch "proper list" v)))

def isList (s : Store) (v : Value) : Bool := (s.iterate v).2.isNone

end Store

namespace Nested

mutual

def toValue : Nested → Store → Value × Store
  | .value v, s => (v, s)
  | .sequence items, s => toList items s

/-- Makes the list of the values of host data, the last element first. -/
def toList : List Nested → Store → Value × Store
  | [], s => (.nil, s)
  | item :: items, s =>
    let rest := toList items s
    let first := toValue item rest.2
    first.2.cons first.1 rest.1 none

end

def ofValue (s : Store) : Nat → Value → Except Stop Nested
  | _, .nil => .ok (.sequence [])
  | room, .pair r =>
    match s.spine? (.pair r) with
    | none => .error .endless
    | some (items, .nil) =>
      match room with
      | 0 => .error (.failure .stackExhausted)
      | room + 1 => do return .sequence (← items.mapM (ofValue s room))
    | some _ => .ok (.value (.pair r))
  | _, v => .ok (.value v)

end Nested

end Vau
