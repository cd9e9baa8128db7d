import Vau.Environment
import Vau.Failure

/-! Environments as a host addresses them, by keys that may be any value. Only symbols are
keys; in the subscript forms a text stands for the symbol of that name. -/

namespace Vau

def Value.asKey : Value → Value
  | .str name => .sym name
  | v => v

namespace Store

def defineKey (s : Store) (e : Nat) (key v : Value) : Except Failure Store :=
  match key with
  | .sym name => .ok (s.define e name v)
  | other => .error (.typeMismatch "symbol" other)

def lookupKey (s : Store) (e : Nat) (key : Value) : Except Failure Value :=
  match key with
  | .sym name =>
    match s.lookup? e name with
    | some v => .ok v
    | none => .error (.unbound name)
  | other => .error (.typeMismatch "symbol" other)

def assignKey (s : Store) (e : Nat) (key v : Value) : Except Failure Store :=
  match key with
  | .sym name =>
    match s.assign? e name v with
    | some s' => .ok s'
    | none => .error (.unbound name)
  | other => .error (.typeMismatch "symbol" other)

def ownerOfKey? (s : Store) (e : Nat) (key : Value) : Option Nat :=
  match key with
  | .sym name => s.owner? e name
  | _ => none

def hasKey (s : Store) (e : Nat) (key : Value) : Bool := (s.ownerOfKey? e key).isSome

end Store

end Vau
