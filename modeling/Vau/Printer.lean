import Vau.Environment
import Vau.Failure
import Vau.Text.Decimal
import Vau.Text.Quoted

/-! Values as text. Display leaves strings bare. A width cuts the text: lists nested
deeper than the width and elements beyond it are not visited. -/

namespace Vau

structure Style where
  display : Bool := false
  width : Option Int := none
deriving DecidableEq, Repr

namespace Style

def plain : Style := {}

def shown : Style := { display := true }

def within (w : Int) : Style := { width := some w }

def exceeds (st : Style) (n : Nat) : Bool :=
  match st.width with
  | none => false
  | some w => decide (w < n)

def omits (st : Style) (depth : Nat) : Bool :=
  match st.width with
  | none => false
  | some w => decide (w ≤ depth)

/-- A text longer than the width keeps its beginning and ends in three dots. -/
def cut (st : Style) (text : List Char) : List Char :=
  match st.width with
  | none => text
  | some w =>
    if w < text.length then text.take (w - 3).toNat ++ ['.', '.', '.'] else text

/-- Elements of a list that can be visited before the width is exceeded or, without a
width, before the list is known to be cyclic. -/
def budget (st : Style) (s : Store) : Nat :=
  match st.width with
  | none => s.cells.size
  | some w => w.toNat + 1

end Style

namespace Printer

def labelled (kind : String) : Option String → List Char
  | none => '#' :: '[' :: (kind.toList ++ [']'])
  | some name =>
    if name.isEmpty then '#' :: '[' :: (kind.toList ++ [']'])
    else '#' :: '[' :: (kind.toList ++ ' ' :: (name.toList ++ [']']))

def atom (st : Style) (s : Store) : Value → Except Stop (List Char)
  | .nil => .ok ['(', ')']
  | .ignore => .ok "#ignore".toList
  | .inert => .ok "#inert".toList
  | .bool b => .ok (if b then ['#', 't'] else ['#', 'f'])
  | .int n =>
    match writeDecimal? n with
    | some text => .ok text
    | none => .error .digits
  | .str t => .ok (if st.display then t.toList else Quoted.encode t.toList)
  | .sym name => .ok name.toList
  | .pair _ => .ok []
  | .env _ => .ok "#[environment]".toList
  | .operative r => .ok (labelled "operative" (s.operative r).name)
  | .applicative _ underlying => .ok (labelled "applicative" (s.nameOf? underlying))
  | .primitive p => .ok ("#[primitive ".toList ++ (p.name.toList ++ [']']))

/-- The texts between the parentheses of a list, given how its elements are written. `used`
counts the characters of the texts so far with a separator after each. -/
def parts (st : Style) (s : Store) (write : Value → Except Stop (List Char)) :
    Nat → Nat → List (List Char) → Value → Except Stop (List (List Char))
  | fuel, used, done, .pair r =>
    match fuel with
    | 0 => .error .endless
    | fuel + 1 =>
      match write (s.head r) with
      | .error e => .error e
      | .ok text =>
        let used := used + text.length + 1
        if st.exceeds used then .ok ((['.', '.', '.'] :: text :: done).reverse)
        else parts st s write fuel used (text :: done) (s.tail r)
  | _, _, done, .nil => .ok done.reverse
  | _, _, done, v =>
    match write v with
    | .error e => .error e
    | .ok text => .ok ((text :: ['.'] :: done).reverse)

/-- The uncut text of a value at nesting level `depth`; `room` levels of nesting are left. -/
def write (st : Style) (s : Store) : Nat → Nat → Value → Except Stop (List Char)
  | room, depth, .pair r =>
    if st.omits depth then .ok ['.', '.', '.']
    else
      match room with
      | 0 => .error (.failure .stackExhausted)
      | room + 1 =>
        match parts st s (write st s room (depth + 1)) (st.budget s) 0 [] (.pair r) with
        | .error e => .error e
        | .ok texts => .ok ('(' :: ([' '].intercalate texts ++ [')']))
  | _, _, v => atom st s v

end Printer

def hostRoom : Nat := 1000

namespace Store

def format (s : Store) (room : Nat) (st : Style) (v : Value) : Except Stop String :=
  (Printer.write st s room 0 v).map fun text => String.ofList (st.cut text)

def print (s : Store) (st : Style) (v : Value) : Except Stop String := s.format hostRoom st v

end Store

end Vau
