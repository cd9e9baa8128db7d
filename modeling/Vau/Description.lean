import Vau.Printer
import Vau.Text.Inspected

/-! What failures and values say about themselves to a host: the description of a
failure, and the inspected form of a value. -/

namespace Vau

def describedWidth : Int := 80

namespace Store

def describe (s : Store) (v : Value) : Except Stop String := s.print (.within describedWidth) v

def describeInt (n : Int) : Except Stop String :=
  match writeDecimal? n with
  | some text => .ok (String.ofList text)
  | none => .error .digits

/-- The message of an error and its irritants; empty texts are left out. -/
def describeAll (s : Store) (message : String) (irritants : List Value) : Except Stop String := do
  let texts ← irritants.mapM s.describe
  return " ".intercalate ((message :: texts).filter fun t => !t.isEmpty)

end Store

def Failure.describe (s : Store) : Failure → Except Stop String
  | .unbound name => .ok ("unbound symbol: " ++ name)
  | .arity (.text wanted) actual => do
    return "expected " ++ wanted ++ ", got " ++ (← s.describe actual)
  | .arity (.shape pattern) actual => do
    let wanted ← s.describe pattern
    return "expected " ++ wanted ++ ", got " ++ (← s.describe actual)
  | .notCombinable v => do return "not a combiner: " ++ (← s.describe v)
  | .typeMismatch wanted actual => do
    return "expected " ++ wanted ++ ", got " ++ (← s.describe actual)
  | .stackExhausted => .ok "host stack exhausted by non-tail nesting"
  | .stepLimit limit => do
    return "evaluation exceeded " ++ (← Store.describeInt limit) ++ " steps"
  | .divisionByZero operator dividend => do
    return "(" ++ operator ++ " " ++ (← Store.describeInt dividend) ++ " 0)"
  | .user message irritants => s.describeAll message irritants
  | .read message => .ok (message.getD "ReadError")
  | .plain message => .ok (message.getD "KernError")

namespace Store

def inspectedName (name : Option String) : String :=
  match name with
  | none => "anonymous"
  | some n => if n.isEmpty then "anonymous" else n

def inspect (s : Store) : Value → Except Stop String
  | .nil => .ok "()"
  | .ignore => .ok "#ignore"
  | .inert => .ok "#inert"
  | .bool b => .ok (if b then "True" else "False")
  | .int n => describeInt n
  | .str t => .ok (inspectedText t)
  | .sym name => .ok ("Symbol<" ++ inspectedText name ++ ">")
  | .pair r => do return "Pair(" ++ (← s.describe (.pair r)) ++ ")"
  | .env e =>
    let f := s.frame e
    let parent := if f.parent.isSome then ", parent=#ID" else ""
    .ok ("<Environment bindings=[" ++ ", ".intercalate f.keys ++ "]" ++ parent ++ ">")
  | .operative r => .ok ("<Operative " ++ inspectedName (s.operative r).name ++ ">")
  | .applicative _ u => .ok ("<Applicative " ++ inspectedName (s.nameOf? u) ++ ">")
  | .primitive p => .ok ("<Primitive " ++ p.name ++ ">")

end Store

end Vau
