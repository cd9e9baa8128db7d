import Vau.Reader.Node
import Vau.Text.Blank

/-! The grammar of source text. A datum is the first of a list, an integer, a string, a
boolean, a constant, the word `nil` or a symbol that matches at a place; repetition takes
as much as it can. -/

namespace Vau

structure Cursor where
  position : Position
  rest : List Char
deriving DecidableEq, Repr

namespace Cursor

def start (text : List Char) : Cursor := ⟨.start, text⟩

def after (c : Cursor) (taken rest : List Char) : Cursor := ⟨c.position.advance taken, rest⟩

end Cursor

namespace Grammar

/-- Skips blanks and comments, a comment running up to the end of its line. -/
def skip (comment : Bool) (p : Position) : List Char → Cursor
  | [] => ⟨p, []⟩
  | c :: cs =>
    if comment then skip (c != '\n') (p.step c) cs
    else if c = ';' then skip true (p.step c) cs
    else if isBlank c then skip false (p.step c) cs
    else ⟨p, c :: cs⟩

def gap (c : Cursor) : Cursor := skip false c.position c.rest

def atBoundary : List Char → Bool
  | [] => true
  | c :: _ => isDelimiter c

abbrev Scanner := List Char → Option (List Char × List Char)

def following? : List Char → List Char → Option (List Char)
  | [], cs => some cs
  | w :: ws, c :: cs => if w = c then following? ws cs else none
  | _ :: _, [] => none

def words (ws : List String) : Scanner := fun cs =>
  ws.findSome? fun w =>
    match following? w.toList cs with
    | some rest => if atBoundary rest then some (w.toList, rest) else none
    | none => none

/-- Digits that end at a boundary, after the sign already taken. -/
def digits (sign : List Char) : Scanner := fun cs =>
  let ds := cs.takeWhile Char.isDigit
  let rest := cs.dropWhile Char.isDigit
  if !ds.isEmpty && atBoundary rest then some (sign ++ ds, rest) else none

def integer : Scanner
  | '+' :: cs => digits ['+'] cs
  | '-' :: cs => digits ['-'] cs
  | cs => digits [] cs

/-- The rest of a string literal after its opening quote. A backslash takes the next
character with it, which must not be a line feed. -/
def stringBody : Scanner
  | [] => none
  | '"' :: rest => some (['"'], rest)
  | ['\\'] => none
  | '\\' :: c :: rest =>
    if c = '\n' then none else (stringBody rest).map fun r => ('\\' :: c :: r.1, r.2)
  | c :: rest => (stringBody rest).map fun r => (c :: r.1, r.2)

def string : Scanner
  | '"' :: rest => (stringBody rest).map fun r => ('"' :: r.1, r.2)
  | _ => none

def boolean : Scanner := words ["#true", "#false", "#t", "#f"]

def constant : Scanner := words ["#ignore", "#inert"]

def nil : Scanner := words ["nil"]

def dot : Scanner := words ["."]

def symbol : Scanner := fun cs =>
  match dot cs, cs with
  | none, c :: rest =>
    if isDelimiter c || c == '#' then none
    else
      let isWord := fun c => !isDelimiter c
      some (c :: rest.takeWhile isWord, rest.dropWhile isWord)
  | _, _ => none

def atoms : List (Tag × Scanner) :=
  [(.integer, integer), (.string, string), (.boolean, boolean), (.constant, constant),
   (.nil, nil), (.symbol, symbol)]

def atom (c : Cursor) : Option (Node × Cursor) :=
  atoms.findSome? fun a =>
    (a.2 c.rest).map fun r =>
      (.tree a.1 (String.ofList r.1) (.ofPosition c.position) [], c.after r.1 r.2)

/-- The outcome of a rule: it matches, it does not, or the text is nested too deeply. -/
inductive Match (α : Type) where
  | found (value : α) (next : Cursor)
  | absent
  | tooDeep

def many (datum : Cursor → Match Node) : Nat → Cursor → Match (List Node)
  | 0, c => .found [] c
  | fuel + 1, c =>
    match datum c with
    | .absent => .found [] c
    | .tooDeep => .tooDeep
    | .found n next =>
      match many datum fuel (gap next) with
      | .found ns last => .found (n :: ns) last
      | .absent => .absent
      | .tooDeep => .tooDeep

/-- As many data as there are; each takes at least one character. -/
def manyFrom (datum : Cursor → Match Node) (c : Cursor) : Match (List Node) :=
  many datum c.rest.length c

def dotted (datum : Cursor → Match Node) (c : Cursor) : Match Node :=
  match dot c.rest with
  | none => .absent
  | some (taken, rest) =>
    match datum (gap (c.after taken rest)) with
    | .found n next => .found (.tree .tail "" (.ofPosition c.position) [n]) (gap next)
    | .absent => .absent
    | .tooDeep => .tooDeep

def close (opening : Cursor) (children : List Node) (c : Cursor) : Match Node :=
  match c.rest with
  | ')' :: rest =>
    .found (.tree .list "" (.ofPosition opening.position) children) (c.after [')'] rest)
  | _ => .absent

def list (datum : Cursor → Match Node) (c : Cursor) : Match Node :=
  match c.rest with
  | '(' :: rest =>
    match manyFrom datum (gap (c.after ['('] rest)) with
    | .absent => .absent
    | .tooDeep => .tooDeep
    | .found items next =>
      match dotted datum next with
      | .tooDeep => .tooDeep
      | .absent => close c items next
      | .found tail last => close c (items ++ [tail]) last
  | _ => .absent

def begins (c : Cursor) : Bool := c.rest.head? == some '(' || (atom c).isSome

/-- One datum. A datum that begins inside `room` lists or more is nested too deeply. -/
def datum : Nat → Cursor → Match Node
  | 0, c => if begins c then .tooDeep else .absent
  | room + 1, c =>
    match list (datum room) c with
    | .found n next => .found n next
    | .tooDeep => .tooDeep
    | .absent =>
      match atom c with
      | some (n, next) => .found n next
      | none => .absent

def program (room : Nat) (text : List Char) : Match (List Node) :=
  manyFrom (datum room) (gap (Cursor.start text))

end Grammar

def nestingLimit : Nat := 400

def parse (room : Nat) (text : List Char) : Except ReadError (List Node) :=
  match Grammar.program room text with
  | .found nodes c =>
    if c.rest.isEmpty then .ok nodes else .error (.unconsumed c.position c.rest)
  | _ => .error .tooDeep

def readText (source : String) (text : List Char) : Except Refusal (List Datum) :=
  match parse nestingLimit text with
  | .error e => .error (.error e)
  | .ok nodes => Node.toItems (some source) nodes

def read (source : String) (text : String) : Except Refusal (List Datum) :=
  readText source text.toList

end Vau
