/-! String literals between double quotes. Writing escapes the quote, the
backslash and control characters and keeps everything else; reading accepts
the usual escapes and reports the leftmost flaw of a literal it refuses. -/

namespace Vau

inductive Flaw where
  | missing
  | unterminated
  | control
  | escape
  | unicode
  | trailing
deriving DecidableEq, Repr

def Flaw.message : Flaw → String
  | .missing => "Expecting value"
  | .unterminated => "Unterminated string starting at"
  | .control => "Invalid control character at"
  | .escape => "Invalid \\escape"
  | .unicode => "Invalid \\uXXXX escape"
  | .trailing => "Extra data"

namespace Quoted

def hexDigit (n : Nat) : Char := Nat.digitChar (n % 16)

def encodeChar (c : Char) : List Char :=
  if c = '"' then ['\\', '"']
  else if c = '\\' then ['\\', '\\']
  else if c = '\n' then ['\\', 'n']
  else if c = '\r' then ['\\', 'r']
  else if c = '\t' then ['\\', 't']
  else if c = '\x08' then ['\\', 'b']
  else if c = '\x0c' then ['\\', 'f']
  else if c.toNat < 0x20 then ['\\', 'u', '0', '0', hexDigit (c.toNat / 16), hexDigit c.toNat]
  else [c]

def encode (s : List Char) : List Char := '"' :: (s.flatMap encodeChar ++ ['"'])

def hexValue? (c : Char) : Option Nat :=
  if '0' ≤ c ∧ c ≤ '9' then some (c.toNat - '0'.toNat)
  else if 'a' ≤ c ∧ c ≤ 'f' then some (c.toNat - 'a'.toNat + 10)
  else if 'A' ≤ c ∧ c ≤ 'F' then some (c.toNat - 'A'.toNat + 10)
  else none

def unit? (a b c d : Char) : Option Nat :=
  match hexValue? a, hexValue? b, hexValue? c, hexValue? d with
  | some a, some b, some c, some d => some (((a * 16 + b) * 16 + c) * 16 + d)
  | _, _, _, _ => none

def isHigh (u : Nat) : Bool := decide (0xD800 ≤ u) && decide (u ≤ 0xDBFF)

def isLow (u : Nat) : Bool := decide (0xDC00 ≤ u) && decide (u ≤ 0xDFFF)

def joined (high low : Nat) : Char :=
  Char.ofNat (0x10000 + (high - 0xD800) * 0x400 + (low - 0xDC00))

/-- The character of one unit. Half of a surrogate pair is no character, so that a half which stands
alone becomes the replacement character; where texts are sequences of code points, decoding keeps
such a half as it is. -/
def single (u : Nat) : Char :=
  if isHigh u || isLow u then '\uFFFD' else Char.ofNat u

def escaped? (c : Char) : Option Char :=
  if c = '"' then some '"'
  else if c = '\\' then some '\\'
  else if c = '/' then some '/'
  else if c = 'b' then some '\x08'
  else if c = 'f' then some '\x0c'
  else if c = 'n' then some '\n'
  else if c = 'r' then some '\r'
  else if c = 't' then some '\t'
  else none

inductive Piece where
  | char (c : Char)
  | unit (u : Nat)
deriving DecidableEq, Repr

/-- Joins surrogate units that stand side by side. -/
def assemble : List Piece → List Char
  | [] => []
  | .char c :: rest => c :: assemble rest
  | .unit high :: .unit low :: rest =>
    if isHigh high && isLow low then joined high low :: assemble rest
    else single high :: assemble (.unit low :: rest)
  | .unit u :: rest => single u :: assemble rest

def prepend (p : Piece) (r : Except Flaw (List Piece × List Char)) :
    Except Flaw (List Piece × List Char) :=
  r.map fun t => (p :: t.1, t.2)

/-- Reads up to the closing quote and returns the content and what follows the quote.
Four hexadecimal digits count only if more text follows them. -/
def decodeBody : List Char → Except Flaw (List Piece × List Char)
  | [] => .error .unterminated
  | '"' :: rest => .ok ([], rest)
  | ['\\'] => .error .unterminated
  | '\\' :: 'u' :: a :: b :: c :: d :: rest =>
    match unit? a b c d with
    | none => .error .unicode
    | some u => if rest.isEmpty then .error .unicode else prepend (.unit u) (decodeBody rest)
  | '\\' :: 'u' :: _ => .error .unicode
  | '\\' :: c :: rest =>
    match escaped? c with
    | none => .error .escape
    | some x => prepend (.char x) (decodeBody rest)
  | c :: rest => if c.toNat < 0x20 then .error .control else prepend (.char c) (decodeBody rest)

def isPadding (c : Char) : Bool := c == ' ' || c == '\t' || c == '\n' || c == '\r'

def decode (text : List Char) : Except Flaw (List Char) :=
  match text.dropWhile isPadding with
  | '"' :: body =>
    match decodeBody body with
    | .error flaw => .error flaw
    | .ok (content, rest) => if rest.all isPadding then .ok (assemble content) else .error .trailing
  | _ => .error .missing

end Quoted

end Vau
