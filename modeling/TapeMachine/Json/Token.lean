import TapeMachine.Json.Value

/-!
# JSON — Tokens

The tokens of a JSON text. `Token.next` reads one token and gives the rest of the text, which is
shorter (`Token.length_next`), so that reading token after token ends.
-/

namespace TapeMachine

/-- The tokens of a JSON text. -/
inductive Token where
  | openArray | closeArray | openObject | closeObject | colon | comma
  | null
  | boolean (value : Bool)
  | number (literal : NumberLiteral)
  | string (literal : StringLiteral)

namespace Token

/-- White space between tokens: blank, tab, line feed and carriage return. -/
def isSpace (c : Char) : Bool := c = ' ' || c = '\t' || c = '\n' || c = '\r'

/-- The value of a hexadecimal digit of either case. -/
def hexDigit? (c : Char) : Option Nat :=
  if '0' ≤ c ∧ c ≤ '9' then some (c.toNat - 48)
  else if 'a' ≤ c ∧ c ≤ 'f' then some (c.toNat - 87)
  else if 'A' ≤ c ∧ c ≤ 'F' then some (c.toNat - 55)
  else none

/-- The code unit that four hexadecimal digits write. -/
def codeUnit? (a b c d : Char) : Option Nat := do
  let a ← hexDigit? a
  let b ← hexDigit? b
  let c ← hexDigit? c
  let d ← hexDigit? d
  return ((a * 16 + b) * 16 + c) * 16 + d

/-- The first half of a surrogate pair. -/
def isLead (u : Nat) : Bool := 0xD800 ≤ u && u ≤ 0xDBFF

/-- The second half of a surrogate pair. -/
def isTrail (u : Nat) : Bool := 0xDC00 ≤ u && u ≤ 0xDFFF

/-- What a character stands for after a backslash, the `u` of a code unit apart. -/
def escaped? : Char → Option Char
  | '"' => some '"'
  | '\\' => some '\\'
  | '/' => some '/'
  | 'b' => some '\x08'
  | 'f' => some '\x0c'
  | 'n' => some '\n'
  | 'r' => some '\r'
  | 't' => some '\t'
  | _ => none

/-- A part of a string literal as it is written. -/
inductive Piece where
  /-- A character, or the escape of one. -/
  | char (c : Char)
  /-- A code unit written as an escape. -/
  | unit (u : Nat)

/-- The pieces of a string up to its closing quote, last piece first, and the text after it;
nothing if the string is not well formed. -/
def pieces (done : List Piece) : List Char → Option (List Piece × List Char)
  | [] => none
  | '"' :: rest => some (done, rest)
  | '\\' :: 'u' :: a :: b :: c :: d :: rest =>
    match codeUnit? a b c d with
    | some u => pieces (.unit u :: done) rest
    | none => none
  | '\\' :: e :: rest =>
    match escaped? e with
    | some c => pieces (.char c :: done) rest
    | none => none
  | c :: rest => if c = '\\' ∨ c.toNat < 0x20 then none else pieces (.char c :: done) rest

/-- Joins the pieces to a text: two halves of a surrogate pair make one character, and a half
without its other half is a fault. `done` holds the characters so far, last one first. -/
def join (done : List Char) : List Piece → StringLiteral
  | [] => .ok (String.ofList done.reverse)
  | .char c :: rest => join (c :: done) rest
  | .unit u :: rest =>
    if isTrail u then .error .misplaced
    else if isLead u then
      match rest with
      | .unit v :: rest =>
        if isTrail v then
          join (Char.ofNat (0x10000 + (u - 0xD800) * 0x400 + (v - 0xDC00)) :: done) rest
        else .error .misplaced
      | _ => .error .unpaired
    else join (Char.ofNat u :: done) rest

/-- The longest run of decimal digits at the start of a text, and what follows it. -/
def digits (cs : List Char) : List Char × List Char :=
  (cs.takeWhile Char.isDigit, cs.dropWhile Char.isDigit)

/-- The whole part of a number: a nought, or digits that do not start with one. -/
def wholePart : List Char → Option (List Char × List Char)
  | '0' :: rest => some (['0'], rest)
  | cs => match digits cs with
    | ([], _) => none
    | found => some found

/-- The digits after a point, of which there is one at least if there is a point. -/
def fractionPart : List Char → Option (List Char × List Char)
  | '.' :: rest => match digits rest with
    | ([], _) => none
    | found => some found
  | cs => some ([], cs)

/-- The digits of a power of ten, of which there is one at least. -/
def exponentDigits (negative : Bool) (cs : List Char) :
    Option (Option (Bool × List Char) × List Char) :=
  match digits cs with
  | ([], _) => none
  | (found, rest) => some (some (negative, found), rest)

/-- The power of ten of a number, if one is written. -/
def exponentPart : List Char → Option (Option (Bool × List Char) × List Char)
  | [] => some (none, [])
  | e :: rest =>
    if e = 'e' ∨ e = 'E' then
      match rest with
      | '-' :: rest => exponentDigits true rest
      | '+' :: rest => exponentDigits false rest
      | rest => exponentDigits false rest
    else some (none, e :: rest)

/-- A number without its sign. -/
def unsigned (negative : Bool) (cs : List Char) : Option (NumberLiteral × List Char) := do
  let (whole, cs) ← wholePart cs
  let (fraction, cs) ← fractionPart cs
  let (exponent, cs) ← exponentPart cs
  return (⟨negative, whole, fraction, exponent⟩, cs)

/-- The number at the start of a text, and the text after it. -/
def number? : List Char → Option (NumberLiteral × List Char)
  | '-' :: rest => unsigned true rest
  | cs => unsigned false cs

/-- What stands at the start of a text. -/
inductive Found where
  /-- White space, and nothing after it. -/
  | nothing
  /-- No token. -/
  | junk
  | token (t : Token) (rest : List Char)

/-- Reads the first token of a text that does not start with white space. -/
def first : List Char → Found
  | [] => .nothing
  | '[' :: rest => .token .openArray rest
  | ']' :: rest => .token .closeArray rest
  | '\x7b' :: rest => .token .openObject rest
  | '\x7d' :: rest => .token .closeObject rest
  | ':' :: rest => .token .colon rest
  | ',' :: rest => .token .comma rest
  | 'n' :: 'u' :: 'l' :: 'l' :: rest => .token .null rest
  | 't' :: 'r' :: 'u' :: 'e' :: rest => .token (.boolean true) rest
  | 'f' :: 'a' :: 'l' :: 's' :: 'e' :: rest => .token (.boolean false) rest
  | '"' :: rest =>
    match pieces [] rest with
    | some (found, rest) => .token (.string (join [] found.reverse)) rest
    | none => .junk
  | cs =>
    match number? cs with
    | some (found, rest) => .token (.number found) rest
    | none => .junk

/-- Reads the first token of a text. -/
def next (cs : List Char) : Found := first (cs.dropWhile isSpace)

end Token

end TapeMachine
