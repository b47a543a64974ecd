import TapeMachine.Json.Value

/-!
# JSON — Printing

Writes a value as text, compactly or with one item a line. Only what must be escaped is: the quote,
the backslash and the control characters below the blank.
-/

namespace TapeMachine

namespace Json

/-- The hexadecimal digit of a number below sixteen, in lower case. -/
def hexDigit (n : Nat) : Char := if n < 10 then Char.ofNat (48 + n) else Char.ofNat (87 + n)

/-- How a character stands in a string. -/
def escapeChar (c : Char) : List Char :=
  match c with
  | '"' => ['\\', '"']
  | '\\' => ['\\', '\\']
  | '\x08' => ['\\', 'b']
  | '\x0c' => ['\\', 'f']
  | '\n' => ['\\', 'n']
  | '\r' => ['\\', 'r']
  | '\t' => ['\\', 't']
  | c => if c.toNat < 0x20 then
      ['\\', 'u', '0', '0', hexDigit (c.toNat / 16), hexDigit (c.toNat % 16)]
    else [c]

/-- A text as a string, followed by `rest`. -/
def quoteOnto (cs rest : List Char) : List Char :=
  '"' :: cs.foldr (fun c more => escapeChar c ++ more) ('"' :: rest)

/-- A string literal, followed by `rest`. A literal that names no text is written as empty. -/
def literalOnto (s : StringLiteral) (rest : List Char) : List Char :=
  match s with
  | .ok s => quoteOnto s.toList rest
  | .error _ => quoteOnto [] rest

/-- A number as it was written, followed by `rest`. -/
def numberOnto (n : NumberLiteral) (rest : List Char) : List Char :=
  let power := match n.exponent with
    | none => rest
    | some (true, ds) => 'e' :: '-' :: ds ++ rest
    | some (false, ds) => 'e' :: ds ++ rest
  let fraction := if n.fraction.isEmpty then power else '.' :: n.fraction ++ power
  (if n.negative then ['-'] else []) ++ n.whole ++ fraction

/-- One of the three words of JSON. -/
def word (b : Bool) : List Char := if b then "true".toList else "false".toList

mutual

/-- A value without any white space, followed by `rest`. -/
def compactOnto : Json → List Char → List Char
  | .null, rest => "null".toList ++ rest
  | .boolean b, rest => word b ++ rest
  | .number n, rest => numberOnto n rest
  | .string s, rest => literalOnto s rest
  | .array items, rest => '[' :: compactItems items (']' :: rest)
  | .object members, rest => '\x7b' :: compactMembers members ('\x7d' :: rest)

/-- The items of an array, with commas between them, followed by `rest`. -/
def compactItems : List Json → List Char → List Char
  | [], rest => rest
  | [j], rest => compactOnto j rest
  | j :: js, rest => compactOnto j (',' :: compactItems js rest)

/-- The members of an object, with commas between them, followed by `rest`. -/
def compactMembers : List (StringLiteral × Json) → List Char → List Char
  | [], rest => rest
  | [(key, j)], rest => literalOnto key (':' :: compactOnto j rest)
  | (key, j) :: ms, rest => literalOnto key (':' :: compactOnto j (',' :: compactMembers ms rest))

end

/-- A value without any white space. -/
def compact (j : Json) : String := String.ofList (compactOnto j [])

/-- A line break and the indentation of a line at that depth, followed by `rest`. -/
def newLine (depth : Nat) (rest : List Char) : List Char :=
  '\n' :: List.replicate (2 * depth) ' ' ++ rest

mutual

/-- A value with one item a line, two blanks deeper at each level, followed by `rest`. An array or
object without items is written without a line break. -/
def prettyOnto (depth : Nat) : Json → List Char → List Char
  | .null, rest => "null".toList ++ rest
  | .boolean b, rest => word b ++ rest
  | .number n, rest => numberOnto n rest
  | .string s, rest => literalOnto s rest
  | .array [], rest => '[' :: ']' :: rest
  | .array items, rest => '[' :: prettyItems (depth + 1) items (newLine depth (']' :: rest))
  | .object [], rest => '\x7b' :: '\x7d' :: rest
  | .object members, rest =>
    '\x7b' :: prettyMembers (depth + 1) members (newLine depth ('\x7d' :: rest))

/-- The items of an array, each on a line of its own, followed by `rest`. -/
def prettyItems (depth : Nat) : List Json → List Char → List Char
  | [], rest => rest
  | [j], rest => newLine depth (prettyOnto depth j rest)
  | j :: js, rest => newLine depth (prettyOnto depth j (',' :: prettyItems depth js rest))

/-- The members of an object, each on a line of its own, followed by `rest`. -/
def prettyMembers (depth : Nat) : List (StringLiteral × Json) → List Char → List Char
  | [], rest => rest
  | [(key, j)], rest => newLine depth (literalOnto key (':' :: ' ' :: prettyOnto depth j rest))
  | (key, j) :: ms, rest =>
    newLine depth (literalOnto key
      (':' :: ' ' :: prettyOnto depth j (',' :: prettyMembers depth ms rest)))

end

/-- A value with one item a line. -/
def pretty (j : Json) : String := String.ofList (prettyOnto 0 j [])

end Json

end TapeMachine
