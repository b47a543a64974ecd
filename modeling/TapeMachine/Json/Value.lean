/-!
# JSON — Values

A JSON document as a tree. Nothing that a reader of the document may still ask is lost: the members
of an object keep their order and their repetitions, a number keeps its digits, and a string whose
escapes name no character keeps the first of its faults.
-/

namespace TapeMachine

/-- Why the escapes of a string name no text. -/
inductive EscapeFault where
  /-- The first half of a surrogate pair is not followed by another escape. -/
  | unpaired
  /-- The second half of a surrogate pair stands where none is expected, or is missing. -/
  | misplaced
  deriving DecidableEq, Repr

/-- A string literal: the text it stands for, or its first fault. -/
abbrev StringLiteral := Except EscapeFault String

/-- A number literal, digit by digit. A literal without a fraction has no fraction digits. -/
structure NumberLiteral where
  negative : Bool
  whole : List Char
  fraction : List Char
  /-- The sign (`true` for minus) and the digits of the power of ten, if one is written. -/
  exponent : Option (Bool × List Char)
  deriving DecidableEq, Repr

/-- A JSON document. -/
inductive Json where
  | null
  | boolean (value : Bool)
  | number (literal : NumberLiteral)
  | string (literal : StringLiteral)
  | array (items : List Json)
  | object (members : List (StringLiteral × Json))
  deriving Inhabited

namespace NumberLiteral

/-- The literal of a natural number. -/
def ofNat (n : Nat) : NumberLiteral := ⟨false, Nat.toDigits 10 n, [], none⟩

/-- The literal of an integer. -/
def ofInt (i : Int) : NumberLiteral := ⟨i < 0, Nat.toDigits 10 i.natAbs, [], none⟩

/-- Whether the literal is written as a whole number. -/
def isWhole (n : NumberLiteral) : Bool := n.fraction.isEmpty && n.exponent.isNone

end NumberLiteral

namespace Json

/-- The value of a text. -/
def text (s : String) : Json := .string (.ok s)

/-- The value of a natural number. -/
def nat (n : Nat) : Json := .number (.ofNat n)

/-- The value of an integer. -/
def int (i : Int) : Json := .number (.ofInt i)

/-- The value of a symbol: a string of one character. -/
def char (c : Char) : Json := .text (String.singleton c)

/-- The value of a word: a string of its symbols. -/
def chars (cs : List Char) : Json := .text (String.ofList cs)

/-- A list of values. -/
def list {α : Type} (encode : α → Json) (items : List α) : Json := .array (items.map encode)

/-- An object with the given members, in this order. -/
def record (members : List (String × Json)) : Json :=
  .object (members.map fun (key, value) => (.ok key, value))

/-- The member of a record for a value, unless there is none. -/
def present (key : String) (value : Option Json) : List (String × Json) :=
  value.toList.map (key, ·)

/-- The first member of that name, if the value is an object that has one. -/
def member? (j : Json) (key : String) : Option Json :=
  match j with
  | .object members => members.findSome? fun
    | (.ok k, v) => if k = key then some v else none
    | (.error _, _) => none
  | _ => none

end Json

end TapeMachine
