import TapeMachine.Text.Hidden

/-!
# Text — Quoted

Strings and characters between quotes, as messages show them: the quote and the backslash are
escaped, a few controls have a letter, and any other hidden character is written by its code point.
-/

namespace TapeMachine

namespace Quoted

/-- The code point of a character, as `\u{…}` with the fewest hexadecimal digits. -/
def codePoint (c : Char) : List Char := '\\' :: 'u' :: '\x7b' :: Nat.toDigits 16 c.toNat ++ ['\x7d']

/-- A character between quotes `q`. -/
def escape (q c : Char) : List Char :=
  if c = q ∨ c = '\\' then ['\\', c]
  else match c with
    | '\x00' => ['\\', '0']
    | '\t' => ['\\', 't']
    | '\n' => ['\\', 'n']
    | '\r' => ['\\', 'r']
    | c => if isHidden c then codePoint c else [c]

/-- A string between double quotes. -/
def string (s : String) : String :=
  String.ofList ('"' :: s.toList.flatMap (escape '"') ++ ['"'])

/-- A character between single quotes. -/
def char (c : Char) : String := String.ofList ('\'' :: escape '\'' c ++ ['\''])

/-- Texts in brackets, with commas between them. -/
def list (items : List String) : String := "[" ++ ", ".intercalate items ++ "]"

end Quoted

end TapeMachine
