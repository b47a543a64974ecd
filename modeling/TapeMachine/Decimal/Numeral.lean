/-!
# Decimal — Numerals

Integers written in decimal digits, with a minus in front of the negative ones, that have to lie in
a given range.
-/

namespace TapeMachine

/-- Why a numeral stands for no integer of a range. -/
inductive NumeralFault where
  | tooLarge
  | tooSmall
  deriving DecidableEq, Repr

/-- The text of the fault. -/
def NumeralFault.message : NumeralFault → String
  | .tooLarge => "number too large to fit in target type"
  | .tooSmall => "number too small to fit in target type"

namespace Numeral

/-- The integer that a numeral writes. -/
def value : List Char → Int
  | '-' :: digits => -(Nat.ofDigitChars 10 digits 0 : Int)
  | digits => Nat.ofDigitChars 10 digits 0

/-- The integer that a numeral writes, if it lies between `low` and `high`. -/
def inRange (low high : Int) (numeral : List Char) : Except NumeralFault Int :=
  let i := value numeral
  if high < i then .error .tooLarge else if i < low then .error .tooSmall else .ok i

end Numeral

end TapeMachine
