/-!
# Range

The whole numbers that a machine works with: a position fits a signed word of 64 bits, a count an
unsigned one.
-/

namespace TapeMachine

/-- The least position, `-2 ^ 63`. -/
def leastPosition : Int := -9223372036854775808

/-- The greatest position, `2 ^ 63 - 1`. -/
def greatestPosition : Int := 9223372036854775807

/-- A number that a position can be. -/
def IsPosition (i : Int) : Prop := leastPosition ≤ i ∧ i ≤ greatestPosition

instance : DecidablePred IsPosition := fun _ => inferInstanceAs (Decidable (_ ∧ _))

/-- The greatest count, `2 ^ 64 - 1`. -/
def greatestCount : Nat := 18446744073709551615

end TapeMachine
