/-!
# Decimal — Binary64

The finite binary64 numbers as exact values `mantissa * 2 ^ exponent`, with the arithmetic that the
reading of a decimal number needs: a quotient of natural numbers goes to the nearest binary64
number, and of two nearest ones to the one whose mantissa is even.
-/

namespace TapeMachine

/-- The number `mantissa * 2 ^ exponent`, not negative. -/
structure Binary64 where
  mantissa : Nat
  exponent : Int
  deriving DecidableEq, Repr

/-- The quotient rounded to the nearest natural number, a half to the even one. -/
def roundedQuotient (num den : Nat) : Nat :=
  let q := num / den
  let r := num % den
  if 2 * r > den ∨ (2 * r = den ∧ q % 2 = 1) then q + 1 else q

namespace Binary64

/-- Mantissas have 53 bits at most: they are below `2 ^ 53`. -/
def mantissaBound : Nat := 9007199254740992

/-- The exponent of the smallest numbers. -/
def leastExponent : Int := -1074

/-- The exponent of the greatest numbers. -/
def greatestExponent : Int := 971

/-- The number nought. -/
def zero : Binary64 := ⟨0, leastExponent⟩

/-- `num / den`, to be divided by `2 ^ e`, as a quotient of natural numbers. -/
def scaled (num den : Nat) (e : Int) : Nat × Nat :=
  if 0 ≤ e then (num, den * Nat.pow 2 e.toNat) else (num * Nat.pow 2 (-e).toNat, den)

/-- The exponent at which `num / den` has a mantissa of 53 bits, unless that is below the least. -/
def exponentOf (num den : Nat) : Int :=
  let low : Int := (num.log2 : Int) - den.log2 - 53
  let (n, d) := scaled num den low
  max leastExponent (if n / d < mantissaBound then low else low + 1)

/-- The number nearest to `num / den`; nothing if that is beyond the greatest. -/
def ofQuotient? (num den : Nat) : Option Binary64 :=
  if num = 0 then some zero
  else
    let e := exponentOf num den
    let (n, d) := scaled num den e
    let m := roundedQuotient n d
    let (m, e) := if m = mantissaBound then (m / 2, e + 1) else (m, e)
    if e > greatestExponent then none else some ⟨m, e⟩

/-- The value as a quotient of natural numbers. -/
def quotient (x : Binary64) : Nat × Nat :=
  if 0 ≤ x.exponent then (x.mantissa * Nat.pow 2 x.exponent.toNat, 1)
  else (x.mantissa, Nat.pow 2 (-x.exponent).toNat)

/-- The number nearest to the product. -/
def mul? (x y : Binary64) : Option Binary64 :=
  let (a, b) := x.quotient
  let (c, d) := y.quotient
  ofQuotient? (a * c) (b * d)

/-- The number nearest to the quotient of `x` by a `y` that is not nought. -/
def div? (x y : Binary64) : Option Binary64 :=
  let (a, b) := x.quotient
  let (c, d) := y.quotient
  ofQuotient? (a * d) (b * c)

/-- The number nearest to `10 ^ n`, for `n` up to 308. -/
def tenPower? (n : Nat) : Option Binary64 := ofQuotient? (Nat.pow 10 n) 1

/-- Divides by `10 ^ 308` so many times, unless nought is reached before. -/
def shrink? : (times : Nat) → Binary64 → Option Binary64
  | 0, x => some x
  | times + 1, x =>
    if x.mantissa = 0 then some x
    else do shrink? times (← x.div? (← tenPower? 308))

/-- Multiplies by a power of ten: in one multiplication up to the 308th, in one division down to the
-308th, and below that after divisions by the 308th. Nothing if the result is beyond the greatest
number. -/
def scaleByTen? (x : Binary64) (power : Int) : Option Binary64 :=
  if x.mantissa = 0 then some x
  else if 308 < power then none
  else if 0 ≤ power then do x.mul? (← tenPower? power.toNat)
  else do
    let times := ((-power).toNat - 1) / 308
    let x ← x.shrink? times
    x.div? (← tenPower? ((-power).toNat - 308 * times))

end Binary64

end TapeMachine
