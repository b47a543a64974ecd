import TapeMachine.Decimal.Binary64

/-!
# Decimal — Shortest

The fewest decimal digits that read back to a binary64 number. Every real number of an interval
around `x` is rounded to `x`; for one digit, two digits and so on up to seventeen, the two multiples
of a power of ten next to `x` are tried, and the first that lies in the interval is taken, of two
the nearer one, and of two equally near ones the even one.
-/

namespace TapeMachine

/-- The number `0.d₁d₂… * 10 ^ point`, by its digits. -/
structure DecimalDigits where
  digits : List Char
  point : Int
  deriving DecidableEq, Repr

namespace Binary64

/-- Whether the real number `c * 10 ^ k` is rounded to `x`: it lies between the midpoints to the
neighbours of `x`, which are included iff the mantissa is even. -/
def isReadFrom (x : Binary64) (c : Nat) (k : Int) : Bool :=
  -- All is multiplied by `4 * 2 ^ a * 10 ^ b`, which makes it whole.
  let unit := Nat.pow 10 (-k).toNat * Nat.pow 2 x.exponent.toNat
  let low := if 2 * x.mantissa = mantissaBound ∧ x.exponent ≠ leastExponent
    then (4 * x.mantissa - 1) * unit else (4 * x.mantissa - 2) * unit
  let high := (4 * x.mantissa + 2) * unit
  let value := 4 * c * Nat.pow 10 k.toNat * Nat.pow 2 (-x.exponent).toNat
  if x.mantissa % 2 = 0 then low ≤ value && value ≤ high else low < value && value < high

/-- The power of ten of the first digit of `num / den`, which is not nought. -/
def leadingPower (num den : Nat) : Int :=
  if den ≤ num then ((Nat.toDigits 10 (num / den)).length : Int) - 1
  else
    let t := (Nat.toDigits 10 (den / num)).length
    if num * Nat.pow 10 (t - 1) ≥ den then -((t : Int) - 1) else -(t : Int)

/-- The number `c * 10 ^ k` by its digits, without noughts at the end. -/
def digitsOf (c : Nat) (k : Int) : DecimalDigits :=
  let all := Nat.toDigits 10 c
  ⟨(all.reverse.dropWhile (· = '0')).reverse, k + all.length⟩

/-- The multiple of `10 ^ k` next to `x` that reads back to it, if there is one. -/
def onGrid? (x : Binary64) (k : Int) : Option DecimalDigits :=
  let (num, den) := x.quotient
  let (n, d) := if 0 ≤ k then (num, den * Nat.pow 10 k.toNat) else (num * Nat.pow 10 (-k).toNat, den)
  let nearer := roundedQuotient n d
  let farther := if nearer = n / d then nearer + 1 else n / d
  if x.isReadFrom nearer k then some (digitsOf nearer k)
  else if x.isReadFrom farther k then some (digitsOf farther k)
  else none

/-- The first grid that has such a multiple, from the power `k` downwards. -/
def searchGrids (x : Binary64) (k : Int) : (grids : Nat) → DecimalDigits
  | 0 => digitsOf 0 0
  | grids + 1 => (x.onGrid? k).getD (searchGrids x (k - 1) grids)

/-- The fewest digits that read back to a number that is not nought. -/
def shortest (x : Binary64) : DecimalDigits :=
  let (num, den) := x.quotient
  searchGrids x (leadingPower num den) 17

end Binary64

/-- How the digits of a number are laid out. -/
structure NumberLayout where
  /-- Numbers from `10 ^ least` are written with a point among their digits. -/
  least : Int
  /-- Numbers from `10 ^ greatest` are written with a power of ten. -/
  greatest : Int

/-- The text of a power of ten, with a sign in any case and no more digits than it needs. -/
def powerText (p : Int) : List Char :=
  'e' :: (if p < 0 then '-' else '+') :: Nat.toDigits 10 p.natAbs

/-- Lays out digits: with a point and at least one digit on both sides of it, or as one digit, the
others after a point, and a signed power of ten. -/
def NumberLayout.layOut (layout : NumberLayout) (d : DecimalDigits) : List Char :=
  let leading := d.point - 1
  if layout.least ≤ leading ∧ leading < layout.greatest then
    if d.point ≤ 0 then '0' :: '.' :: List.replicate (-d.point).toNat '0' ++ d.digits
    else
      let n := d.point.toNat
      let whole := d.digits.take n ++ List.replicate (n - d.digits.length) '0'
      let fraction := d.digits.drop n
      whole ++ '.' :: (if fraction.isEmpty then ['0'] else fraction)
  else
    match d.digits with
    | [] => []
    | [c] => c :: powerText leading
    | c :: cs => c :: '.' :: cs ++ powerText leading

/-- A number that may be negative: the sign, and the digits in the given layout. -/
def NumberLayout.write (layout : NumberLayout) (negative : Bool) (x : Binary64) : List Char :=
  let sign := if negative then ['-'] else []
  if x.mantissa = 0 then sign ++ ['0', '.', '0']
  else sign ++ layout.layOut x.shortest

end TapeMachine
