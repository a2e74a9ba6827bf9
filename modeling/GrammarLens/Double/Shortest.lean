import GrammarLens.Double

/-! # The shortest decimal of a number

The decimals that stand for a number of 64 bits fill an interval around it, from halfway to the
number below up to halfway to the number above; both ends belong to it if the mantissa is even.  A
number is written with the fewest digits that some decimal in the interval has, and of several such
decimals with the nearest one, or the even one of two that are as near.

Decimals from `10 ^ -4` up to `10 ^ 16` are written out, with a digit after the point, and all
others with a power of ten. -/

namespace GrammarLens.Double

/-- The decimal `digits * 10 ^ power`. -/
structure Decimal where
  digits : Nat
  power : Int
deriving DecidableEq, Repr

/-- The interval of what stands for `mantissa * 2 ^ exponent`, counted in quarters of
`2 ^ exponent`: its ends, and whether they belong to it. -/
structure Interval where
  low : Nat
  high : Nat
  closed : Bool
deriving DecidableEq, Repr

/-- The interval of what stands for a positive number.  Below a power of two the numbers lie
closer together. -/
def intervalOf (mantissa : Nat) (exponent : Int) : Interval where
  low := 4 * mantissa - (if 2 * mantissa = mantissaBound ∧ leastExponent < exponent then 1 else 2)
  high := 4 * mantissa + 2
  closed := mantissa % 2 = 0

/-- The factors that bring a quarter of `2 ^ exponent`, and `10 ^ power`, to one scale. -/
def factors (exponent power : Int) : Nat × Nat :=
  (twoTo (exponent - 2).toNat * tenTo (-power).toNat,
    tenTo power.toNat * twoTo (2 - exponent).toNat)

/-- Whether `digits * 10 ^ power` is in the interval, when the factors are those of the power. -/
def Interval.holds (interval : Interval) (factor : Nat × Nat) (digits : Nat) : Bool :=
  let low := interval.low * factor.1
  let high := interval.high * factor.1
  let decimal := digits * factor.2
  if interval.closed then low ≤ decimal && decimal ≤ high else low < decimal && decimal < high

/-- The decimal with this power of ten that stands for a number, if there is one: the two that are
nearest are tried. -/
def decimalAt? (mantissa : Nat) (exponent power : Int) : Option Decimal :=
  let interval := intervalOf mantissa exponent
  let factor := factors exponent power
  let size := 4 * mantissa * factor.1
  let below := size / factor.2
  match interval.holds factor below, interval.holds factor (below + 1) with
  | true, true => some ⟨roundedQuotient size factor.2, power⟩
  | true, false => some ⟨below, power⟩
  | false, true => some ⟨below + 1, power⟩
  | false, false => none

/-- Whether `mantissa * 2 ^ exponent` is below `10 ^ power`. -/
def isBelow (mantissa : Nat) (exponent power : Int) : Bool :=
  let factor := factors exponent power
  4 * mantissa * factor.1 < factor.2

/-- The least power of ten, not below `guess`, that is above `mantissa * 2 ^ exponent`; a few steps
are enough for a good guess. -/
def leastPower (mantissa : Nat) (exponent guess : Int) : Nat → Int
  | 0 => guess
  | steps + 1 =>
    if isBelow mantissa exponent guess then guess
    else leastPower mantissa exponent (guess + 1) steps

/-- The power of ten with as many digits before the point as a positive number has.  A power of two
is about three tenths as many powers of ten. -/
def magnitude (mantissa : Nat) (exponent : Int) : Int :=
  leastPower mantissa exponent ((((mantissa.log2 : Int) + exponent) * 30103) / 100000 - 1) 5

/-- All digits of a finite number. -/
def exactDecimal (mantissa : Nat) (exponent : Int) : Decimal :=
  ⟨mantissa * twoTo exponent.toNat * Nat.pow 5 (-exponent).toNat, min exponent 0⟩

/-- The decimal with the fewest digits that stands for a positive number.  Seventeen digits are
always enough. -/
def shortest (mantissa : Nat) (exponent : Int) : Decimal :=
  let most := magnitude mantissa exponent
  let powers := (List.range 17).map fun n : Nat => most - 1 - n
  (powers.findSome? (decimalAt? mantissa exponent)).getD (exactDecimal mantissa exponent)

/-- Digits without the zeros at their end. -/
def trimZeros (digits : List Char) : List Char := (digits.reverse.dropWhile (· == '0')).reverse

/-- An exponent of ten with its sign, and two digits at least. -/
def exponentText (power : Int) : List Char :=
  let digits := (toString power.natAbs).toList
  let padded := if digits.length < 2 then '0' :: digits else digits
  (if power < 0 then '-' else '+') :: padded

/-- Digits with a point after the first `point` of them.  A point further away is told by a power
of ten. -/
def layOut (digits : List Char) (point : Int) : List Char :=
  if point ≤ -4 ∨ 16 < point then
    let first := digits.take 1
    let rest := digits.drop 1
    (if rest.isEmpty then first else first ++ '.' :: rest) ++ 'e' :: exponentText (point - 1)
  else if point ≤ 0 then '0' :: '.' :: List.replicate (-point).toNat '0' ++ digits
  else
    let before := digits.take point.toNat
    let after := digits.drop point.toNat
    before ++ List.replicate (point.toNat - before.length) '0' ++
      '.' :: (if after.isEmpty then ['0'] else after)

/-- A positive number as a text. -/
def renderPositive (mantissa : Nat) (exponent : Int) : List Char :=
  let decimal := shortest mantissa exponent
  let digits := (toString decimal.digits).toList
  layOut (trimZeros digits) (digits.length + decimal.power)

/-- A number as a text. -/
def render : Double → String
  | nan => "nan"
  | infinite negative => if negative then "-inf" else "inf"
  | finite negative mantissa exponent =>
    let size := if mantissa = 0 then ['0', '.', '0'] else renderPositive mantissa exponent
    String.ofList (if negative then '-' :: size else size)

end GrammarLens.Double
