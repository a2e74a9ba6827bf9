/-! # Numbers of 64 bits

A `Double` is one of the numbers that are told apart in 64 bits: a whole number below `2 ^ 53` times
a power of two, an infinity, or the number that is none.  A decimal stands for the nearest of them;
halfway between two it stands for the one whose whole number is even, and from halfway past the
greatest one on it stands for an infinity.  All of this is done on natural numbers, so nothing is
lost on the way. -/

namespace GrammarLens

/-- A number of 64 bits.  A finite one is `mantissa * 2 ^ exponent`, with a sign that zero has too. -/
inductive Double where
  | nan
  | infinite (negative : Bool)
  | finite (negative : Bool) (mantissa : Nat) (exponent : Int)
deriving DecidableEq, Repr, Inhabited

namespace Double

/-- A power of two. -/
def twoTo (n : Nat) : Nat := Nat.pow 2 n

/-- A power of ten. -/
def tenTo (n : Nat) : Nat := Nat.pow 10 n

/-- One more than the greatest mantissa. -/
def mantissaBound : Nat := twoTo 53

/-- The least exponent. -/
def leastExponent : Int := -1074

/-- The greatest exponent. -/
def greatestExponent : Int := 971

/-! ### Quotients -/

/-- A quotient of natural numbers, rounded to the nearest one and to the even one of two that are
as near. -/
def roundedQuotient (a b : Nat) : Nat :=
  let low := a / b
  let twice := 2 * (a % b)
  if twice < b then low else if b < twice then low + 1 else low + low % 2

/-- The quotient `a / b` divided by a power of two, as a numerator and a denominator. -/
def scaled (a b : Nat) (exponent : Int) : Nat × Nat :=
  (a * twoTo (-exponent).toNat, b * twoTo exponent.toNat)

/-- The exponent that gives the quotient `a / b` a mantissa below the bound, with as many digits as
there can be. -/
def exponentFor (a b : Nat) : Int :=
  let guess := max ((a.log2 : Int) - (b.log2 : Int) - 53) leastExponent
  let (above, below) := scaled a b guess
  if above / below < mantissaBound then guess else guess + 1

/-- The number nearest to the quotient `a / b`. -/
def ofQuotient (negative : Bool) (a b : Nat) : Double :=
  if a = 0 then finite negative 0 leastExponent
  else
    let exponent := exponentFor a b
    let (above, below) := scaled a b exponent
    let rounded := roundedQuotient above below
    let (mantissa, exponent) :=
      if rounded < mantissaBound then (rounded, exponent) else (rounded / 2, exponent + 1)
    if greatestExponent < exponent then infinite negative else finite negative mantissa exponent

/-- The number nearest to the decimal `digits * 10 ^ power`, where `digits` is written with `width`
digits.  A power so far from zero that no width can make up for it need not be raised. -/
def ofDecimal (negative : Bool) (digits width : Nat) (power : Int) : Double :=
  if digits = 0 then finite negative 0 leastExponent
  else if 310 < power then infinite negative
  else if power + width < -330 then finite negative 0 leastExponent
  else ofQuotient negative (digits * tenTo power.toNat) (tenTo (-power).toNat)

/-! ### Order -/

/-- Whether a number counts as true: all but zero. -/
def isTrue : Double → Bool
  | finite _ mantissa _ => mantissa != 0
  | _ => true

/-- A finite number as a quotient by a power of two: the numerator and that power. -/
def quotient (negative : Bool) (mantissa : Nat) (exponent : Int) : Int × Nat :=
  let size : Int := mantissa * twoTo exponent.toNat
  (if negative then -size else size, (-exponent).toNat)

end Double

/-- A number: a whole one, or one of 64 bits. -/
inductive Number where
  | whole (n : Int)
  | double (x : Double)
deriving DecidableEq, Repr

namespace Number

/-- A number as a quotient by a power of two, unless it is not finite. -/
def quotient? : Number → Option (Int × Nat)
  | whole n => some (n, 0)
  | double (.finite negative mantissa exponent) => some (Double.quotient negative mantissa exponent)
  | double _ => none

/-- Whether a number is at most as great as another.  What is no number has no place in the
order. -/
def le : Number → Number → Bool
  | double .nan, _ => false
  | _, double .nan => false
  | double (.infinite true), _ => true
  | _, double (.infinite false) => true
  | double (.infinite false), _ => false
  | _, double (.infinite true) => false
  | a, b =>
    match a.quotient?, b.quotient? with
    | some (n, i), some (m, j) => decide (n * Double.twoTo j ≤ m * Double.twoTo i)
    | _, _ => false

/-- Whether a number is less than another. -/
def lt (a b : Number) : Bool := a.le b && !b.le a

/-- Whether two numbers are of the same size.  What is no number is taken for the same as
itself. -/
def same : Number → Number → Bool
  | double .nan, double .nan => true
  | a, b => a.le b && b.le a

end Number

end GrammarLens
