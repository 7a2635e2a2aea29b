import Resumable.Number.Dyadic

/-!
The shortest decimal digits that identify a double. Every real number between the two midpoints to
the neighbouring doubles rounds to the double itself; the ends count when the significand is even.
Of the decimals in that interval the one with the fewest digits is taken, and of two with equally
many the nearer, the upper one in a tie.
-/

namespace Resumable.Number

/-- Significant digits `d₁ d₂ …` and the place of the point: the number is `0.d₁d₂… * 10 ^ point`. -/
structure Digits where
  digits : List Char
  point : Int

/-- A positive number given by three fractions over one denominator: the number itself and the ends
of the interval that rounds to it. -/
structure Interval where
  low : Nat
  value : Nat
  high : Nat
  denominator : Nat
  closed : Bool

/-- The rounding interval of a positive dyadic number. Below a power of two the neighbouring double
is half as far away as above it, the least exponent apart. -/
def Interval.ofDyadic (d : Dyadic) : Interval :=
  let narrow := d.significand == twoPow 52 && decide (-1074 < d.exponent)
  let up := twoPow d.exponent.toNat
  let down := twoPow (-d.exponent).toNat
  { low := (4 * d.significand - (if narrow then 1 else 2)) * up
    value := 4 * d.significand * up
    high := (4 * d.significand + 2) * up
    denominator := 4 * down
    closed := d.significand % 2 == 0 }

/-- The power of ten with a natural exponent. -/
def tenPow (n : Nat) : Nat :=
  Nat.pow 10 n

/-- Number of decimal digits of a natural number. -/
def decimalLength (n : Nat) : Nat :=
  (Nat.toDigits 10 n).length

/-- The place of the decimal point: the least `p` with `value < 10 ^ p`. Numbers below one are
first multiplied by a power of ten beyond the reach of any double. -/
def Interval.point (i : Interval) : Int :=
  if i.denominator ≤ i.value then decimalLength (i.value / i.denominator)
  else (decimalLength (i.value * tenPow 400 / i.denominator) : Int) - 400

/-- The interval measured in units of `10 ^ place`. -/
def Interval.inUnitsOf (i : Interval) (place : Int) : Interval :=
  let grow := tenPow (-place).toNat
  { i with
    low := i.low * grow
    value := i.value * grow
    high := i.high * grow
    denominator := i.denominator * tenPow place.toNat }

/-- The integer in the interval that is nearest to the value, the upper one in a tie. -/
def Interval.nearest? (i : Interval) : Option Nat :=
  let below := i.value / i.denominator
  let above := below + 1
  let fits := fun n : Nat =>
    if i.closed then decide (i.low ≤ n * i.denominator) && decide (n * i.denominator ≤ i.high)
    else decide (i.low < n * i.denominator) && decide (n * i.denominator < i.high)
  let upper := decide (i.denominator ≤ 2 * (i.value % i.denominator))
  if fits below && !(fits above && upper) then some below
  else if fits above then some above
  else none

/-- Tries `count`, `count + 1`, … significant digits, at most `tries` times. -/
def Interval.shortestFrom (i : Interval) (point : Int) : (tries count : Nat) → Digits
  | 0, _ => ⟨['0'], 0⟩
  | tries + 1, count =>
    match (i.inUnitsOf (point - count)).nearest? with
    | some n =>
      let digits := Nat.toDigits 10 n
      ⟨digits, point + ((digits.length : Int) - count)⟩
    | none => i.shortestFrom point tries (count + 1)

/-- The digits without the zeros at their end. -/
def Digits.stripZeros (d : Digits) : Digits :=
  { d with digits := (d.digits.reverse.dropWhile (· == '0')).reverse }

/-- The shortest digits of a positive dyadic number; seventeen are always enough. -/
def shortest (d : Dyadic) : Digits :=
  let i := Interval.ofDyadic d
  (i.shortestFrom i.point 17 1).stripZeros

/-- The digits in positional notation, without a fractional part if there is none. -/
def Digits.positional (d : Digits) : List Char :=
  let count : Int := d.digits.length
  if d.point ≤ 0 then
    '0' :: '.' :: (List.replicate (-d.point).toNat '0' ++ d.digits)
  else if count ≤ d.point then
    d.digits ++ List.replicate (d.point - count).toNat '0'
  else
    d.digits.take d.point.toNat ++ '.' :: d.digits.drop d.point.toNat

/-- The shortest positional text of a double. A whole number has no fractional part, and there is
never an exponent. -/
def floatText (x : Float) : String :=
  match Dyadic.ofFloat? x with
  | none => if x.isNaN then "NaN" else if x < 0 then "-inf" else "inf"
  | some d =>
    let magnitude := if d.significand = 0 then ['0'] else (shortest d).positional
    String.ofList (if d.negative then '-' :: magnitude else magnitude)

/-- The text of a double as the value of a program: whole numbers are written out in full with one
zero after the point, all others by their shortest text. -/
def floatLiteral (x : Float) : String :=
  match Dyadic.ofFloat? x with
  | none => floatText x
  | some d =>
    match d.whole? with
    | none => floatText x
    | some n => (if d.negative then "-" else "") ++ toString n ++ ".0"

end Resumable.Number
