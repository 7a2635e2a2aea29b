/-!
Double precision numbers as exact dyadic fractions, and the remainder of a division computed on
them without rounding.
-/

namespace Resumable.Number

/-- The number `significand * 2 ^ exponent` with a sign; zero has both signs. -/
structure Dyadic where
  negative : Bool
  significand : Nat
  exponent : Int

/-- The power of two with a natural exponent. -/
def twoPow (n : Nat) : Nat :=
  Nat.pow 2 n

/-- The exact value of a finite double; infinities and not-a-number have none. -/
def Dyadic.ofFloat? (x : Float) : Option Dyadic :=
  let bits : Nat := x.toBits.toNat
  let negative := decide (twoPow 63 ≤ bits)
  let biased : Nat := bits / twoPow 52 % twoPow 11
  let fraction : Nat := bits % twoPow 52
  if biased = 2047 then none
  else if biased = 0 then some ⟨negative, fraction, -1074⟩
  else some ⟨negative, fraction + twoPow 52, (biased : Int) - 1075⟩

/-- The integer that the significand stands for at a lower exponent. -/
def Dyadic.scaledTo (d : Dyadic) (exponent : Int) : Nat :=
  d.significand * twoPow (d.exponent - exponent).toNat

/-- The integer with this magnitude if the number is whole. -/
def Dyadic.whole? (d : Dyadic) : Option Nat :=
  if 0 ≤ d.exponent then some (d.scaledTo 0)
  else
    let unit := twoPow (-d.exponent).toNat
    if d.significand % unit = 0 then some (d.significand / unit) else none

/-- The double with this value, for a number that needs no rounding. The leading bit of a normal
number is not stored; numbers below the normal ones count in units of `2 ^ -1074`. -/
def Dyadic.toFloat (d : Dyadic) : Float :=
  let sign := if d.negative then twoPow 63 else 0
  let lead : Int := (Nat.log2 d.significand : Int) + d.exponent
  let magnitude :=
    if d.significand = 0 then 0
    else if lead < -1022 then d.significand * twoPow (d.exponent + 1074).toNat
    else
      let length := Nat.log2 d.significand
      let aligned :=
        if length ≤ 52 then d.significand * twoPow (52 - length)
        else d.significand / twoPow (length - 52)
      (lead + 1022).toNat * twoPow 52 + aligned
  Float.ofBits (UInt64.ofNat (sign + magnitude))

/-- The greatest integer that is not above the number. -/
def Dyadic.floor (d : Dyadic) : Int :=
  let signed : Int := if d.negative then -(d.significand : Int) else d.significand
  if 0 ≤ d.exponent then signed * twoPow d.exponent.toNat
  else signed.fdiv (twoPow (-d.exponent).toNat)

/-- The least integer that is not below the number. -/
def Dyadic.ceil (d : Dyadic) : Int :=
  -({ d with negative := !d.negative } : Dyadic).floor

/-- The least integer of 64 bits. -/
def minInt : Int := -0x8000000000000000

/-- The greatest integer of 64 bits. -/
def maxInt : Int := 0x7fffffffffffffff

/-- The integer of 64 bits that is nearest to an integer. -/
def clamp (n : Int) : Int64 :=
  Int64.ofInt (max minInt (min maxInt n))

/-- The integer of 64 bits that `round` gives for a double. Infinities go to the ends of the range
and not-a-number to zero. -/
def toInt (round : Dyadic → Int) (x : Float) : Int64 :=
  match Dyadic.ofFloat? x with
  | some d => clamp (round d)
  | none => if x.isNaN then 0 else if x < 0 then clamp minInt else clamp maxInt

/-- The double nearest to an integer of 64 bits. -/
def ofInt (n : Int64) : Float :=
  if n < 0 then -(-n).toUInt64.toFloat else n.toUInt64.toFloat

/-- The remainder of a division that rounds the quotient toward zero. It has the sign of the
dividend. There is none for an infinite dividend or a zero divisor, and an infinite divisor leaves
the dividend as it is. -/
def remainder (x y : Float) : Float :=
  match Dyadic.ofFloat? x, Dyadic.ofFloat? y with
  | some a, some b =>
    if b.significand = 0 then 0.0 / 0.0
    else
      let exponent := min a.exponent b.exponent
      ({ negative := a.negative
         significand := a.scaledTo exponent % b.scaledTo exponent
         exponent } : Dyadic).toFloat
  | some _, none => if y.isNaN then y else x
  | none, _ => 0.0 / 0.0

end Resumable.Number
