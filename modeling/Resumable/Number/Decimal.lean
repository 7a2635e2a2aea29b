import Resumable.Number.Dyadic

/-!
Reading numbers written in decimal.
-/

namespace Resumable.Number

/-- The number with the given decimal digits; other characters count as zero. -/
def ofDigits (cs : List Char) : Nat :=
  cs.foldl (fun n c => 10 * n + (c.toNat - 48)) 0

/-- An integer of 64 bits with the given decimal digits, if it is in range. -/
def intOfDigits? (cs : List Char) : Option Int64 :=
  let n := ofDigits cs
  if (n : Int) ≤ maxInt then some (Int64.ofNat n) else none

/-- The double nearest to the decimal with these digits before and after the point. -/
def floatOfDigits (whole fraction : List Char) : Float :=
  Float.ofScientific (ofDigits (whole ++ fraction)) true fraction.length

/-- Splits off an optional sign. -/
def splitSign : List Char → Bool × List Char
  | '-' :: cs => (true, cs)
  | '+' :: cs => (false, cs)
  | cs => (false, cs)

/-- A decimal integer of 64 bits with an optional sign. -/
def readInt? (s : String) : Option Int64 :=
  let (negative, digits) := splitSign s.toList
  if digits.isEmpty || !digits.all Char.isDigit then none
  else
    let n : Int := ofDigits digits
    let n := if negative then -n else n
    if minInt ≤ n ∧ n ≤ maxInt then some (Int64.ofInt n) else none

/-- The decimal exponent at the end of a number, zero if there is none. -/
def readExponent? : List Char → Option Int
  | [] => some 0
  | c :: cs =>
    if c == 'e' || c == 'E' then
      let (negative, digits) := splitSign cs
      if digits.isEmpty || !digits.all Char.isDigit then none
      else some (if negative then -(ofDigits digits : Int) else ofDigits digits)
    else none

/-- The double nearest to `n * 10 ^ e`. -/
def floatOfScaled (n : Nat) (e : Int) : Float :=
  if 0 ≤ e then Float.ofScientific n false e.toNat else Float.ofScientific n true (-e).toNat

/-- The magnitude of a decimal number: digits with an optional point and exponent, or a name of
infinity or not-a-number in any case. -/
def readMagnitude? (cs : List Char) : Option Float :=
  let name := String.ofList (cs.map Char.toLower)
  if name = "inf" ∨ name = "infinity" then some (1.0 / 0.0)
  else if name = "nan" then some (0.0 / 0.0)
  else
    let whole := cs.takeWhile Char.isDigit
    let rest := cs.dropWhile Char.isDigit
    let (fraction, rest) := match rest with
      | '.' :: cs => (cs.takeWhile Char.isDigit, cs.dropWhile Char.isDigit)
      | cs => ([], cs)
    if whole.isEmpty && fraction.isEmpty then none
    else (readExponent? rest).map fun e =>
      floatOfScaled (ofDigits (whole ++ fraction)) (e - fraction.length)

/-- A double written in decimal, with an optional sign. -/
def readFloat? (s : String) : Option Float :=
  let (negative, magnitude) := splitSign s.toList
  (readMagnitude? magnitude).map fun x => if negative then -x else x

end Resumable.Number
