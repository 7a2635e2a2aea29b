import Resumable.RuntimeError
import Resumable.Value

/-!
Arithmetic, order and the other functions on numbers. Integers have 64 bits and wrap around; an
integer that meets a floating point number becomes one.
-/

namespace Resumable

/-- The complaint about an argument of the wrong type. -/
def RuntimeError.expects (function what : String) (v : Value) : RuntimeError :=
  .typeError (function ++ " expects " ++ what ++ ", got " ++ v.typeName)

namespace Value

/-- The integer that a function needs. -/
def expectInt (function : String) : Value → Except RuntimeError Int64
  | int n => .ok n
  | v => .error (.expects function "int" v)

/-- The text that a function needs. -/
def expectStr (function : String) : Value → Except RuntimeError String
  | str s => .ok s
  | v => .error (.expects function "string" v)

/-- The number that a function needs, as a floating point number. -/
def expectNumber (function : String) : Value → Except RuntimeError Float
  | int n => .ok (Number.ofInt n)
  | float x => .ok x
  | v => .error (.expects function "number" v)

/-- The items that a function needs. -/
def expectItems (function : String) (v : Value) : Except RuntimeError (List Value) :=
  match v.items? with
  | some items => .ok items
  | Option.none => .error (.expects function "list" v)

end Value

namespace Arithmetic

/-- The sign of an operation. -/
def sign : Arithmetic → String
  | add => "+"
  | sub => "-"
  | mul => "*"
  | div => "/"
  | rem => "%"

/-- The name of an operation on integers. -/
def name : Arithmetic → String
  | add => "add"
  | sub => "sub"
  | mul => "mul"
  | div => "div"
  | rem => "mod"

/-- The operation on integers. Division rounds toward zero. -/
def ints (a b : Int64) : Arithmetic → Except RuntimeError Int64
  | add => .ok (a + b)
  | sub => .ok (a - b)
  | mul => .ok (a * b)
  | div => if b = 0 then .error .divisionByZero else .ok (a / b)
  | rem => if b = 0 then .error .divisionByZero else .ok (a % b)

/-- The operation on floating point numbers. -/
def floats (a b : Float) : Arithmetic → Float
  | add => a + b
  | sub => a - b
  | mul => a * b
  | div => a / b
  | rem => Number.remainder a b

/-- The operation on numbers of either kind. -/
def numbers (op : Arithmetic) : Value → Value → Except RuntimeError Value
  | .int a, .int b => (op.ints a b).map .int
  | .int a, .float b => .ok (.float (op.floats (Number.ofInt a) b))
  | .float a, .int b => .ok (.float (op.floats a (Number.ofInt b)))
  | .float a, .float b => .ok (.float (op.floats a b))
  | a, b =>
    .error (.typeError ("unsupported operand types for " ++ op.sign ++ ": " ++ a.typeName ++
      " and " ++ b.typeName))

/-- The operation as programs write it; a sum also joins texts and lists. -/
def values (op : Arithmetic) (a b : Value) : Except RuntimeError Value :=
  match op, a, b with
  | add, .str a, .str b => .ok (.str (a ++ b))
  | add, .list a, .list b => .ok (.list (a ++ b))
  | op, a, b => op.numbers a b

/-- The operation that takes integers only. -/
def onInts (op : Arithmetic) (a b : Value) : Except RuntimeError Value := do
  let a ← a.expectInt op.name
  let b ← b.expectInt op.name
  return .int (← op.ints a b)

end Arithmetic

/-- The order of two floating point numbers, if they have one. -/
def compareFloats (a b : Float) : Option Ordering :=
  if a < b then some .lt
  else if b < a then some .gt
  else if a == b then some .eq
  else none

/-- The order of two values. Only numbers and texts have one. -/
def Value.compare (a b : Value) : Except RuntimeError Ordering :=
  let ordered : Option Ordering → Except RuntimeError Ordering
    | some o => .ok o
    | Option.none => .error (.typeError "cannot compare NaN")
  match a, b with
  | .int a, .int b => .ok (if a < b then .lt else if b < a then .gt else .eq)
  | .int a, .float b => ordered (compareFloats (Number.ofInt a) b)
  | .float a, .int b => ordered (compareFloats a (Number.ofInt b))
  | .float a, .float b => ordered (compareFloats a b)
  | .str a, .str b => .ok (if a < b then .lt else if b < a then .gt else .eq)
  | a, b => .error (.typeError ("cannot compare " ++ a.typeName ++ " with " ++ b.typeName))

/-- Whether an order passes a test. -/
def Comparison.holds : Comparison → Ordering → Bool
  | less, o => o == .lt
  | atMost, o => o != .gt
  | greater, o => o == .gt
  | atLeast, o => o != .lt

namespace Library

/-- The negative of a number. -/
def negate : Value → Except RuntimeError Value
  | .int n => .ok (.int (-n))
  | .float x => .ok (.float (-x))
  | v => .error (.typeError ("cannot negate " ++ v.typeName))

/-- The square root. -/
def sqrt (v : Value) : Except RuntimeError Value := do
  return .float (← v.expectNumber "sqrt").sqrt

/-- The absolute value; the least integer is its own. -/
def absolute : Value → Except RuntimeError Value
  | .int n => .ok (.int (if n < 0 then -n else n))
  | v => do return .float (← v.expectNumber "abs").abs

/-- A number rounded to an integer in the given way. -/
def rounded (function : String) (round : Number.Dyadic → Int) :
    Value → Except RuntimeError Value
  | .int n => .ok (.int n)
  | v => do return .int (Number.toInt round (← v.expectNumber function))

/-- The power `acc * base ^ exponent`, for an exponent of at most `bits` binary digits. -/
def powerFrom (acc base : Int64) : (bits exponent : Nat) → Int64
  | 0, _ => acc
  | bits + 1, exponent =>
    powerFrom (if exponent % 2 = 1 then acc * base else acc) (base * base) bits (exponent / 2)

/-- The greatest exponent for which the power of an integer is taken as an integer. -/
def maxExponent : Nat := 0xffffffff

/-- The power of two numbers. It is an integer if the base is one and the exponent is a natural
number of at most 32 bits. -/
def pow (a b : Value) : Except RuntimeError Value := do
  let floats : Except RuntimeError Value := do
    let base ← a.expectNumber "pow"
    let exponent ← b.expectNumber "pow"
    return .float (base.pow exponent)
  match a, b with
  | .int base, .int exponent =>
    let e := exponent.toInt
    if 0 ≤ e ∧ e ≤ maxExponent then return .int (powerFrom 1 base 32 e.toNat)
    else floats
  | _, _ => floats

/-- The first of two numbers if `keep` holds of their floating point values, otherwise the second. -/
def pick (function : String) (keep : Float → Float → Bool) (a b : Value) :
    Except RuntimeError Value := do
  let x ← a.expectNumber function
  let y ← b.expectNumber function
  return if keep x y then a else b

end Library

end Resumable
