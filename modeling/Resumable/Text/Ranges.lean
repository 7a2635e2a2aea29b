/-!
Sets of code points written as their boundaries. A set is a strictly increasing list of code
points; reading upwards from zero one is outside the set, and each boundary changes the side.
-/

namespace Resumable.Text

/-- The side on which `c` lies once all boundaries up to `c` have been passed, starting from
`inside`. -/
def sideOf (inside : Bool) : List Nat → Nat → Bool
  | [], _ => inside
  | b :: rest, c => if c < b then inside else sideOf (!inside) rest c

/-- Whether a code point belongs to the set with the given boundaries. -/
def within (bounds : List Nat) (c : Char) : Bool :=
  sideOf false bounds c.toNat

end Resumable.Text
