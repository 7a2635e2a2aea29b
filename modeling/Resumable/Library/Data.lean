import Resumable.Library.Numbers
import Resumable.Text.Blank
import Resumable.Text.Casing
import Resumable.Text.Search

/-!
Functions on texts, lists, tuples and records.
-/

namespace Resumable.Library

/-- The position that an index names in a sequence of the given length. -/
def checkIndex (index : Int64) (length : Nat) : Except RuntimeError Nat :=
  let i := index.toInt
  if 0 ≤ i ∧ i < length then .ok i.toNat else .error (.indexOutOfBounds i length)

/-- The number of characters, items or fields. -/
def length : Value → Except RuntimeError Value
  | .str s => .ok (.int (Int64.ofNat s.length))
  | .list items | .tuple items => .ok (.int (Int64.ofNat items.length))
  | .record fields => .ok (.int (Int64.ofNat fields.length))
  | v => .error (.expects "len" "a string, list, tuple or record" v)

/-- The item or character at an index. -/
def get (v index : Value) : Except RuntimeError Value := do
  let index ← index.expectInt "get"
  match v with
  | .list items | .tuple items =>
    let i ← checkIndex index items.length
    return items[i]?.getD .none
  | .str s =>
    let cs := s.toList
    let i ← checkIndex index cs.length
    return (cs[i]?.map fun c => Value.str c.toString).getD .none
  | v => throw (.typeError ("cannot index " ++ v.typeName))

/-- The list with one more item at its end. -/
def push (v item : Value) : Except RuntimeError Value := do
  return .list ((← v.expectItems "push") ++ [item])

/-- The first item. -/
def head (v : Value) : Except RuntimeError Value := do
  match ← v.expectItems "head" with
  | item :: _ => return item
  | [] => throw (.indexOutOfBounds 0 0)

/-- The items after the first. -/
def tail (v : Value) : Except RuntimeError Value := do
  match ← v.expectItems "tail" with
  | _ :: items => return .list items
  | [] => throw (.indexOutOfBounds 1 0)

/-- The integers from the first number up to the second, which is left out. -/
def range (a b : Value) : Except RuntimeError Value := do
  let start ← a.expectInt "range"
  let stop ← b.expectInt "range"
  let count := (stop.toInt - start.toInt).toNat
  return .list ((List.range count).map fun i => .int (start + Int64.ofNat i))

/-- The field with the given name. -/
def fieldOf (v name : Value) : Except RuntimeError Value := do
  let name ← name.expectStr "record_get"
  match v with
  | .record fields =>
    match fields.find? fun f => f.1.name == name with
    | some f => return f.2
    | none => throw (.typeError ("record has no field '" ++ name ++ "'"))
  | v => throw (.expects "record_get" "record" v)

/-- A text changed by a function. -/
def mapText (function : String) (f : String → String) (v : Value) :
    Except RuntimeError Value := do
  return .str (f (← v.expectStr function))

/-- The pieces of a text between the occurrences of a separator. -/
def split (v separator : Value) : Except RuntimeError Value := do
  let s ← v.expectStr "split"
  let separator ← separator.expectStr "split"
  if separator.isEmpty then throw (.typeError "split separator must not be empty")
  else return .list ((Text.split s separator).map .str)

/-- Whether one text occurs in another. -/
def contains (v key : Value) : Except RuntimeError Value := do
  let s ← v.expectStr "contains"
  let key ← key.expectStr "contains"
  return .bool (Text.contains s key)

end Resumable.Library
