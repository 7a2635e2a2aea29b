import Resumable.Library.Data
import Resumable.World

/-!
The functions that every machine provides. Most compute a value at once; a few ask the machine to do
something first.
-/

namespace Resumable

/-- What a machine does with the outcome of a call that a function has asked for: pass it on, or hand
failures back as values. -/
inductive CallMode where
  | pass
  | catch

/-- What a function comes to: a value, or a request to the machine to call a value, to run it as a
task, or to tell the number of frames. -/
inductive Reply where
  | value (v : Value)
  | call (mode : CallMode) (callee : Value) (args : List Value)
  | spawn (callee : Value)
  | depth

/-- Functions act on the shared state and may fail. -/
abbrev Act := EStateM RuntimeError World

namespace Act

/-- A function whose value depends on its arguments alone. -/
def ofExcept (result : Except RuntimeError Value) : Act Reply :=
  match result with
  | .ok v => return .value v
  | .error e => throw e

/-- The text of a value. -/
def text (v : Value) : Act String := do
  return (← get).render v

/-- A new cell. -/
def makeCell (v : Value) : Act Reply :=
  modifyGet fun w =>
    let (cell, w) := w.newCell v
    (.value cell, w)

/-- The content of a cell. -/
def contentOf : Value → Act Reply
  | .cell id => do return .value ((← get).cells[id]?.getD .none)
  | v => throw (.expects "cell_get" "cell" v)

/-- Changes the content of a cell. -/
def setContent (cell content : Value) : Act Reply :=
  match cell with
  | .cell id => do
    modify fun w => { w with cells := w.cells.setIfInBounds id content }
    return .value .none
  | v => throw (.expects "cell_set" "cell" v)

/-- A new effect. -/
def makeEffect (v : Value) : Act Reply := do
  match v.expectStr "new_effect" with
  | .error e => throw e
  | .ok name =>
    modifyGet fun w =>
      let (id, w) := w.draw
      (.value (.effect ⟨id, name⟩), w)

/-- Prints a value on a line of its own. -/
def printLine (v : Value) : Act Reply := do
  let line := (← text v) ++ "\n"
  modify fun w => { w with output := w.output ++ line }
  return .value .none

/-- Asks for a task that calls a value without arguments. -/
def spawnTask (callee : Value) : Act Reply :=
  match callee.arity? with
  | some _ => return .spawn callee
  | none => throw (.notCallable ("spawn expects a function, got " ++ callee.typeName))

/-- The result of a task, which can be had once. -/
def joinTask (v : Value) : Act Reply := do
  match v.expectInt "join" with
  | .error e => throw e
  | .ok id =>
    let result ← modifyGet fun w =>
      let (result, tasks) := w.tasks.take? id.toInt
      (result, { w with tasks })
    match result with
    | some (.ok v) => return .value v
    | some (.error e) => throw e
    | none => throw (.taskFailed ("unknown task " ++ toString id))

/-- Lets time pass. -/
def sleepFor (v : Value) : Act Reply := do
  match v.expectInt "sleep" with
  | .error e => throw e
  | .ok ms =>
    if ms < 0 then throw (.typeError "sleep expects ms >= 0")
    else
      modify fun w => { w with clock := w.clock + ms.toInt.toNat }
      return .value .none

/-- What a function of an embedding comes to. -/
def ofHook (name : String) : Hook → List Value → Act Reply
  | .collect, args => return .value (.tuple args)
  | .callBack, callee :: args => return .call .pass callee args
  | .attempt, callee :: args => return .call .catch callee args
  | .depth, _ => return .depth
  | .fail, v :: _ => do throw (.other (← text v))
  | .fail, [] => throw (.other "")
  | .failLocated, _ => throw (.located 77 (.other "located"))
  | _, args => throw (.arityMismatch name 1 args.length)

end Act

namespace Native

/-- What a function comes to for as many arguments as it takes. -/
def invoke (name : String) : Native → List Value → Act Reply
  | intArithmetic op, [a, b] => Act.ofExcept (op.onInts a b)
  | arithmetic op, [a, b] => Act.ofExcept (op.values a b)
  | equal, [a, b] => return .value (.bool (a.equals b))
  | different, [a, b] => return .value (.bool (!a.equals b))
  | compare test, [a, b] => Act.ofExcept ((a.compare b).map fun o => .bool (test.holds o))
  | negate, [v] => Act.ofExcept (Library.negate v)
  | invert, [v] => return .value (.bool (!v.isTruthy))
  | length, [v] => Act.ofExcept (Library.length v)
  | get, [v, index] => Act.ofExcept (Library.get v index)
  | push, [v, item] => Act.ofExcept (Library.push v item)
  | head, [v] => Act.ofExcept (Library.head v)
  | tail, [v] => Act.ofExcept (Library.tail v)
  | range, [a, b] => Act.ofExcept (Library.range a b)
  | fieldOf, [v, key] => Act.ofExcept (Library.fieldOf v key)
  | render, [v] => do return .value (.str (← Act.text v))
  | typeOf, [v] => return .value (.str v.typeName)
  | newCell, [v] => Act.makeCell v
  | readCell, [v] => Act.contentOf v
  | writeCell, [cell, content] => Act.setContent cell content
  | newEffect, [v] => Act.makeEffect v
  | panicWith, [v] => do throw (.panicked (← Act.text v))
  | print, [v] => Act.printLine v
  | spawn, [v] => Act.spawnTask v
  | join, [v] => Act.joinTask v
  | sqrt, [v] => Act.ofExcept (Library.sqrt v)
  | absolute, [v] => Act.ofExcept (Library.absolute v)
  | floor, [v] => Act.ofExcept (Library.rounded "floor" Number.Dyadic.floor v)
  | ceil, [v] => Act.ofExcept (Library.rounded "ceil" Number.Dyadic.ceil v)
  | pow, [a, b] => Act.ofExcept (Library.pow a b)
  | smaller, [a, b] => Act.ofExcept (Library.pick "min" (fun x y => decide (x ≤ y)) a b)
  | larger, [a, b] => Act.ofExcept (Library.pick "max" (fun x y => decide (y ≤ x)) a b)
  | concat, [a, b] => do return .value (.str ((← Act.text a) ++ (← Act.text b)))
  | upper, [v] => Act.ofExcept (Library.mapText "upper" Text.upper v)
  | lower, [v] => Act.ofExcept (Library.mapText "lower" Text.lower v)
  | trim, [v] => Act.ofExcept (Library.mapText "trim" Text.trim v)
  | split, [v, separator] => Act.ofExcept (Library.split v separator)
  | contains, [v, key] => Act.ofExcept (Library.contains v key)
  | now, [] => do return .value (.int (Int64.ofNat (← MonadState.get).clock))
  | sleep, [v] => Act.sleepFor v
  | hook h, args => Act.ofHook name h args
  | _, args => throw (.arityMismatch name 0 args.length)

end Native

end Resumable
