import Resumable.RuntimeError
import Resumable.Value.Render

/-!
What all executions of one family share: global variables, the store of cells, the supply of fresh
numbers, the results of tasks, the printed output and the clock.
-/

namespace Resumable

/-- Global variables by the numbers of their symbols. -/
structure Globals where
  slots : Array (Option Value) := #[]

namespace Globals

/-- The value of a global variable. -/
def get? (g : Globals) (name : Symbol) : Option Value :=
  g.slots[name.id]?.join

/-- Gives a value to a global variable. -/
def set (g : Globals) (name : Symbol) (value : Value) : Globals :=
  if name.id < g.slots.size then ⟨g.slots.setIfInBounds name.id (some value)⟩
  else ⟨(g.slots ++ Array.replicate (name.id - g.slots.size) none).push (some value)⟩

end Globals

/-- The tasks of a family. Their numbers count from one; a result is kept until it is taken. -/
structure Tasks where
  count : Nat := 0
  results : List (Int × Except RuntimeError Value) := []

namespace Tasks

/-- The number of a new task. -/
def draw (t : Tasks) : Int × Tasks :=
  (t.count + 1, { t with count := t.count + 1 })

/-- Keeps the result of a task. -/
def store (t : Tasks) (id : Int) (result : Except RuntimeError Value) : Tasks :=
  { t with results := (id, result) :: t.results }

/-- Takes the result of a task, which is then gone. -/
def take? (t : Tasks) (id : Int) : Option (Except RuntimeError Value) × Tasks :=
  match t.results.lookup id with
  | some result => (some result, { t with results := t.results.filter fun r => r.1 != id })
  | none => (none, t)

/-- The number of results that nobody has taken yet. -/
def pending (t : Tasks) : Nat :=
  t.results.length

end Tasks

/-- The state shared by the executions of a family. The clock counts milliseconds and moves when a
program sleeps. -/
structure World where
  globals : Globals := {}
  cells : Array Value := #[]
  supply : Supply := {}
  tasks : Tasks := {}
  output : String := ""
  clock : Nat := 0

namespace World

/-- A fresh identity. -/
def draw (w : World) : Nat × World :=
  let (id, supply) := w.supply.draw
  (id, { w with supply })

/-- A new cell. -/
def newCell (w : World) (value : Value) : Value × World :=
  (.cell w.cells.size, { w with cells := w.cells.push value })

/-- The text of a value. -/
def render (w : World) (v : Value) : String :=
  v.renderOver w.cells

end World

end Resumable
