import Resumable.Number.Shortest
import Resumable.Text.Quoted
import Resumable.Value

/-!
The text of values. Inside a container texts are quoted. Nesting beyond a fixed depth is cut off, and
so is a cell inside its own text; what is being written is kept as a state.
-/

namespace Resumable

/-- What is being written: how many containers and cells stand around the value at hand, and the
cells among them, the innermost first. -/
structure Rendering where
  depth : Nat
  cells : List Nat
deriving DecidableEq, Repr

namespace Rendering

/-- Nothing is being written. -/
def idle : Rendering :=
  ⟨0, []⟩

/-- One level further inside. -/
def deeper (r : Rendering) : Rendering :=
  { r with depth := r.depth + 1 }

/-- One level back. -/
def higher (r : Rendering) : Rendering :=
  { r with depth := r.depth - 1 }

/-- A cell whose text is begun. -/
def begin (r : Rendering) (cell : Nat) : Rendering :=
  { r with cells := cell :: r.cells }

/-- The text of the cell that was begun last is complete. -/
def finish (r : Rendering) : Rendering :=
  { r with cells := r.cells.tail }

end Rendering

namespace Value

/-- The number of containers inside each other that are written out. -/
def maxNesting : Nat := 128

/-- Items separated by commas. -/
def commas (texts : List String) : String :=
  ", ".intercalate texts

/-- The text of a value that shows no other value. -/
def flatText : Value → String
  | none => "none"
  | bool b => if b then "true" else "false"
  | int n => toString n
  | float x => Number.floatLiteral x
  | str s => s
  | symbol s => s.name
  | closure _ c _ =>
    match c.name with
    | some name => "<fn " ++ name.name ++ "/" ++ toString c.arity ++ ">"
    | Option.none => "<fn/" ++ toString c.arity ++ ">"
  | native _ name arity _ => "<native " ++ name ++ "/" ++ toString arity ++ ">"
  | continuation _ _ => "<continuation>"
  | effect e => "<effect " ++ e.name ++ ">"
  | handler _ clauses => "<handler " ++ toString clauses.length ++ ">"
  | code _ c =>
    match c.name with
    | some name => "<code " ++ name.name ++ ">"
    | Option.none => "<code>"
  | label n => "<label " ++ toString n ++ ">"
  | list _ | tuple _ | record _ | applied _ _ _ | cell _ => ""

/-- Writes a value by `display`, unless it is too deep. -/
def writeShallow (display : Value → StateM Rendering String) (v : Value) :
    StateM Rendering String := do
  if maxNesting < (← get).depth then return "..." else display v

/-- Writes a value inside a container: quoted if it is a text, otherwise one level deeper. -/
def writeNested (display : Value → StateM Rendering String) : Value → StateM Rendering String
  | str s => return Text.quote s
  | v => do
    modify Rendering.deeper
    let text ← writeShallow display v
    modify Rendering.higher
    return text

/-- Writes a cell with the given content, unless the cell is being written already. -/
def writeCell (nested : Value → StateM Rendering String) (id : Nat) (content : Value) :
    StateM Rendering String := do
  if (← get).cells.contains id then
    return "<cell ...>"
  else
    modify (·.begin id)
    let text ← nested content
    modify Rendering.finish
    return "<cell " ++ text ++ ">"

/-- Writes a value, the values directly inside it by `nested`. -/
def writeWith (cells : Array Value) (nested : Value → StateM Rendering String) :
    Value → StateM Rendering String
  | list items => return "[" ++ commas (← items.mapM nested) ++ "]"
  | tuple items => do
    let texts ← items.mapM nested
    return "(" ++ commas texts ++ (if items.length = 1 then ",)" else ")")
  | record fields => do
    let texts ← fields.mapM fun f => return f.1.name ++ ": " ++ (← nested f.2)
    return "\x7b" ++ commas texts ++ "\x7d"
  | applied _ callee bound =>
    return "<partial " ++ (← writeWith cells nested callee) ++ " +" ++ toString bound.length ++ ">"
  | cell id => writeCell nested id (cells[id]?.getD none)
  | v => return v.flatText

/-- Writes a value, with `room` for further levels of nesting. -/
def writeWithin (cells : Array Value) : (room : Nat) → Value → StateM Rendering String
  | 0 => writeWith cells (writeNested fun _ => return "...")
  | room + 1 => writeWith cells (writeNested (writeWithin cells room))

/-- Writes a value over a store of cells. Levels beyond the room given here are too deep anyway. -/
def write (cells : Array Value) : Value → StateM Rendering String :=
  writeWithin cells maxNesting

/-- The text of a value over a store of cells. -/
def renderOver (cells : Array Value) (v : Value) : String :=
  ((write cells v).run Rendering.idle).1

/-- The text of a value with its type. -/
def describe (cells : Array Value) : Value → String
  | str s => "String(" ++ Text.quote s ++ ")"
  | symbol s => s.describe
  | v => v.typeName ++ "(" ++ v.renderOver cells ++ ")"

end Value

end Resumable
