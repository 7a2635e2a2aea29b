import Resumable.Bytecode.Listing
import Resumable.Engine
import Resumable.Failure

/-!
Running a source text from start to end: an engine is made, the prelude is run on it, the text is
compiled, and the code is run.
-/

namespace Resumable

/-- Choices for a run. -/
structure RunOptions where
  compile : CompileOptions := {}
  limits : Limits := {}
  prelude : Bool := true

/-- Why a run yields no value: the program fails, the machine is in a state that it cannot go on
from, or the run does not end in the time it is given. -/
inductive Halt where
  | failure (f : Failure)
  | crashed
  | unending

/-- Actions with an engine. What the engine has done before it halts stays done. -/
abbrev Session := EStateM Halt Engine

/-- Why a source text yields no code, as a reason to halt. -/
def SourceFailure.halt : SourceFailure → Halt
  | malformed errors => .failure (.malformed errors)
  | refused errors => .failure (.refused errors)
  | unending => .unending

namespace Session

/-- The value that work of the machine ends with. -/
def settle (work : Engine → Option (Outcome × Engine)) : Session Value := fun e =>
  match work e with
  | some (.returned v, e) => .ok v e
  | some (.failed error, e) => .error (.failure (.failed error)) e
  | some (.crashed, e) => .error .crashed e
  | none => .error .unending e

/-- Calls a value. -/
def call (fuel : Nat) (callee : Value) (args : List Value) : Session Value :=
  settle fun e => e.call fuel callee args

/-- Runs code. -/
def interpret (fuel : Nat) (code : Code Value) : Session Value :=
  settle fun e => e.interpret fuel code

/-- Compiles a source text. -/
def compile (o : CompileOptions) (source : String) : Session (Code Value) := fun e =>
  match e.compileSource o source with
  | (.ok code, e) => .ok code e
  | (.error failure, e) => .error failure.halt e

/-- Runs the prelude. -/
def loadPrelude (fuel : Nat) : Session Unit := do
  let code ← compile {} Library.prelude
  let _ ← interpret fuel code

/-- Gets the engine ready for programs. -/
def start (fuel : Nat) (o : RunOptions) : Session Unit :=
  if o.prelude then loadPrelude fuel else return ()

/-- Compiles a source text on an engine that is made ready first. -/
def prepare (fuel : Nat) (o : RunOptions) (source : String) : Session (Code Value) := do
  start fuel o
  compile o.compile source

/-- Adds to the output. -/
def write (text : String) : Session Unit :=
  modify fun e => { e with world := { e.world with output := e.world.output ++ text } }

/-- Writes the listing of code, and an empty line after it. -/
def writeListing (name : String) (code : Code Value) : Session Unit := do
  let cells := (← get).world.cells
  write (code.listing cells name ++ "\n")

/-- Runs a source text; with `listing`, its code is listed first. -/
def run (fuel : Nat) (o : RunOptions) (listing : Bool) (source : String) : Session Value := do
  let code ← prepare fuel o source
  if listing then writeListing "main" code
  interpret fuel code

end Session

/-- The engine that a run starts with. -/
def RunOptions.engine (o : RunOptions) (clock : Nat) : Engine :=
  Engine.create o.limits clock

end Resumable
