import Resumable.Library

/-!
The state of a machine. A thread of execution has frames, a stack of values and handlers in force. A
function of the machine may call back into it; such calls nest, and each level remembers how much of
the thread was there before. A task runs in a thread of its own while the thread that started it
waits.
-/

namespace Resumable

/-- Bounds on what a thread may use. -/
structure Limits where
  maxStack : Nat := 65536
  maxDepth : Nat := 10000

/-- What becomes of the outcome of a call: it ends the thread, it is the outcome of the function that
made the call, or that function turns it into a value; then the number of frames at the call is
kept. -/
inductive Purpose where
  | finish
  | pass
  | catch (depth : Nat)

/-- How far a call has come. A call that is `opening` has been made but may still turn out to need no
frame of its own. -/
inductive Phase where
  | made (callee : Value) (args : List Value)
  | opening
  | running

/-- A call into the machine: the numbers of frames, values and handlers that were there before, and
the line of the instruction that led to it, zero if there is none. -/
structure Level where
  depth : Nat
  height : Nat
  handlers : Nat
  phase : Phase
  line : Nat
  purpose : Purpose

/-- A thread of execution. Calls in progress are listed with the innermost first. -/
structure Thread where
  frames : Array (Frame Value) := #[]
  stack : Array Value := #[]
  handlers : Array (Installed Value) := #[]
  lastLabel : Nat := 0
  limits : Limits := {}
  levels : List Level := []

/-- A machine: the shared state, the thread that runs, and the threads that wait for the task that
they started, with the number of that task. -/
structure Machine where
  world : World
  thread : Thread
  waiting : List (Int × Thread) := []

/-- Why an instruction does not complete. Besides failures of the program there is the case that the
record of a handler does not fit the thread. -/
inductive Stop where
  | error (e : RuntimeError)
  | corrupt

/-- Actions on a machine. What an action has done before it stops stays done. -/
abbrev Exec := EStateM Stop Machine

namespace Exec

/-- Fails. -/
def fail {α : Type} (e : RuntimeError) : Exec α :=
  throw (.error e)

/-- Fails because of bytecode that the compiler never writes. -/
def malformed {α : Type} (detail : String) : Exec α :=
  fail (.invalidBytecode detail)

/-- The running thread. -/
def thread : Exec Thread := do
  return (← get).thread

/-- Changes the running thread. -/
@[inline]
def modifyThread (f : Thread → Thread) : Exec Unit :=
  modify fun m => { m with thread := f m.thread }

/-- Acts on the shared state. -/
def act {α : Type} (a : Act α) : Exec α := fun m =>
  match a m.world with
  | .ok x world => .ok x { m with world }
  | .error e world => .error (.error e) { m with world }

/-- A fresh identity. -/
def draw : Exec Nat :=
  modifyGet fun m =>
    let (id, world) := m.world.draw
    (id, { m with world })

/-- A fresh label for a handler. -/
def drawLabel : Exec Nat :=
  modifyGet fun m =>
    let label := m.thread.lastLabel + 1
    (label, { m with thread := { m.thread with lastLabel := label } })

/-- Puts a value on the stack. -/
def push (v : Value) : Exec Unit :=
  modifyThread fun t => { t with stack := t.stack.push v }

/-- Takes the value on top of the stack. -/
def pop : Exec Value := do
  match (← get).thread.stack.back? with
  | some v =>
    modifyThread fun t => { t with stack := t.stack.pop }
    return v
  | none => malformed "stack underflow"

/-- Takes the `n` values on top of the stack, the lowest first. -/
def popMany (n : Nat) : Exec (List Value) := do
  let size := (← get).thread.stack.size
  if size < n then
    malformed ("stack underflow: need " ++ toString n ++ " values, have " ++ toString size)
  else
    let values := ((← get).thread.stack.extract (size - n) size).toList
    modifyThread fun t => { t with stack := t.stack.shrink (size - n) }
    return values

/-- The frame on top. -/
def topFrame : Exec (Frame Value) := do
  match (← get).thread.frames.back? with
  | some frame => return frame
  | none => malformed "no active frame"

/-- Changes the frame on top. -/
def modifyFrame (f : Frame Value → Frame Value) : Exec Unit :=
  modifyThread fun t => { t with frames := t.frames.modify (t.frames.size - 1) f }

/-- The number of frames below the innermost call in progress. -/
def baseDepth : Exec Nat := do
  match (← get).thread.levels with
  | level :: _ => return level.depth
  | [] => return 0

/-- Starts a call; `line` is the line of the instruction that leads to it. -/
def beginCall (callee : Value) (args : List Value) (line : Nat) (purpose : Purpose) :
    Exec Unit :=
  modifyThread fun t =>
    let level : Level :=
      { depth := t.frames.size
        height := t.stack.size
        handlers := t.handlers.size
        phase := .made callee args
        line
        purpose }
    { t with levels := level :: t.levels }

/-- Starts a task and lets the running thread wait for it. -/
def beginTask (callee : Value) : Exec Unit :=
  modify fun m =>
    let (id, tasks) := m.world.tasks.draw
    let level : Level :=
      { depth := 0, height := 0, handlers := 0, phase := .made callee [], line := 0,
        purpose := .finish }
    { world := { m.world with tasks }
      thread := { limits := m.thread.limits, levels := [level] }
      waiting := (id, m.thread) :: m.waiting }

end Exec

end Resumable
