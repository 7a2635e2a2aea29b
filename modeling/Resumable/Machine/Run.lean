import Resumable.Machine.Step

/-!
Running a machine. One move either executes an instruction or takes a call one phase further. A
failure ends calls from the inside out until one catches it.
-/

namespace Resumable

/-- How the work of a machine ends. -/
inductive Outcome where
  | returned (v : Value)
  | failed (e : RuntimeError)
  | crashed

/-- What one move leads to. -/
inductive Progress where
  | more (m : Machine)
  | ended (outcome : Outcome) (m : Machine)

namespace Thread

/-- The thread with a value on its stack. -/
def push (t : Thread) (v : Value) : Thread :=
  { t with stack := t.stack.push v }

/-- The thread with the innermost call in another phase. -/
def setPhase (t : Thread) (phase : Phase) : Thread :=
  match t.levels with
  | level :: levels => { t with levels := { level with phase } :: levels }
  | [] => t

/-- The thread as it was at the start of a call, as far as it still has what was there. -/
def leave (t : Thread) (level : Level) : Thread :=
  { t with
    frames := t.frames.shrink level.depth
    stack := t.stack.shrink level.height
    handlers := t.handlers.shrink level.handlers }

end Thread

namespace Machine

/-- Ends the running thread. If it ran a task, the result is kept and the thread that started it goes
on with the number of the task. -/
def finish (m : Machine) (result : Except RuntimeError Value) : Progress :=
  match m.waiting with
  | [] =>
    match result with
    | .ok v => .ended (.returned v) m
    | .error e => .ended (.failed e) m
  | (id, parent) :: waiting =>
    .more
      { world := { m.world with tasks := m.world.tasks.store id result }
        thread := parent.push (.int (Int64.ofInt id))
        waiting }

/-- Ends the innermost call with a value. -/
def answer (m : Machine) (v : Value) : Progress :=
  match m.thread.levels with
  | [] => m.finish (.ok v)
  | level :: levels =>
    let thread := { m.thread with levels }
    match level.purpose with
    | .finish => { m with thread }.finish (.ok v)
    | .pass => .more { m with thread := thread.push v }
    | .catch _ => .more { m with thread := thread.push (.tuple [.str "ok", v]) }

/-- Ends the calls in `levels` with a failure, the innermost first, until one catches it. -/
def unwind (m : Machine) (e : RuntimeError) : (levels : List Level) → Progress
  | [] => { m with thread := { m.thread with levels := [] } }.finish (.error e)
  | level :: levels =>
    let thread := { m.thread.leave level with levels }
    match level.purpose with
    | .finish => { m with thread }.finish (.error e)
    | .pass => unwind { m with thread } (e.atLine level.line) levels
    | .catch depth =>
      let change : Int := (thread.frames.size : Int) - depth
      let report := Value.tuple [.str "err", .str e.message, .int (Int64.ofInt change)]
      .more { m with thread := thread.push report }

/-- Ends the running thread at once. A task that ends so has failed. -/
def crash (m : Machine) : Progress :=
  match m.waiting with
  | [] => .ended .crashed m
  | (id, _) :: _ => m.finish (.error (.taskFailed ("task " ++ toString id ++ " panicked")))

/-- Ends what has stopped. Failures of an instruction take its line. -/
def stop (m : Machine) (line : Nat) : Stop → Progress
  | .error e => m.unwind (e.atLine line) m.thread.levels
  | .corrupt => m.crash

/-- Makes the innermost call. -/
def openCall (m : Machine) (callee : Value) (args : List Value) : Progress :=
  match Exec.call callee args 0 false { m with thread := m.thread.setPhase .opening } with
  | .ok _ m => .more m
  | .error s m => m.stop 0 s

/-- Goes on with a call that has been made: if it has no frame, its value is on the stack. -/
def settleCall (m : Machine) (level : Level) : Progress :=
  if level.depth < m.thread.frames.size then
    .more { m with thread := m.thread.setPhase .running }
  else
    match Exec.pop m with
    | .ok v m => m.answer v
    | .error s m => m.stop 0 s

/-- Executes the next instruction. -/
def runInstruction (m : Machine) : Progress :=
  match Exec.fetch m with
  | .error s m => m.stop 0 s
  | .ok i m =>
    match Exec.execute i m with
    | .ok none m => .more m
    | .ok (some v) m => m.answer v
    | .error s m => m.stop i.line s

/-- One move of the machine. -/
def advance (m : Machine) : Progress :=
  match m.thread.levels with
  | [] => m.finish (.ok .none)
  | level :: _ =>
    match level.phase with
    | .made callee args => m.openCall callee args
    | .opening => m.settleCall level
    | .running => m.runInstruction

/-- At most `fuel` moves of the machine; none are left if it has not come to an end. -/
def run : (fuel : Nat) → Machine → Option (Outcome × Machine)
  | 0, _ => none
  | fuel + 1, m =>
    match m.advance with
    | .more m => run fuel m
    | .ended outcome m => some (outcome, m)

/-- The machine with a call of a value that ends the thread. -/
def begin (world : World) (thread : Thread) (callee : Value) (args : List Value) : Machine :=
  let level : Level :=
    { depth := thread.frames.size
      height := thread.stack.size
      handlers := thread.handlers.size
      phase := .made callee args
      line := 0
      purpose := .finish }
  { world, thread := { thread with levels := level :: thread.levels } }

end Machine

end Resumable
