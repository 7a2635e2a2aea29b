import Mathlib.Tactic.Common
import Resumable.Machine.Run

/-!
A thread as a list of activations. An activation is a frame together with the handler that it bounds,
if any, and its operands. The positions that a thread records, bases of frames and places of
handlers, follow from the order of the activations, so a thread that shows a list of activations has
consistent positions by construction. Suspended computations show activations in the same way.
-/

namespace Resumable

/-- An activation of a function. A boundary has the clauses and the label of its handler. -/
structure Activation where
  code : Code Value
  env : List (Symbol × Value)
  locals : Array Value
  ip : Nat := 0
  handler : Option (List (Effect × Value) × Nat) := none
  operands : List Value := []

namespace Activation

/-- The label that stands below the operands of a boundary. -/
def mark (a : Activation) : List Value :=
  match a.handler with
  | some (_, label) => [.label label]
  | none => []

/-- The part of the stack that belongs to an activation. -/
def segment (a : Activation) : List Value :=
  a.mark ++ a.operands

/-- The frame of an activation whose segment starts at a height. -/
def frame (a : Activation) (height : Nat) : Frame Value :=
  { code := a.code
    env := a.env
    locals := a.locals
    ip := a.ip
    base := height + a.mark.length
    boundary := a.handler.isSome }

/-- The record of the handler of an activation at a depth and a height. -/
def installed (a : Activation) (depth height : Nat) : List (Installed Value) :=
  match a.handler with
  | some (clauses, label) => [{ clauses, depth, height, label }]
  | none => []

theorem mark_eq {a : Activation} {clauses : List (Effect × Value)} {label : Nat}
    (hhandler : a.handler = some (clauses, label)) : a.mark = [.label label] := by
  simp [mark, hhandler]

theorem installed_eq {a : Activation} {clauses : List (Effect × Value)} {label : Nat}
    (hhandler : a.handler = some (clauses, label)) (depth height : Nat) :
    a.installed depth height = [{ clauses, depth, height, label }] := by
  simp [installed, hhandler]

/-- An activation with further operands. -/
def pushAll (a : Activation) (vs : List Value) : Activation :=
  { a with operands := a.operands ++ vs }

@[simp]
theorem segment_pushAll (a : Activation) (vs : List Value) :
    (a.pushAll vs).segment = a.segment ++ vs := by
  simp [segment, pushAll, mark]

@[simp]
theorem frame_pushAll (a : Activation) (vs : List Value) (height : Nat) :
    (a.pushAll vs).frame height = a.frame height :=
  rfl

@[simp]
theorem installed_pushAll (a : Activation) (vs : List Value) (depth height : Nat) :
    (a.pushAll vs).installed depth height = a.installed depth height :=
  rfl

@[simp]
theorem pushAll_nil (a : Activation) : a.pushAll [] = a := by
  simp [pushAll]

end Activation

/-- The stack of a thread with the given activations, the lowest first. -/
def stackOf (acts : List Activation) : List Value :=
  acts.flatMap Activation.segment

/-- The height of their stack. -/
def heightOf (acts : List Activation) : Nat :=
  (stackOf acts).length

/-- The frames of activations that start at a height. -/
def framesFrom (height : Nat) : List Activation → List (Frame Value)
  | [] => []
  | a :: acts => a.frame height :: framesFrom (height + a.segment.length) acts

/-- The handlers of activations that start at a depth and a height. -/
def handlersFrom (depth height : Nat) : List Activation → List (Installed Value)
  | [] => []
  | a :: acts =>
    a.installed depth height ++ handlersFrom (depth + 1) (height + a.segment.length) acts

@[simp]
theorem stackOf_nil : stackOf [] = [] :=
  rfl

@[simp]
theorem stackOf_cons (a : Activation) (acts : List Activation) :
    stackOf (a :: acts) = a.segment ++ stackOf acts :=
  rfl

@[simp]
theorem stackOf_append (acts acts' : List Activation) :
    stackOf (acts ++ acts') = stackOf acts ++ stackOf acts' := by
  simp [stackOf]

@[simp]
theorem heightOf_nil : heightOf [] = 0 :=
  rfl

@[simp]
theorem heightOf_cons (a : Activation) (acts : List Activation) :
    heightOf (a :: acts) = a.segment.length + heightOf acts := by
  simp [heightOf]

@[simp]
theorem heightOf_append (acts acts' : List Activation) :
    heightOf (acts ++ acts') = heightOf acts + heightOf acts' := by
  simp [heightOf]

@[simp]
theorem length_stackOf (acts : List Activation) : (stackOf acts).length = heightOf acts :=
  rfl

@[simp]
theorem take_stackOf (acts : List Activation) (rest : List Value) :
    (stackOf acts ++ rest).take (heightOf acts) = stackOf acts :=
  List.take_left

/-- What is left of the stack when the operands of the last activation go. -/
theorem take_base (acts : List Activation) (a : Activation) (extra : List Value) :
    (stackOf (acts ++ [a]) ++ extra).take (heightOf acts + a.mark.length) =
      stackOf acts ++ a.mark := by
  have hsplit : stackOf (acts ++ [a]) ++ extra = (stackOf acts ++ a.mark) ++ (a.operands ++ extra) := by
    simp [Activation.segment]
  have hlength : heightOf acts + a.mark.length = (stackOf acts ++ a.mark).length := by simp
  rw [hsplit, hlength, List.take_left]

@[simp]
theorem framesFrom_nil (height : Nat) : framesFrom height [] = [] :=
  rfl

@[simp]
theorem framesFrom_cons (height : Nat) (a : Activation) (acts : List Activation) :
    framesFrom height (a :: acts) =
      a.frame height :: framesFrom (height + a.segment.length) acts :=
  rfl

@[simp]
theorem framesFrom_append (height : Nat) (acts acts' : List Activation) :
    framesFrom height (acts ++ acts') =
      framesFrom height acts ++ framesFrom (height + heightOf acts) acts' := by
  induction acts generalizing height with
  | nil => rfl
  | cons a acts ih => simp [ih, Nat.add_assoc]

@[simp]
theorem length_framesFrom (height : Nat) (acts : List Activation) :
    (framesFrom height acts).length = acts.length := by
  induction acts generalizing height with
  | nil => rfl
  | cons a acts ih => simp [ih]

@[simp]
theorem handlersFrom_nil (depth height : Nat) : handlersFrom depth height [] = [] :=
  rfl

@[simp]
theorem handlersFrom_cons (depth height : Nat) (a : Activation) (acts : List Activation) :
    handlersFrom depth height (a :: acts) =
      a.installed depth height ++ handlersFrom (depth + 1) (height + a.segment.length) acts :=
  rfl

@[simp]
theorem handlersFrom_append (depth height : Nat) (acts acts' : List Activation) :
    handlersFrom depth height (acts ++ acts') =
      handlersFrom depth height acts ++
        handlersFrom (depth + acts.length) (height + heightOf acts) acts' := by
  induction acts generalizing depth height with
  | nil => rfl
  | cons a acts ih => simp [ih, Nat.add_assoc, Nat.add_comm 1]

/-- Frames further up the stack. -/
theorem framesFrom_add (height by' : Nat) (acts : List Activation) :
    framesFrom (height + by') acts =
      (framesFrom height acts).map fun f => { f with base := f.base + by' } := by
  induction acts generalizing height with
  | nil => rfl
  | cons a acts ih =>
    rw [framesFrom_cons, framesFrom_cons, List.map_cons, ← ih]
    congr 1
    · simp only [Activation.frame, Frame.mk.injEq, true_and, and_true]
      omega
    · congr 1
      omega

/-- Handlers further up. -/
theorem handlersFrom_add (depth height deeper higher : Nat) (acts : List Activation) :
    handlersFrom (depth + deeper) (height + higher) acts =
      (handlersFrom depth height acts).map fun h =>
        { h with depth := h.depth + deeper, height := h.height + higher } := by
  induction acts generalizing depth height with
  | nil => rfl
  | cons a acts ih =>
    rw [handlersFrom_cons, handlersFrom_cons, List.map_append, ← ih]
    congr 1
    · unfold Activation.installed
      split <;> rfl
    · congr 1
      · omega
      · omega

/-- The frames, values and handlers that a list of activations stands for, from its first label on. -/
def Continuation.ofActs (acts : List Activation) : Continuation Value :=
  { frames := (framesFrom 0 acts).toArray
    stack := (stackOf acts).tail.toArray
    handlers := (handlersFrom 0 0 acts).toArray }

/-- The thread with the given activations, and further values on top of the stack. -/
def Thread.showing (t : Thread) (acts : List Activation) (extra : List Value) : Thread :=
  { t with
    frames := (framesFrom 0 acts).toArray
    stack := (stackOf acts ++ extra).toArray
    handlers := (handlersFrom 0 0 acts).toArray }

/-- The machine whose running thread has the given activations. -/
def Machine.showing (m : Machine) (acts : List Activation) (extra : List Value) : Machine :=
  { m with thread := m.thread.showing acts extra }

namespace Thread

variable (t : Thread) (acts acts' : List Activation) (extra extra' : List Value)

@[simp]
theorem showing_frames : (t.showing acts extra).frames = (framesFrom 0 acts).toArray :=
  rfl

@[simp]
theorem showing_stack : (t.showing acts extra).stack = (stackOf acts ++ extra).toArray :=
  rfl

@[simp]
theorem showing_handlers : (t.showing acts extra).handlers = (handlersFrom 0 0 acts).toArray :=
  rfl

@[simp]
theorem showing_limits : (t.showing acts extra).limits = t.limits :=
  rfl

@[simp]
theorem showing_levels : (t.showing acts extra).levels = t.levels :=
  rfl

@[simp]
theorem showing_lastLabel : (t.showing acts extra).lastLabel = t.lastLabel :=
  rfl

@[simp]
theorem showing_showing : (t.showing acts' extra').showing acts extra = t.showing acts extra :=
  rfl

end Thread

namespace Machine

variable (m : Machine) (acts acts' : List Activation) (extra extra' : List Value)

@[simp]
theorem showing_thread : (m.showing acts extra).thread = m.thread.showing acts extra :=
  rfl

@[simp]
theorem showing_world : (m.showing acts extra).world = m.world :=
  rfl

@[simp]
theorem showing_waiting : (m.showing acts extra).waiting = m.waiting :=
  rfl

@[simp]
theorem showing_showing : (m.showing acts' extra').showing acts extra = m.showing acts extra :=
  rfl

/-- The values on top belong to the last activation. -/
theorem showing_pushAll (a : Activation) :
    m.showing (acts ++ [a.pushAll extra]) extra' = m.showing (acts ++ [a]) (extra ++ extra') := by
  simp [showing, Thread.showing]

variable {m acts} {a : Activation} {ops vs : List Value}

/-- The last operands of the last activation are on top. -/
theorem showing_operands (hoperands : a.operands = ops ++ vs) :
    m.showing (acts ++ [a]) [] = m.showing (acts ++ [{ a with operands := ops }]) vs := by
  have hsplit : a = { a with operands := ops }.pushAll vs := by
    simp [Activation.pushAll, ← hoperands]
  rw [← List.append_nil vs, ← showing_pushAll, ← hsplit]

/-- They still are when an instruction has been fetched. -/
theorem showing_fetched (ip : Nat) (hoperands : a.operands = ops ++ vs) :
    m.showing (acts ++ [{ a with ip }]) [] = m.showing (acts ++ [{ a with ip, operands := ops }]) vs :=
  showing_operands hoperands

end Machine

end Resumable
