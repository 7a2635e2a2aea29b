import Resumable.Bytecode.Code

/-!
Scopes of names during compilation. Functions nest, and each has its own local slots. A name is
looked up in the current function first, then in the functions around it; a name found there is
captured by every function on the way, from the slot in the function next to the owner and from the
captured names in those further in.
-/

namespace Resumable

/-- A local variable: its name, the depth of its scope and its slot. -/
structure Local where
  name : Symbol
  depth : Nat
  slot : Nat

/-- The scopes of one function. Locals are listed with the latest first; `peak` is the greatest
number of them that have been live together. -/
structure FunctionScope where
  locals : List Local := []
  depth : Nat := 0
  peak : Nat := 0
  captures : List Capture := []

namespace FunctionScope

/-- The number of live locals: slots are given out without gaps. -/
def liveCount (f : FunctionScope) : Nat :=
  match f.locals with
  | [] => 0
  | l :: _ => l.slot + 1

/-- The slot of the latest local of that name. -/
def slot? (f : FunctionScope) (name : Symbol) : Option Nat :=
  (f.locals.find? fun l => l.name == name).map Local.slot

/-- Captures a name, once. -/
def capture (f : FunctionScope) (name : Symbol) (source : CaptureSource) : FunctionScope :=
  if f.captures.any fun c => c.name == name then f
  else { f with captures := f.captures ++ [⟨name, source⟩] }

/-- Whether the innermost scope has a local of that name. -/
def declares (f : FunctionScope) (name : Symbol) : Bool :=
  (f.locals.takeWhile fun l => decide (f.depth ≤ l.depth)).any fun l => l.name == name

end FunctionScope

/-- What a name refers to. -/
inductive Variable where
  | slot (n : Nat)
  | captured
  | global

/-- The scopes of the function being compiled and of the functions around it, the nearest first. -/
structure Scopes where
  current : FunctionScope := {}
  outer : List FunctionScope := []

namespace Scopes

/-- The most locals that a function may have at a time. -/
def maxLocals : Nat := 65536

/-- The depth of the current scope within its function. -/
def depth (s : Scopes) : Nat :=
  s.current.depth

/-- Whether a declaration makes a global variable here. -/
def isGlobal (s : Scopes) : Bool :=
  s.outer.isEmpty && s.current.depth == 0

/-- The slots that the current function needs so far. -/
def peak (s : Scopes) : Nat :=
  s.current.peak

/-- Opens a scope. -/
def openScope (s : Scopes) : Scopes :=
  { s with current := { s.current with depth := s.current.depth + 1 } }

/-- Closes a scope and tells how many locals go with it. -/
def closeScope (s : Scopes) : Nat × Scopes :=
  let depth := s.current.depth - 1
  let gone := fun l : Local => decide (depth < l.depth)
  ((s.current.locals.takeWhile gone).length,
    { s with
      current := { s.current with depth, locals := s.current.locals.dropWhile gone } })

/-- Enters a function, whose parameters and body stand at depth one. -/
def openFunction (s : Scopes) : Scopes :=
  { current := { depth := 1 }, outer := s.current :: s.outer }

/-- Leaves a function with its number of slots and its captures. The outermost is never left. -/
def closeFunction (s : Scopes) : (Nat × List Capture) × Scopes :=
  match s.outer with
  | [] => ((s.current.peak, []), s)
  | f :: fs => ((s.current.peak, s.current.captures), { current := f, outer := fs })

/-- Declares a local in the current scope and gives its slot. -/
def declare (s : Scopes) (name : Symbol) : Except CompileProblem (Nat × Scopes) :=
  let f := s.current
  let slot := f.liveCount
  if maxLocals ≤ slot then .error .tooManyLocals
  else if f.declares name then .error (.variableExists name.name)
  else
    .ok (slot,
      { s with
        current :=
          { f with locals := ⟨name, f.depth, slot⟩ :: f.locals, peak := max f.peak (slot + 1) } })

/-- Looks a name up in the functions around `inner`, the nearest first, and captures it on the way
back in. -/
def captureFrom (name : Symbol) (inner : FunctionScope) :
    List FunctionScope → Option (FunctionScope × List FunctionScope)
  | [] => none
  | f :: fs =>
    match f.slot? name with
    | some slot => some (inner.capture name (.slot slot), f :: fs)
    | none =>
      match captureFrom name f fs with
      | some (f', fs') => some (inner.capture name .enclosing, f' :: fs')
      | none => none

/-- What a name refers to, with the captures that the reference needs. -/
def resolve (s : Scopes) (name : Symbol) : Variable × Scopes :=
  match s.current.slot? name with
  | some slot => (.slot slot, s)
  | none =>
    match captureFrom name s.current s.outer with
    | some (current, outer) => (.captured, { current, outer })
    | none => (.global, s)

end Scopes

end Resumable
