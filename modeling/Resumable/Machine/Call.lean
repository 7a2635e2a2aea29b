import Resumable.Machine

/-!
Calls. What a call does depends on the function and the number of arguments: too few make a partial
application, too many are an error.
-/

namespace Resumable

/-- The frame for a call of a function. Its arguments take the first slots, and the function itself
the next if it has a name for itself; the other slots start as `none`. -/
def Frame.enter (closure : Value) (code : Code Value) (env : List (Symbol × Value))
    (args : List Value) (base : Nat) (boundary : Bool) : Frame Value :=
  let slots := max code.localCount args.length
  let locals := args.toArray ++ Array.replicate (slots - args.length) Value.none
  let locals := match code.selfName with
    | some _ => locals.setIfInBounds code.params.length closure
    | none => locals
  { code, env, locals, base, boundary }

/-- What a call comes to before the machine acts on it. -/
inductive Transfer where
  | returned (v : Value)
  | requested (reply : Reply)
  | enter (closure : Value) (code : Code Value) (env : List (Symbol × Value))
      (args : List Value)
  | raise (effect : Effect) (payload : Value)
  | resume (k : Continuation Value) (v : Value)

namespace Exec

/-- A function with some of its arguments. -/
def applied (callee : Value) (args : List Value) : Exec Transfer := do
  return .returned (.applied (← draw) callee args)

/-- Decides between a partial application, a full one and too many arguments. -/
def withArity (callee : Value) (name : String) (arity : Nat) (args : List Value)
    (full : Exec Transfer) : Exec Transfer :=
  if args.length < arity then applied callee args
  else if arity < args.length then fail (.arityMismatch name arity args.length)
  else full

/-- Applies a value to arguments. -/
def apply (callee : Value) (args : List Value) : Exec Transfer :=
  let (callee, args) := callee.unapply args
  match callee with
  | .closure _ code env =>
    let name := (code.name.map Symbol.name).getD "<lambda>"
    withArity callee name code.arity args (return .enter callee code env args)
  | .native _ name arity function =>
    withArity callee name arity args do
      match ← act (function.invoke name args) with
      | .value v => return .returned v
      | reply => return .requested reply
  | .effect e =>
    match args with
    | [payload] => return .raise e payload
    | _ => withArity callee e.name 1 args (return .raise e .none)
  | .continuation _ k =>
    match args with
    | [v] => return .resume k v
    | _ => withArity callee "continuation" 1 args (return .resume k .none)
  | _ => fail (.notCallable (callee.typeName ++ " is not callable"))

/-- The complaint that frames are nested too deep. -/
def tooDeep {α : Type} (limit : Nat) : Exec α :=
  fail (.stackOverflow ("maximum recursion depth " ++ toString limit ++ " exceeded"))

/-- Puts a frame for a function on top, within the limits. -/
def pushFrame (closure : Value) (code : Code Value) (env : List (Symbol × Value))
    (args : List Value) (boundary : Bool) : Exec Unit := do
  let limits := (← get).thread.limits
  if limits.maxDepth ≤ (← get).thread.frames.size then
    tooDeep limits.maxDepth
  else if limits.maxStack ≤ (← get).thread.stack.size then
    fail (.stackOverflow ("value stack limit " ++ toString limits.maxStack ++ " exceeded"))
  else
    modifyThread fun t =>
      { t with frames := t.frames.push (.enter closure code env args t.stack.size boundary) }

/-- Replaces the frame on top by one for a function in the same place. -/
def replaceFrame (closure : Value) (code : Code Value) (env : List (Symbol × Value))
    (args : List Value) : Exec Unit := do
  match (← get).thread.frames.back? with
  | none => malformed "tail call without a frame"
  | some frame =>
    let next := Frame.enter closure code env args frame.base frame.boundary
    modifyThread fun t =>
      { t with frames := t.frames.pop.push next, stack := t.stack.shrink frame.base }

/-- The captured bindings of a function that is made in a frame. -/
def capturedBindings (frame : Frame Value) (env : List (Symbol × Value)) :
    List Capture → Exec (List (Symbol × Value))
  | [] => return env
  | c :: captures => do
    let value := match c.source with
      | .slot n => frame.locals[n]?
      | .enclosing => Env.get? frame.env c.name
    match value with
    | some v => capturedBindings frame (Env.define env c.name v) captures
    | none => malformed ("capture '" ++ c.name.name ++ "' has no source")

/-- Makes a function in the frame on top. -/
def makeClosure (code : Code Value) : Exec Value := do
  match (← get).thread.frames.back? with
  | none => malformed "lambda without a frame"
  | some frame =>
    let env ← capturedBindings frame [] code.captures
    return .closure (← draw) code env

end Exec

end Resumable
