import Resumable.Machine.Call

/-!
Effects. Installing a handler puts a label on the stack and runs the handled body in a boundary
frame above it. Raising an effect looks for the innermost handler with a clause for it, cuts the
thread at the boundary of that handler, and calls the clause with the payload and the part cut off.
Resuming puts that part back on top of whatever runs then, as often as one likes.
-/

namespace Resumable

namespace Exec

/-- Installs a handler and runs a function without parameters under it. -/
def install (clauses : List (Effect × Value)) (body : Value) : Exec Unit := do
  let refuse : Exec Unit :=
    fail (.typeError
      ("handled body must be a zero-argument function, got " ++ body.typeName))
  match body with
  | .closure _ code env =>
    if code.arity = 0 then
      let label ← drawLabel
      modifyThread fun t =>
        { t with
          stack := t.stack.push (.label label)
          handlers := t.handlers.push
            { clauses, depth := t.frames.size, height := t.stack.size, label } }
      pushFrame body code env [] true
    else refuse
  | _ => refuse

/-- Removes the handler whose boundary frame has just returned, with its label. -/
def uninstall : Exec Unit :=
  modifyThread fun t =>
    match t.handlers.back? with
    | some h =>
      if h.depth = t.frames.size then
        { t with handlers := t.handlers.pop, stack := t.stack.shrink h.height }
      else t
    | none => t

end Exec

/-- The innermost of the first `n` handlers that has a clause for an effect, with that clause. Only
handlers of the call in progress count: their boundary frames are not below `base`. -/
def findHandler (handlers : Array (Installed Value)) (base : Nat) (effect : Effect) :
    (n : Nat) → Option (Nat × Installed Value × Value)
  | 0 => none
  | n + 1 =>
    match handlers[n]? with
    | none => findHandler handlers base effect n
    | some h =>
      if h.depth < base then findHandler handlers base effect n
      else
        match Clauses.find? h.clauses effect with
        | some clause => some (n, h, clause)
        | none => findHandler handlers base effect n

namespace Continuation

/-- Whether the positions in a part of a thread that starts at the given depth and height are all in
that part. -/
def fits (k : Continuation Value) (depth height : Nat) : Bool :=
  k.frames.all (fun f => decide (height ≤ f.base)) &&
    k.handlers.all (fun h => decide (depth ≤ h.depth) && decide (height ≤ h.height))

/-- The part with its positions relative to its start. -/
def relative (k : Continuation Value) (depth height : Nat) : Continuation Value :=
  { k with
    frames := k.frames.map fun f => { f with base := f.base - height }
    handlers := k.handlers.map fun h =>
      { h with depth := h.depth - depth, height := h.height - height } }

/-- The part with its positions in a thread where it starts at the given depth and height, and its
outermost handler under a new label. -/
def placed (k : Continuation Value) (depth height label : Nat) : Continuation Value :=
  { k with
    frames := k.frames.map fun f => { f with base := f.base + height }
    handlers := (k.handlers.map fun h =>
      { h with depth := h.depth + depth, height := h.height + height }).modify 0 fun h =>
        { h with label } }

end Continuation

namespace Thread

/-- The part of a thread from handler `index` on: its boundary frame and the frames above, the values
above its label, and the handlers from there. -/
def partAbove (t : Thread) (index : Nat) (h : Installed Value) : Continuation Value :=
  { frames := t.frames.extract h.depth t.frames.size
    stack := t.stack.extract (h.height + 1) t.stack.size
    handlers := t.handlers.extract index t.handlers.size }

/-- The thread without that part and without the label. -/
def cutAt (t : Thread) (index : Nat) (h : Installed Value) : Thread :=
  { t with
    frames := t.frames.shrink h.depth
    stack := t.stack.shrink h.height
    handlers := t.handlers.shrink index }

/-- The thread with a part put on top of it under a new label. -/
def extend (t : Thread) (k : Continuation Value) (label : Nat) : Thread :=
  let part := k.placed t.frames.size t.stack.size label
  { t with
    frames := t.frames ++ part.frames
    stack := t.stack.push (.label label) ++ part.stack
    handlers := t.handlers ++ part.handlers }

end Thread

namespace Exec

/-- Cuts the thread at a handler and gives the part cut off. -/
def capture (index : Nat) (h : Installed Value) : Exec (Continuation Value) := do
  let t ← thread
  let part := t.partAbove index h
  if h.depth ≤ t.frames.size ∧ h.height < t.stack.size ∧ part.fits h.depth h.height then
    modifyThread fun t => t.cutAt index h
    return part.relative h.depth h.height
  else throw .corrupt

/-- Puts a suspended computation on top and gives it the value that it waits for. -/
def resume (k : Continuation Value) (v : Value) : Exec Unit := do
  let limit := (← get).thread.limits.maxDepth
  if limit < (← get).thread.frames.size + k.frames.size then
    tooDeep limit
  else
    let label ← drawLabel
    modifyThread fun t => t.extend k label
    push v

/-- Drops the frame on top before a resumption in tail position. A boundary frame stays, since its
handler must be removed later, and so does the first frame of a call. -/
def dropFinished (tail : Bool) : Exec Unit := do
  let base ← baseDepth
  match (← get).thread.frames.back? with
  | some frame =>
    if tail && !frame.boundary && decide (base + 1 < (← get).thread.frames.size) then
      modifyThread fun t =>
        { t with frames := t.frames.pop, stack := t.stack.shrink frame.base }
  | none => return ()

/-- Does what a function has asked for. -/
def grant (line : Nat) : Reply → Exec Unit
  | .value v => push v
  | .call .pass callee args => beginCall callee args line .pass
  | .call .catch callee args => do
    beginCall callee args line (.catch (← get).thread.frames.size)
  | .spawn callee => beginTask callee
  | .depth => do push (.int (Int64.ofNat (← get).thread.frames.size))

/-- Does what a call comes to, given how effects are raised. The call was made at `line`; `tail`
tells whether it stands in tail position. -/
def transferWith (raise : Effect → Value → Exec Unit) (line : Nat) (tail : Bool) :
    Transfer → Exec Unit
  | .returned v => push v
  | .requested reply => grant line reply
  | .enter closure code env args =>
    if tail then replaceFrame closure code env args
    else pushFrame closure code env args false
  | .raise effect payload => raise effect payload
  | .resume k v => do
    dropFinished tail
    resume k v

/-- Raises an effect, given that at most `bound` handlers are in force. A clause of one parameter
takes the payload alone. A clause may itself be an effect, which is then raised outside. -/
def raiseWithin (line : Nat) : (bound : Nat) → Effect → Value → Exec Unit
  | 0, effect, _ => fail (.unhandledEffect effect.name)
  | bound + 1, effect, payload => do
    let base ← baseDepth
    let handlers := (← get).thread.handlers
    match findHandler handlers base effect handlers.size with
    | none => fail (.unhandledEffect effect.name)
    | some (index, h, clause) =>
      let k ← capture index h
      let k := Value.continuation (← draw) k
      let args := if clause.arity? = some 1 then [payload] else [payload, k]
      transferWith (raiseWithin line bound) line false (← apply clause args)

/-- Raises an effect. -/
def raise (line : Nat) (effect : Effect) (payload : Value) : Exec Unit := do
  raiseWithin line (← get).thread.handlers.size effect payload

/-- Calls a value. -/
def call (callee : Value) (args : List Value) (line : Nat) (tail : Bool) : Exec Unit := do
  transferWith (raise line) line tail (← apply callee args)

end Exec

end Resumable
