import Resumable.Proofs.Compile.Layout
import Resumable.Proofs.Machine.Instruction
import Resumable.Proofs.Meaning.State

/-!
The steps of an evaluation. Of these, four are about handlers. A `handle` expression evaluates the
path of each effect once, in the order in which the paths first appear, and then its body in an
activity of its own. An effect that is raised goes to the innermost handler with clauses for it, and
their guards are evaluated in the order they are written, each with its own payload name bound and no
other. The first guard that holds decides; if none does, the clause without a guard is chosen, wherever
it stands, and if there is none, the effect is raised again outside and its answer is passed on.

Declarations may stand anywhere in an expression, also where they are passed over. A name that has been
passed over is bound to some value, of which nothing is known; the steps take it from `fill`.
-/

namespace Resumable

/-- Whether there is room for another activation above the given number of activations and values. -/
def Limits.room (limits : Limits) (depth height : Nat) : Except RuntimeError Unit :=
  if limits.maxDepth ≤ depth then
    .error (.stackOverflow ("maximum recursion depth " ++ toString limits.maxDepth ++ " exceeded"))
  else if limits.maxStack ≤ height then
    .error (.stackOverflow ("value stack limit " ++ toString limits.maxStack ++ " exceeded"))
  else .ok ()

namespace Meaning

/-- What applying a value to arguments comes to. -/
inductive Application where
  | returned (v : Value)
  | spawn (task : Value)
  | enter (id : Nat) (callee : Value) (args : List Value)
  | raise (effect : Effect) (payload : Value)
  | resume (id : Nat) (v : Value)

namespace Application

/-- A value with some of its arguments. -/
def applied (callee : Value) (args : List Value) : Act Application :=
  modifyGet fun w => (.returned (.applied w.draw.1 callee args), w.draw.2)

/-- Too few arguments make a partial application, and too many are an error. -/
def withArity (callee : Value) (name : String) (arity : Nat) (args : List Value)
    (full : Act Application) : Act Application :=
  if args.length < arity then applied callee args
  else if arity < args.length then throw (.arityMismatch name arity args.length)
  else full

/-- What a function of the machine comes to. -/
def ofReply : Reply → Act Application
  | .value v => return .returned v
  | .spawn task => return .spawn task
  | _ => throw (.other "functions of an embedding have no meaning here")

/-- Applies a value that is no partial application. -/
def applyTo (callee : Value) (args : List Value) : Act Application :=
  match callee with
  | .closure id code _ =>
    withArity callee ((code.name.map Symbol.name).getD "<lambda>") code.arity args
      (return .enter id callee args)
  | .native _ name arity function =>
    withArity callee name arity args (function.invoke name args >>= ofReply)
  | .effect e => withArity callee e.name 1 args (return .raise e (args.headD .none))
  | .continuation id _ =>
    withArity callee "continuation" 1 args (return .resume id (args.headD .none))
  | _ => throw (.notCallable (callee.typeName ++ " is not callable"))

/-- Applies a value to arguments, behind those that it has been given before. -/
def apply (callee : Value) (args : List Value) : Act Application :=
  applyTo (callee.unapply args).1 (callee.unapply args).2

end Application

/-- The effects among values, if all of them are effects. -/
def effectsOf : List Value → Except RuntimeError (List Effect)
  | [] => .ok []
  | .effect e :: vs => (effectsOf vs).map (e :: ·)
  | v :: _ => .error (.typeError ("handler clause expects an effect, got " ++ v.typeName))

namespace Function

/-- The locals at the start of the body of a function: the function itself, and its parameters. -/
def locals (f : Function) (callee : Value) (args : List Value) : Env Value :=
  f.selfName.toList.map (fun n => (n, callee)) ++ (f.params.zip args).reverse

/-- The activity of a function that is called. -/
def activity (f : Function) (callee : Value) (args : List Value)
    (handler : Option (List (Effect × Choice))) : Activity :=
  { reading := f.reading, locals := f.locals callee args, captured := f.captured, handler }

end Function

namespace Activity

/-- The value of a name: that of the innermost visible local, else the captured one, else that of the
global variable. -/
def read (a : Activity) (globals : Globals) (name : Symbol) : Option Value :=
  (Env.get? a.visible name).or (globals.get? name)

/-- The value of the path of an effect. -/
def path (a : Activity) (globals : Globals) : Expr → Except RuntimeError Value
  | .name line name =>
    match a.read globals (a.reading.symbol name) with
    | some v => .ok v
    | none =>
      .error ((RuntimeError.undefinedVariable (a.reading.symbol name).name).atLine
        (a.reading.shown line))
  | .field line target name =>
    match a.path globals target with
    | .ok v =>
      match v.project (a.reading.symbol name) with
      | .ok v => .ok v
      | .error e => .error (e.atLine (a.reading.shown line))
    | .error e => .error e
  | _ => .error (.other "this is no path")

/-- The values of paths, from the first on. -/
def paths (a : Activity) (globals : Globals) : List Expr → Except RuntimeError (List Value)
  | [] => .ok []
  | e :: es =>
    match a.path globals e with
    | .ok v => (a.paths globals es).map (v :: ·)
    | .error e => .error e

/-- Declares names that have been passed over. -/
def pass (a : Activity) (fill : List Value) (names : List String) : Activity :=
  if a.isGlobal then a
  else
    let values := fill ++ List.replicate (names.length - fill.length) .none
    { a with locals := ((names.map a.reading.symbol).zip values).reverse ++ a.locals }

end Activity

namespace Choice

/-- Evaluates the body of a clause, with its names bound to the payload and the continuation. -/
def body (choice : Choice) (a : Activity) (c : Clause Expr) (payload k : Value) :
    Activity × Control :=
  let resume := c.resume.toList.map fun name => (choice.reading.symbol name, k)
  ({ a with
      locals := resume ++ [(choice.reading.symbol c.param, payload)]
      contexts := [] },
    .eval c.body)

/-- The activity in which a clause is chosen. -/
def activity (choice : Choice) : Activity :=
  { reading := choice.reading, captured := choice.captured }

end Choice

/-- Looks for a clause among those that remain. Clauses without a guard are passed over until all guards
have failed. -/
def Raised.select (r : Raised) (a : Activity) : List (Clause Expr) → Activity × Control
  | [] =>
    match r.choice.clauses.find? fun c => c.guard.isNone with
    | some c => r.choice.body a c r.payload r.k
    | none =>
      let line := r.choice.reading.shown r.choice.line
      ({ a with locals := [], contexts := [.answer line r.k] },
        .call line (.effect r.effect) [r.payload])
  | c :: rest =>
    match c.guard with
    | some guard =>
      ({ a with
          locals := [(r.choice.reading.symbol c.param, r.payload)]
          contexts := [.guard r c rest] },
        .eval guard)
    | none => r.select a rest

/-- Drops the innermost activity before a resumption if it has nothing left to do. That of a handled
body stays, since its handler ends with it, and so does the last one. -/
def dropFinished : List Activity → List Activity
  | [] => []
  | [a] => [a]
  | a :: acts => if a.inTail && a.handler.isNone then acts else a :: acts

/-- What one step leads to. -/
inductive Next where
  | more (σ : State)
  | ended (outcome : Outcome) (memory : Memory)

namespace State

/-- With another memory. -/
def withMemory (σ : State) (memory : Memory) : State :=
  { σ with memory }

/-- The next thing to do, in the given activities. -/
def goes (σ : State) (acts : List Activity) (control : Control) : Next :=
  .more { σ with acts, control }

/-- Ends the thread. If it ran a task, the result is kept and the thread that started it goes on. -/
def finish (σ : State) (result : Except RuntimeError Value) : Next :=
  match σ.waiting with
  | [] =>
    match result with
    | .ok v => .ended (.returned v) σ.memory
    | .error e => .ended (.failed e) σ.memory
  | (id, acts) :: waiting =>
    let world := { σ.memory.world with tasks := σ.memory.world.tasks.store id result }
    { σ with memory := σ.memory.withWorld world, waiting }.goes acts (.give (.int (Int64.ofInt id)))

/-- Hands a value to the innermost activity. If there is none, the value is that of the thread. -/
def hand (σ : State) (v : Value) : List Activity → Next
  | [] => σ.finish (.ok v)
  | a :: acts => σ.goes (a :: acts) (.give v)

/-- Fails at a line. -/
def fail (σ : State) (line : Nat) (e : RuntimeError) : Next :=
  σ.finish (.error (e.atLine line))

/-- Goes on in a new activity, if there is room for it. -/
def enter (σ : State) (line : Nat) (next : Activity × Control) : Next :=
  match σ.limits.room σ.acts.length (totalHeight σ.acts + next.1.handler.toList.length) with
  | .ok _ => σ.goes (next.1 :: σ.acts) next.2
  | .error e => σ.fail line e

/-- Calls a function. In tail position its activity takes the place of the one that calls it. -/
def enterFunction (σ : State) (line : Nat) (f : Function) (callee : Value) (args : List Value) :
    Next :=
  match σ.acts with
  | a :: acts =>
    if a.inTail then σ.goes (f.activity callee args a.handler :: acts) (.eval f.body)
    else σ.enter line (f.activity callee args none, .eval f.body)
  | [] => σ.enter line (f.activity callee args none, .eval f.body)

/-- Raises an effect. -/
def raise (σ : State) (line : Nat) (effect : Effect) (payload : Value) : Next :=
  match cut? effect σ.acts with
  | none => σ.fail line (.unhandledEffect effect.name)
  | some (part, (effect, choice), rest) =>
    let (k, memory) := σ.memory.suspend part
    { σ with memory, acts := rest }.enter line
      (Raised.select ⟨choice, effect, payload, k⟩ choice.activity choice.clauses)

/-- Goes on with a suspended computation. -/
def resume (σ : State) (line : Nat) (part : List Activity) (v : Value) : Next :=
  if σ.limits.maxDepth < (dropFinished σ.acts).length + part.length then
    σ.fail line
      (.stackOverflow ("maximum recursion depth " ++ toString σ.limits.maxDepth ++ " exceeded"))
  else σ.goes (part ++ dropFinished σ.acts) (.give v)

/-- Starts a task and lets the thread wait for it. -/
def spawn (σ : State) (task : Value) : Next :=
  let (id, tasks) := σ.memory.world.tasks.draw
  { σ with
    memory := σ.memory.withWorld { σ.memory.world with tasks }
    waiting := (id, σ.acts) :: σ.waiting }.goes [] (.call 0 task [])

/-- Does what a call comes to. -/
def transfer (σ : State) (line : Nat) : Application → Next
  | .returned v => σ.hand v σ.acts
  | .spawn task => σ.spawn task
  | .enter id callee args =>
    match σ.memory.functions.lookup id with
    | some f => σ.enterFunction line f callee args
    | none => σ.fail line (.other "this function has no meaning")
  | .raise effect payload => σ.raise line effect payload
  | .resume id v =>
    match σ.memory.continuations.lookup id with
    | some part => σ.resume line part v
    | none => σ.fail line (.other "this computation has no meaning")

/-- Calls a value. -/
def call (σ : State) (line : Nat) (callee : Value) (args : List Value) : Next :=
  match Application.apply callee args σ.memory.world with
  | .ok t world => (σ.withMemory (σ.memory.withWorld world)).transfer line t
  | .error e world => (σ.withMemory (σ.memory.withWorld world)).fail line e

section

variable (σ : State) (a : Activity) (acts : List Activity)

/-- Writes to the place where the value of a name is read. A name without a place becomes a global
variable. -/
def write (name : Symbol) (v : Value) : Next :=
  if binds a.locals name then
    σ.goes ({ a with locals := assign name v a.locals } :: acts) (.give .none)
  else if binds a.captured name then
    σ.goes ({ a with captured := assign name v a.captured } :: acts) (.give .none)
  else (σ.withMemory (σ.memory.setGlobal name v)).goes (a :: acts) (.give .none)

/-- Declares a variable. -/
def declare (name : Symbol) (v : Value) : Next :=
  if a.isGlobal then (σ.withMemory (σ.memory.setGlobal name v)).goes (a :: acts) (.give .none)
  else σ.goes (a.bindLocal name v :: acts) (.give .none)

/-- Does something with values that are all known. Of a call, the function comes last. -/
def conclude (values : List Value) : Work → Next
  | .call line =>
    σ.goes (a :: acts) (.call (a.reading.shown line) (values.getLastD .none) values.dropLast)
  | .list => σ.goes (a :: acts) (.give (.list values))
  | .tuple => σ.goes (a :: acts) (.give (.tuple values))
  | .field line name =>
    match (values.headD .none).project (a.reading.symbol name) with
    | .ok v => σ.goes (a :: acts) (.give v)
    | .error e => σ.fail (a.reading.shown line) e
  | .declare name => σ.declare a acts (a.reading.symbol name) (values.headD .none)
  | .assign name => σ.write a acts (a.reading.symbol name) (values.headD .none)

/-- Evaluates the expressions whose values are still unknown, and then does something with all
values. -/
def operate (work : Work) (done : List Value) : List Expr → Next
  | [] => σ.conclude a acts done work
  | e :: rest => σ.goes (a.wait (.operands work done rest) :: acts) (.eval e)

/-- Evaluates the fields whose values are still unknown, and then makes the record. -/
def build (done : List (Symbol × Value)) : List (String × Expr) → Next
  | [] =>
    σ.goes (a :: acts) (.give (.record (done.foldl (fun done f => Env.define done f.1 f.2) [])))
  | (name, e) :: rest => σ.goes (a.wait (.fields done (a.reading.symbol name) rest) :: acts) (.eval e)

/-- Evaluates statements; the value of the last one counts. -/
def statements : List Expr → Next
  | [] => σ.goes (a :: acts) (.give .none)
  | [e] => σ.goes (a :: acts) (.eval e)
  | e :: rest => σ.goes (a.wait (.statements rest) :: acts) (.eval e)

/-- Makes a function, which keeps a copy of all visible bindings. -/
def lambda (name : Option String) (params : List String) (body : Expr) : Next :=
  let name := name.map a.reading.symbol
  let params := params.map a.reading.symbol
  let (v, memory) := σ.memory.makeFunction name
    { reading := a.reading, selfName := selfNameOf name params, params, body, captured := a.visible }
  (σ.withMemory memory).goes (a :: acts) (.give v)

/-- What is done about the effects of a handler: for each path, the clauses for it. -/
def choices (line : Nat) (clauses : List (Clause Expr)) : List Choice :=
  (firstClauses clauses).map fun c =>
    { reading := a.reading, line, clauses := clausesFor c.path clauses, captured := a.visible }

/-- Evaluates a body under a handler with the given clauses. The paths of their effects are evaluated
once each, and before the body. The functions, the handler and the body have identities, which no
program sees. -/
def handle (line : Nat) (body : Expr) (clauses : List (Clause Expr)) : Next :=
  let heads := firstClauses clauses
  match a.paths σ.memory.world.globals (heads.map Clause.effect) with
  | .error e => σ.finish (.error e)
  | .ok vs =>
    match effectsOf vs with
    | .error e => (σ.withMemory (σ.memory.skip heads.length)).fail (a.reading.shown line) e
    | .ok effects =>
      { σ with memory := σ.memory.skip (heads.length + 2), acts := a :: acts }.enter
        (a.reading.shown line)
        ({ reading := a.reading
           captured := a.visible
           handler := some (effects.zip (choices a line clauses)) },
          .eval body)

/-- Evaluates an expression. -/
def eval : Expr → Next
  | .nothing _ => σ.goes (a :: acts) (.give .none)
  | .bool _ b => σ.goes (a :: acts) (.give (.bool b))
  | .int _ n => σ.goes (a :: acts) (.give (.int n))
  | .float _ x => σ.goes (a :: acts) (.give (.float x))
  | .str _ s => σ.goes (a :: acts) (.give (.str s))
  | .name line name =>
    match a.read σ.memory.world.globals (a.reading.symbol name) with
    | some v => σ.goes (a :: acts) (.give v)
    | none => σ.fail (a.reading.shown line) (.undefinedVariable (a.reading.symbol name).name)
  | .call line callee args => σ.operate a acts (.call line) [] (args ++ [callee])
  | .list _ items => σ.operate a acts .list [] items
  | .tuple _ items => σ.operate a acts .tuple [] items
  | .field line target name => σ.operate a acts (.field line name) [] [target]
  | .declare _ name value => σ.operate a acts (.declare name) [] [value]
  | .assign _ name value => σ.operate a acts (.assign name) [] [value]
  | .record _ fields => σ.build a acts [] fields
  | .cond _ test whenTrue whenFalse => σ.goes (a.wait (.test whenTrue whenFalse) :: acts) (.eval test)
  | .lambda _ name params body => σ.lambda a acts name params body
  | .block _ [] => σ.goes (a :: acts) (.give .none)
  | .block _ (e :: es) => σ.goes (a.wait (.scope a.locals.length) :: acts) (.run (e :: es))
  | .handle line body clauses => σ.handle a acts line body clauses
  | .handled line _ _ => σ.fail line (.other "this handler has no meaning")

/-- Gives a value to the innermost of some contexts, in an activity with the others. -/
def give (fill : List Value) (v : Value) : List Context → Next
  | [] => σ.hand v acts
  | .operands work done rest :: contexts =>
    σ.operate { a with contexts } acts work (done ++ [v]) rest
  | .fields done name rest :: contexts =>
    σ.build { a with contexts } acts (done ++ [(name, v)]) rest
  | .test whenTrue whenFalse :: contexts =>
    let a := { a with contexts }
    match v.isTruthy, whenFalse with
    | true, some e => σ.goes (a.wait (.passing e.declares) :: acts) (.eval whenTrue)
    | true, none => σ.goes (a :: acts) (.eval whenTrue)
    | false, some e => σ.goes (a.pass fill whenTrue.declares :: acts) (.eval e)
    | false, none => σ.goes (a.pass fill whenTrue.declares :: acts) (.give .none)
  | .passing names :: contexts => σ.goes ({ a with contexts }.pass fill names :: acts) (.give v)
  | .statements rest :: contexts => σ.goes ({ a with contexts } :: acts) (.run rest)
  | .scope size :: contexts =>
    σ.goes ({ a with contexts, locals := a.locals.drop (a.locals.length - size) } :: acts) (.give v)
  | .guard r c rest :: _ =>
    let next := if v.isTruthy then r.choice.body a c r.payload r.k else r.select a rest
    σ.goes (next.1 :: acts) next.2
  | .answer line k :: contexts => σ.goes ({ a with contexts } :: acts) (.call line k [v])

end

/-- One step. -/
def step (fill : List Value) (σ : State) : Next :=
  match σ.control, σ.acts with
  | .call line callee args, _ => σ.call line callee args
  | .give v, a :: acts => σ.give a acts fill v a.contexts
  | .eval e, a :: acts => σ.eval a acts e
  | .run es, a :: acts => σ.statements a acts es
  | .give v, [] => σ.finish (.ok v)
  | _, [] => σ.finish (.ok .none)

end State

/-- What some steps lead to, with the values of names that are passed over given step by step. -/
def Next.after : List (List Value) → Next → Next
  | [], next => next
  | fill :: fills, .more σ => after fills (σ.step fill)
  | _ :: _, .ended outcome memory => .ended outcome memory

/-- The first state of the run of a program, or its failure if there is no room for it. The run has an
identity, which no program sees. -/
def begin (memory : Memory) (limits : Limits) (reading : Reading) (program : Program) : Next :=
  State.enter { memory := memory.drawn, limits, control := .run program } 0
    ({ reading, isProgram := true }, .run program)

end Resumable.Meaning
