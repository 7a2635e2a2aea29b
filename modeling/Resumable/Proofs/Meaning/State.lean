import Mathlib.Algebra.Order.Ring.Int
import Resumable.Compile
import Resumable.Machine
import Resumable.Proofs.Expr.Grouping

/-!
The meaning of programs as they are written. A program is evaluated expression by expression, and what
is left to do is a list of contexts that wait for values. There is no code, there are no slots, and a
handler has the clauses that are written, not functions made from them. Names are looked up where they
are used, and a function keeps a copy of all that is visible where it is made.

A value shows of a function or of a suspended computation only its identity, its name and its
parameters. What it does is found by its identity.
-/

namespace Resumable

namespace Meaning

/-- How a program is read: the lines that its failures show, and the symbols of its names. -/
structure Reading where
  options : CompileOptions
  names : Names

namespace Reading

/-- The symbol of a name. -/
def symbol (r : Reading) (name : String) : Symbol :=
  (r.names.find? name).getD ⟨r.names.size, name⟩

/-- The line that is shown for a line of the program. -/
def shown (r : Reading) (line : Nat) : Nat :=
  r.options.shown line

end Reading

/-- What a function does: its body, with a copy of the bindings that were visible when it was made. -/
structure Function where
  reading : Reading
  selfName : Option Symbol
  params : List Symbol
  body : Expr
  captured : Env Value

/-- What a handler does about one effect: the clauses for its path in the order they are written, with
a copy of the bindings that were visible where the handler stands. -/
structure Choice where
  reading : Reading
  line : Nat
  clauses : List (Clause Expr)
  captured : Env Value

/-- An effect that has been raised with a payload and has reached a handler, with the computation that
it suspended. -/
structure Raised where
  choice : Choice
  effect : Effect
  payload : Value
  k : Value

/-- What is to be done with the values of some expressions. -/
inductive Work where
  | call (line : Nat)
  | list
  | tuple
  | field (line : Nat) (name : String)
  | declare (name : String)
  | assign (name : String)

/-- What is to be done with a value that is awaited. -/
inductive Context where
  /-- The value is one of several, of which those before are known and those behind are not. -/
  | operands (work : Work) (done : List Value) (rest : List Expr)
  /-- The value is that of a field of a record. -/
  | fields (done : List (Symbol × Value)) (name : Symbol) (rest : List (String × Expr))
  /-- The value decides between two expressions. -/
  | test (whenTrue : Expr) (whenFalse : Option Expr)
  /-- Names that would have been declared by an expression that is passed over. -/
  | passing (names : List String)
  /-- The value is that of a statement before others. -/
  | statements (rest : List Expr)
  /-- A scope ends, and with it all locals but the given number. -/
  | scope (size : Nat)
  /-- The value is that of the guard of a clause before others. -/
  | guard (raised : Raised) (clause : Clause Expr) (rest : List (Clause Expr))
  /-- The value answers an effect that no clause was for. -/
  | answer (line : Nat) (k : Value)

/-- An activation of a function, of a program, of a handled body or of a choice: its visible locals, the
innermost first, its copy of the bindings around it, and the contexts that wait, the innermost first. A
handled body has the handler that it runs under. -/
structure Activity where
  reading : Reading
  isProgram : Bool := false
  locals : Env Value := []
  captured : Env Value := []
  contexts : List Context := []
  handler : Option (List (Effect × Choice)) := none

/-- What is to be done next: an expression or statements are to be evaluated, a value is given to the
context that waits for it, or a call is to be made. -/
inductive Control where
  | eval (e : Expr)
  | run (statements : List Expr)
  | give (v : Value)
  | call (line : Nat) (callee : Value) (args : List Value)

/-- What outlasts a run: the shared state, and what functions and suspended computations do, by their
identities. -/
structure Memory where
  world : World
  functions : List (Nat × Function) := []
  continuations : List (Nat × List Activity) := []

/-- A state of an evaluation. Activities are listed with the innermost first, and so are the threads
that wait for a task, with the numbers of these tasks. -/
structure State where
  memory : Memory
  limits : Limits
  acts : List Activity := []
  control : Control
  waiting : List (Int × List Activity) := []

/-- Bindings with a new value for the innermost one of a name. -/
def assign (name : Symbol) (v : Value) : Env Value → Env Value
  | [] => []
  | b :: bindings => if b.1 == name then (b.1, v) :: bindings else b :: assign name v bindings

/-- Whether there is a binding of a name. -/
def binds (bindings : Env Value) (name : Symbol) : Bool :=
  bindings.any fun b => b.1 == name

namespace Context

/-- Whether nothing is left to do with a value but to pass it on. -/
def isTransparent : Context → Bool
  | passing _ | scope _ => true
  | _ => false

/-- Whether a scope ends here. -/
def isScope : Context → Bool
  | scope _ => true
  | _ => false

/-- The values that are held until the awaited one arrives. The fields of a record are held with their
names. -/
def held : Context → List Value
  | operands _ done _ => done
  | fields done name _ => done.flatMap (fun f => [.symbol f.1, f.2]) ++ [.symbol name]
  | _ => []

end Context

namespace Activity

/-- Whether the value that is awaited is the value of the whole activity. -/
def inTail (a : Activity) : Bool :=
  a.contexts.all Context.isTransparent

/-- Whether a declaration makes a global variable: outside of all blocks and functions. -/
def isGlobal (a : Activity) : Bool :=
  a.isProgram && !a.contexts.any Context.isScope

/-- All values that are held, the latest last. -/
def held (a : Activity) : List Value :=
  a.contexts.reverse.flatMap Context.held

/-- The number of values that are held, the mark of a handler included. -/
def height (a : Activity) : Nat :=
  a.handler.toList.length + a.held.length

/-- All bindings that are visible. -/
def visible (a : Activity) : Env Value :=
  a.locals ++ a.captured

/-- With one more context. -/
def wait (a : Activity) (c : Context) : Activity :=
  { a with contexts := c :: a.contexts }

/-- With one more local. -/
def bindLocal (a : Activity) (name : Symbol) (v : Value) : Activity :=
  { a with locals := (name, v) :: a.locals }

/-- The clauses of the handler for an effect, with that effect. -/
def choice? (a : Activity) (effect : Effect) : Option (Effect × Choice) :=
  a.handler.bind fun clauses => clauses.find? fun c => c.1 == effect

end Activity

/-- Cuts activities at the innermost handler with clauses for an effect: the part up to it, the effect
with its clauses, and the rest. -/
def cut? (effect : Effect) :
    List Activity → Option (List Activity × (Effect × Choice) × List Activity)
  | [] => none
  | a :: acts =>
    match a.choice? effect with
    | some choice => some ([a], choice, acts)
    | none => (cut? effect acts).map fun (part, choice, rest) => (a :: part, choice, rest)

/-- The number of values that activities hold. -/
def totalHeight (acts : List Activity) : Nat :=
  (acts.map Activity.height).sum

namespace Memory

/-- With another shared state. -/
def withWorld (μ : Memory) (world : World) : Memory :=
  { μ with world }

/-- After a fresh identity has been drawn. -/
def drawn (μ : Memory) : Memory :=
  μ.withWorld μ.world.draw.2

/-- Passes over some identities. -/
def skip : Nat → Memory → Memory
  | 0, μ => μ
  | n + 1, μ => skip n μ.drawn

/-- Gives a value to a global variable. -/
def setGlobal (μ : Memory) (name : Symbol) (v : Value) : Memory :=
  μ.withWorld { μ.world with globals := μ.world.globals.set name v }

/-- Makes a function. -/
def makeFunction (μ : Memory) (name : Option Symbol) (f : Function) : Value × Memory :=
  (.closure μ.world.draw.1 { name, params := f.params } [],
    { μ.drawn with functions := (μ.world.draw.1, f) :: μ.functions })

/-- Makes a suspended computation. -/
def suspend (μ : Memory) (part : List Activity) : Value × Memory :=
  (.continuation μ.world.draw.1 { frames := #[], stack := #[], handlers := #[] },
    { μ.drawn with continuations := (μ.world.draw.1, part) :: μ.continuations })

end Memory

end Meaning

mutual

/-- The names that an expression declares in the scope where it stands, in the order in which it
declares them. -/
def Expr.declares : Expr → List String
  | .call _ callee args => declaresAll args ++ callee.declares
  | .cond _ test whenTrue none => test.declares ++ whenTrue.declares
  | .cond _ test whenTrue (some whenFalse) =>
    test.declares ++ whenTrue.declares ++ whenFalse.declares
  | .declare _ name value => value.declares ++ [name]
  | .assign _ _ value => value.declares
  | .list _ items => declaresAll items
  | .tuple _ items => declaresAll items
  | .record _ fields => declaresFields fields
  | .field _ target _ => target.declares
  | .handled _ clauses _ => declaresPairs clauses
  | _ => []

/-- The names that expressions declare one after the other. -/
def declaresAll : List Expr → List String
  | [] => []
  | e :: es => e.declares ++ declaresAll es

/-- The names that the values of fields declare. -/
def declaresFields : List (String × Expr) → List String
  | [] => []
  | (_, e) :: fields => e.declares ++ declaresFields fields

/-- The names that pairs of an effect and its function declare. -/
def declaresPairs : List (Expr × Expr) → List String
  | [] => []
  | (effect, function) :: pairs => effect.declares ++ function.declares ++ declaresPairs pairs

end

end Resumable
