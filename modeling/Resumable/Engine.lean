import Resumable.Compile
import Resumable.Library.Table
import Resumable.Machine.Run

/-!
Engines. An engine compiles and runs programs with names of its own over a world that it may share
with other engines.
-/

namespace Resumable

/-- An engine: the shared state, its names and its thread of execution. -/
structure Engine where
  world : World := {}
  names : Names := {}
  thread : Thread := {}

namespace Engine

/-- The symbol of a name. -/
def intern (e : Engine) (name : String) : Symbol × Engine :=
  let (symbol, names, supply) := e.names.intern e.world.supply name
  (symbol, { e with names, world := { e.world with supply } })

/-- Gives a value to a global variable. -/
def define (e : Engine) (name : String) (value : Value) : Engine :=
  let (symbol, e) := e.intern name
  { e with world := { e.world with globals := e.world.globals.set symbol value } }

/-- The value of a global variable, as far as this engine knows its name. -/
def get? (e : Engine) (name : String) : Option Value :=
  (e.names.find? name).bind e.world.globals.get?

/-- A function of the machine as a value. -/
def makeNative (e : Engine) (entry : Library.Entry) : Value × Engine :=
  let (id, world) := e.world.draw
  (.native id entry.name entry.arity entry.function, { e with world })

/-- Defines a function of the machine. -/
def defineNative (e : Engine) (entry : Library.Entry) : Engine :=
  let (value, e) := e.makeNative entry
  e.define entry.name value

/-- Names and values as the fields of a record; those before are given with the latest first. -/
def internFields (e : Engine) (done : List (Symbol × Value)) :
    List (String × Value) → List (Symbol × Value) × Engine
  | [] => (done.reverse, e)
  | (name, value) :: members =>
    let (symbol, e) := e.intern name
    e.internFields ((symbol, value) :: done) members

/-- Defines a module, which is a record. -/
def defineModule (e : Engine) (name : String) (members : List (String × Value)) : Engine :=
  let (fields, e) := e.internFields [] members
  e.define name (.record fields)

/-- The values of the members of a module, with their names; those before are given with the latest
first. -/
def makeMembers (e : Engine) (done : List (String × Value)) :
    List Library.Member → List (String × Value) × Engine
  | [] => (done.reverse, e)
  | .constant name value :: members => e.makeMembers ((name, value) :: done) members
  | .function entry :: members =>
    let (value, e) := e.makeNative entry
    e.makeMembers ((entry.name, value) :: done) members

/-- Defines a module of the library. -/
def installModule (e : Engine) (module : String × List Library.Member) : Engine :=
  let (members, e) := e.makeMembers [] module.2
  e.defineModule module.1 members

/-- Defines everything in the library. -/
def installLibrary (e : Engine) : Engine :=
  Library.modules.foldl installModule (Library.entries.foldl defineNative e)

/-- A new engine with the library; its clock starts at `clock`. -/
def create (limits : Limits) (clock : Nat) : Engine :=
  installLibrary { world := { clock }, thread := { limits } }

/-- Another engine over the same world, which knows the same names. -/
def fork (e : Engine) : Engine :=
  { e with thread := { limits := e.thread.limits } }

/-- Compiles a program. -/
def compile (e : Engine) (o : CompileOptions) (program : Program) :
    Except (List CompileError) (Code Value) × Engine :=
  let (result, names, supply) := program.compile o e.names e.world.supply
  (result, { e with names, world := { e.world with supply } })

/-- Compiles a source text. -/
def compileSource (e : Engine) (o : CompileOptions) (source : String) :
    Except SourceFailure (Code Value) × Engine :=
  let (result, names, supply) := Program.compileSource o e.names e.world.supply source
  (result, { e with names, world := { e.world with supply } })

/-- Calls a value. There is no outcome if the call takes more than `fuel` moves. -/
def call (fuel : Nat) (e : Engine) (callee : Value) (args : List Value) :
    Option (Outcome × Engine) :=
  let machine := Machine.begin e.world e.thread callee args
  let names := e.names
  (machine.run fuel).map fun (outcome, m) =>
    (outcome, { world := m.world, names, thread := m.thread })

/-- Runs code as a function that captures nothing. -/
def interpret (fuel : Nat) (e : Engine) (code : Code Value) : Option (Outcome × Engine) :=
  let (id, world) := e.world.draw
  { e with world }.call fuel (.closure id code []) []

/-- The number of frames. -/
def depth (e : Engine) : Nat :=
  e.thread.frames.size

/-- The text of a value. -/
def render (e : Engine) (v : Value) : String :=
  e.world.render v

/-- The output so far, which is then gone. -/
def takeOutput (e : Engine) : String × Engine :=
  (e.world.output, { e with world := { e.world with output := "" } })

end Engine

end Resumable
