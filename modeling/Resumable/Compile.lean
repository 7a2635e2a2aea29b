import Resumable.Expr.Handlers
import Resumable.Expr.Reader
import Resumable.Scope
import Resumable.Value

/-!
Compiling programs to code. Every expression leaves one value on the stack. Arguments come before the
function they are passed to, and a call whose value is the value of the whole function is written
as a tail call. Errors that leave something to compile are collected; the others stop.
-/

namespace Resumable

/-- Choices of the compiler. -/
structure CompileOptions where
  recordLines : Bool := true

/-- The line that is recorded for a line of the source text; zero stands for none. -/
def CompileOptions.shown (o : CompileOptions) (line : Nat) : Nat :=
  if o.recordLines then line else 0

namespace Code

/-- The index of a symbol among the constants. -/
def symbolIndex? (code : Code Value) (symbol : Symbol) : Option Nat :=
  code.constants.findIdx? fun
    | .symbol s => s == symbol
    | _ => false

/-- Adds a symbol to the constants unless it is one, and gives its index. -/
def addSymbol (code : Code Value) (symbol : Symbol) : Except EncodeError (Nat × Code Value) :=
  match code.symbolIndex? symbol with
  | some index => .ok (index, code)
  | none => code.addConstant (.symbol symbol)

end Code

/-- What compiling has produced so far: names, scopes, the code being written, and the errors, the
latest first. -/
structure CompileState where
  names : Names
  supply : Supply
  scopes : Scopes := {}
  code : Code Value := {}
  errors : List CompileError := []

/-- Compiling extends the code; an error that is thrown stops it. -/
abbrev Compile := EStateM CompileError CompileState

namespace Compile

/-- Collects an error, or stops if it is fatal. -/
def report (problem : CompileProblem) (line : Nat) : Compile Unit :=
  if problem.isFatal then throw ⟨problem, line⟩
  else modify fun s => { s with errors := ⟨problem, line⟩ :: s.errors }

/-- The symbol of a name. -/
def intern (name : String) : Compile Symbol :=
  modifyGet fun s =>
    let (symbol, names, supply) := s.names.intern s.supply name
    (symbol, { s with names, supply })

/-- Changes the code being written. -/
def write (f : Code Value → Code Value) : Compile Unit :=
  modify fun s => { s with code := f s.code }

/-- Writes an operation without operand. -/
def emitOp (op : Op) (line : Nat) : Compile Unit :=
  write fun code => code.write op line

/-- Writes an operation on an index. -/
def emitIndexed (op : Op) (index line : Nat) : Compile Unit :=
  match op.formFor index with
  | .ok form => write fun code => code.writeForm form index line
  | .error e => report (.encoding e) line

/-- Adds a constant and gives its index. -/
def addConstant (value : Value) (line : Nat) : Compile Nat := do
  match (← get).code.nextConstant with
  | .ok index =>
    write fun code => code.pushConstant value
    return index
  | .error e => throw ⟨.encoding e, line⟩

/-- The index of a symbol among the constants, to which it is added if need be. -/
def addSymbol (symbol : Symbol) (line : Nat) : Compile Nat := do
  match (← get).code.symbolIndex? symbol with
  | some index => return index
  | none => addConstant (.symbol symbol) line

/-- Writes the load of a constant. -/
def emitConstant (value : Value) (line : Nat) : Compile Unit := do
  emitIndexed .constant (← addConstant value line) line

/-- Writes an operation on a symbol. -/
def emitSymbol (op : Op) (symbol : Symbol) (line : Nat) : Compile Unit := do
  emitIndexed op (← addSymbol symbol line) line

/-- Writes an operation on a number of values, which must fit in one byte. -/
def emitCount (op : Op) (count : Nat) (what : String) (line : Nat) : Compile Unit := do
  if count < 256 then
    write fun code => code.writeNarrow op (UInt8.ofNat count) line
  else
    report (.tooManyOperands what count) line
    write fun code => code.writeNarrow op 255 line

/-- Writes a jump with an open target and gives its place. -/
def emitJump (op : Op) (line : Nat) : Compile Nat :=
  modifyGet fun s => (s.code.size, { s with code := s.code.writeJump op line })

/-- Lets an open jump come here. -/
def patch (start line : Nat) : Compile Unit := do
  match (← get).code.jumpDistance start with
  | .ok distance => write fun code => code.setJump start distance
  | .error e => report (.encoding e) line

/-- Finds what a name refers to. -/
def resolve (symbol : Symbol) : Compile Variable :=
  modifyGet fun s =>
    let (found, scopes) := s.scopes.resolve symbol
    (found, { s with scopes })

/-- Changes the scopes. -/
def scope (f : Scopes → Scopes) : Compile Unit :=
  modify fun s => { s with scopes := f s.scopes }

/-- Declares a local and gives its slot, or the reason against it. -/
def declare (symbol : Symbol) : Compile (Except CompileProblem Nat) :=
  modifyGet fun s =>
    match s.scopes.declare symbol with
    | .ok (slot, scopes) => (.ok slot, { s with scopes })
    | .error problem => (.error problem, s)

/-- Declares a local that the function cannot do without. -/
def mustDeclare (symbol : Symbol) (line : Nat) : Compile Unit := do
  match ← declare symbol with
  | .ok _ => return ()
  | .error problem => throw ⟨problem, line⟩

/-- Writes the load of a variable. -/
def load (name : String) (line : Nat) : Compile Unit := do
  let symbol ← intern name
  match ← resolve symbol with
  | .slot n => emitIndexed .loadLocal n line
  | .captured => emitSymbol .loadCaptured symbol line
  | .global => emitSymbol .loadGlobal symbol line

/-- Writes an assignment to a variable, which leaves `none`. -/
def store (name : String) (line : Nat) : Compile Unit := do
  let symbol ← intern name
  match ← resolve symbol with
  | .slot n => emitIndexed .storeLocal n line
  | .captured => emitSymbol .storeCaptured symbol line
  | .global => emitSymbol .storeGlobal symbol line
  emitOp .pushNone line

/-- Writes a declaration, which leaves `none`. -/
def bind (name : String) (line : Nat) : Compile Unit := do
  let symbol ← intern name
  if (← get).scopes.isGlobal then
    emitSymbol .storeGlobal symbol line
  else
    match ← declare symbol with
    | .ok slot => emitIndexed .storeLocal slot line
    | .error problem =>
      report problem line
      emitOp .pop line
  emitOp .pushNone line

/-- Declares parameters, of which those before are given with the latest first. A repeated name is an
error; its place is kept by a name that no program can write. -/
def declareParams (line : Nat) (done : List Symbol) : List String → Compile (List Symbol)
  | [] => return done.reverse
  | param :: params => do
    let symbol ← intern param
    if done.contains symbol then
      report (.parameterRepeated param) line
      let placeholder ← intern ("$dup" ++ toString done.length)
      mustDeclare placeholder line
      declareParams line (placeholder :: done) params
    else
      match ← declare symbol with
      | .ok _ => pure ()
      | .error problem => report problem line
      declareParams line (symbol :: done) params

/-- The name by which a function can call itself, declared behind its parameters unless one of them
has it. -/
def declareSelf (line : Nat) (name : Option Symbol) (params : List Symbol) :
    Compile (Option Symbol) := do
  match name with
  | some n =>
    if params.contains n then return none
    else
      mustDeclare n line
      return some n
  | none => return none

/-- The symbol of a name, if there is one. -/
def internName : Option String → Compile (Option Symbol)
  | some name => some <$> intern name
  | none => return none

/-- Compiles a function, given how its body is compiled, and writes the operation that makes it. -/
def emitFunction (line : Nat) (name : Option String) (params : List String)
    (body : Compile Unit) : Compile Unit := do
  let name ← internName name
  let enclosing ← modifyGet fun s => (s.code, { s with code := {} })
  scope Scopes.openFunction
  let params ← declareParams line [] params
  let selfName ← declareSelf line name params
  body
  emitOp .ret line
  let function ← modifyGet fun s =>
    let ((localCount, captures), scopes) := s.scopes.closeFunction
    let (id, supply) := s.supply.draw
    let function := { s.code with name, params, selfName, localCount, captures }
    (Value.code id function, { s with scopes, supply, code := enclosing })
  emitIndexed .lambda (← addConstant function line) line

end Compile

open Compile

mutual

/-- Compiles an expression; `tail` tells whether its value is the value of the function. -/
def Expr.emit (o : CompileOptions) (tail : Bool) : Expr → Compile Unit
  | .nothing line => emitOp .pushNone (o.shown line)
  | .bool line b => emitConstant (.bool b) (o.shown line)
  | .int line n => emitConstant (.int n) (o.shown line)
  | .float line x => emitConstant (.float x) (o.shown line)
  | .str line s => emitConstant (.str s) (o.shown line)
  | .name line name => load name (o.shown line)
  | .call line callee args => do
    emitAll o args
    callee.emit o false
    emitCount (if tail then .tailCall else .call) args.length "arguments" (o.shown line)
  | .cond line test whenTrue whenFalse => do
    let line := o.shown line
    test.emit o false
    let toElse ← emitJump .jumpIfFalse line
    whenTrue.emit o tail
    let toEnd ← emitJump .jump line
    patch toElse line
    match whenFalse with
    | some e => e.emit o tail
    | none => emitOp .pushNone line
    patch toEnd line
  | .lambda line name params body =>
    emitFunction (o.shown line) name params (body.emit o true)
  | .block line body => do
    scope Scopes.openScope
    match body with
    | [] => emitOp .pushNone (o.shown line)
    | e :: es => emitStatements o tail (e :: es)
    scope fun s => s.closeScope.2
  | .declare line name value => do
    value.emit o false
    Compile.bind name (o.shown line)
  | .assign line name value => do
    value.emit o false
    store name (o.shown line)
  | .list line items => do
    emitAll o items
    emitCount .buildList items.length "list elements" (o.shown line)
  | .tuple line items => do
    emitAll o items
    emitCount .buildTuple items.length "tuple elements" (o.shown line)
  | .record line fields => do
    emitFields o (o.shown line) fields
    emitCount .buildRecord fields.length "record fields" (o.shown line)
  | .field line target name => do
    target.emit o false
    emitSymbol .getField (← intern name) (o.shown line)
  | .handle line body clauses =>
    throw ⟨.nodeNotSupported (Expr.handle line body clauses).kind, line⟩
  | .handled line clauses body => do
    emitPairs o clauses
    emitCount .makeHandler clauses.length "handler clauses" (o.shown line)
    emitFunction (o.shown line) none [] (body.emit o true)
    emitOp .handle (o.shown line)

/-- Compiles expressions whose values are all kept. -/
def emitAll (o : CompileOptions) : List Expr → Compile Unit
  | [] => return ()
  | e :: es => do
    e.emit o false
    emitAll o es

/-- Compiles expressions of which only the last value is kept. -/
def emitStatements (o : CompileOptions) (tail : Bool) : List Expr → Compile Unit
  | [] => return ()
  | e :: es => do
    if es.isEmpty then e.emit o tail
    else
      e.emit o false
      emitOp .pop (o.shown e.line)
      emitStatements o tail es

/-- Compiles the fields of a record, each as its name and its value. -/
def emitFields (o : CompileOptions) (line : Nat) : List (String × Expr) → Compile Unit
  | [] => return ()
  | (name, e) :: fields => do
    emitConstant (.symbol (← intern name)) line
    e.emit o false
    emitFields o line fields

/-- Compiles pairs of an effect and its function. -/
def emitPairs (o : CompileOptions) : List (Expr × Expr) → Compile Unit
  | [] => return ()
  | (effect, function) :: pairs => do
    effect.emit o false
    function.emit o false
    emitPairs o pairs

end

namespace Program

/-- Compiles the statements of a program as the body of a function without parameters. -/
def emitBody (o : CompileOptions) (program : Program) : Compile Unit := do
  match program.getLast? with
  | none =>
    emitOp .pushNone 0
    emitOp .ret 0
  | some last =>
    emitStatements o true program
    emitOp .ret (o.shown last.line)

/-- The code of a program without `handle` expressions, and the names after it. -/
def emit (o : CompileOptions) (names : Names) (supply : Supply) (program : Program) :
    Except (List CompileError) (Code Value) × Names × Supply :=
  match program.emitBody o { names, supply } with
  | .ok _ s =>
    let result :=
      if s.errors.isEmpty then .ok { s.code with localCount := s.scopes.peak }
      else .error s.errors.reverse
    (result, s.names, s.supply)
  | .error fatal s => (.error (fatal :: s.errors).reverse, s.names, s.supply)

/-- The code of a program, and the names after it. -/
def compile (o : CompileOptions) (names : Names) (supply : Supply) (program : Program) :
    Except (List CompileError) (Code Value) × Names × Supply :=
  match program.lower with
  | .ok lowered => lowered.emit o names supply
  | .error errors => (.error errors, names, supply)

/-- The code of a source text, and the names after it. -/
def compileSource (o : CompileOptions) (names : Names) (supply : Supply) (source : String) :
    Except SourceFailure (Code Value) × Names × Supply :=
  match Program.ofSource source with
  | .error failure => (.error failure, names, supply)
  | .ok program =>
    let (result, names, supply) := program.compile o names supply
    (result.mapError .refused, names, supply)

end Program

end Resumable
