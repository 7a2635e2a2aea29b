import Resumable.Proofs.Expr.Every
import Resumable.Proofs.Meaning.Step

/-!
Direct evaluation of programs without handlers. An expression is evaluated to a value at once, and so is
a call, by evaluating the body of the function. There are no contexts and no activities; what is known of
the place where an expression is evaluated tells where its declarations go and how much room there is for
another call.
-/

namespace Resumable

namespace Expr

/-- Whether an expression is a declaration. -/
def isDeclaration : Expr → Bool
  | declare _ _ _ => true
  | _ => false

/-- An expression is no handler, and declarations are no parts of it but statements of a block. -/
def Orderly : Expr → Prop
  | handle _ _ _ | handled _ _ _ => False
  | block _ _ => True
  | e => ∀ part ∈ e.parts, part.isDeclaration = false

/-- There are no handlers in an expression, and all declarations in it are statements. -/
def Simple : Expr → Prop :=
  Every Orderly

end Expr

theorem declaresAll_eq_nil {es : List Expr} (h : ∀ e ∈ es, e.declares = []) : declaresAll es = [] := by
  induction es with
  | nil => rfl
  | cons e es ih =>
    obtain ⟨he, hes⟩ := List.forall_mem_cons.1 h
    rw [declaresAll, he, ih hes, List.append_nil]

theorem declaresFields_eq_nil {fields : List (String × Expr)} (h : ∀ f ∈ fields, f.2.declares = []) :
    declaresFields fields = [] := by
  induction fields with
  | nil => rfl
  | cons f fields ih =>
    obtain ⟨hf, hfields⟩ := List.forall_mem_cons.1 h
    rw [declaresFields, hf, ih hfields, List.append_nil]

/-- Only declarations declare something where they stand. -/
theorem Expr.Simple.declares {e : Expr} (h : e.Simple) (hdeclaration : e.isDeclaration = false) :
    e.declares = [] := by
  have ih : ∀ part ∈ e.parts, part.isDeclaration = false → part.declares = [] := fun part hmem hpart =>
    have := sizeOf_lt_of_mem_parts hmem
    Simple.declares (h.part hmem) hpart
  cases e with
  | call line callee args =>
    have hparts : ∀ part ∈ callee :: args, part.declares = [] :=
      fun part hmem => ih part hmem (h.here part hmem)
    obtain ⟨hcallee, hargs⟩ := List.forall_mem_cons.1 hparts
    rw [Expr.declares, hcallee, declaresAll_eq_nil hargs, List.append_nil]
  | cond line test whenTrue whenFalse =>
    have hparts : ∀ part ∈ test :: whenTrue :: whenFalse.toList, part.declares = [] :=
      fun part hmem => ih part hmem (h.here part hmem)
    obtain ⟨htest, htrue, hfalse⟩ := List.forall_mem_cons.1 hparts |>.imp_right List.forall_mem_cons.1
    cases whenFalse with
    | none => rw [Expr.declares, htest, htrue, List.append_nil]
    | some e => rw [Expr.declares, htest, htrue, hfalse e (.head _), List.append_nil, List.append_nil]
  | list line items | tuple line items =>
    have hparts : ∀ part ∈ items, part.declares = [] := fun part hmem => ih part hmem (h.here part hmem)
    rw [Expr.declares, declaresAll_eq_nil hparts]
  | record line fields =>
    have hparts : ∀ f ∈ fields, f.2.declares = [] := fun f hmem =>
      ih f.2 (List.mem_map_of_mem hmem) (h.here f.2 (List.mem_map_of_mem hmem))
    rw [Expr.declares, declaresFields_eq_nil hparts]
  | field line target name | assign line name target =>
    rw [Expr.declares, ih target (.head _) (h.here target (.head _))]
  | declare line name value => cases hdeclaration
  | handle | handled => cases h.here
  | nothing | bool | int | float | str | name | lambda | block => simp only [Expr.declares]
termination_by sizeOf e

namespace Meaning

/-- The visible locals of a call, the innermost first, and its copy of the bindings around it. -/
structure Surroundings where
  locals : Env Value := []
  captured : Env Value := []

/-- A place where something is called: the number of calls in progress and of the values that are held
there, and whether the call is in tail position. -/
structure Place where
  limits : Limits
  inTail : Bool
  depth : Nat
  height : Nat

/-- A place in a program, and whether declarations make global variables there. -/
structure Setting extends Place where
  reading : Reading
  isGlobal : Bool

namespace Setting

/-- Where another value is needed while the given number of values is held. -/
def holding (s : Setting) (count : Nat) : Setting :=
  { s with inTail := false, height := s.height + count }

/-- In a block. -/
def inside (s : Setting) : Setting :=
  { s with isGlobal := false }

/-- The symbol of a name. -/
def symbol (s : Setting) (name : String) : Symbol :=
  s.reading.symbol name

end Setting

/-- A call comes to a value or to a failure, and to nothing if it takes too long. -/
abbrev Calling (α : Type) : Type :=
  ExceptT RuntimeError (StateT Memory Option) α

/-- So does an expression, which may change the bindings of the call that it is in. -/
abbrev Evaluating (α : Type) : Type :=
  ExceptT RuntimeError (StateT (Surroundings × Memory) Option) α

namespace Calling

/-- A failure at a line. -/
def fail {α : Type} (line : Nat) (e : RuntimeError) : Calling α :=
  throw (e.atLine line)

/-- Does something with the shared state. -/
def act {α : Type} (line : Nat) (x : Act α) : Calling α := fun μ =>
  match x μ.world with
  | .ok a world => some (.ok a, μ.withWorld world)
  | .error e world => some (.error (e.atLine line), μ.withWorld world)

/-- What the function with an identity does. -/
def find (id : Nat) : Calling (Option Function) := fun μ =>
  some (.ok (μ.functions.lookup id), μ)

/-- Evaluates the body of a call. -/
def within (b : Surroundings) (x : Evaluating Value) : Calling Value := fun μ =>
  (x (b, μ)).map fun (result, _, μ) => (result, μ)

/-- Runs a task to its end and keeps its result. -/
def task (x : Calling Value) : Calling Value := fun μ =>
  let (id, tasks) := μ.world.tasks.draw
  (x (μ.withWorld { μ.world with tasks })).map fun (result, μ) =>
    (.ok (.int (Int64.ofInt id)),
      μ.withWorld { μ.world with tasks := μ.world.tasks.store id result })

/-- The place in the body of a function that is called. -/
def enter (p : Place) (line : Nat) : Calling Place :=
  if p.inTail then return p
  else
    match p.limits.room p.depth p.height with
    | .ok _ => return { p with inTail := true, depth := p.depth + 1 }
    | .error e => fail line e

end Calling

namespace Evaluating

/-- Makes a call, which leaves the bindings as they are. -/
def ofCall {α : Type} (x : Calling α) : Evaluating α := fun (b, μ) =>
  (x μ).map fun (result, μ) => (result, b, μ)

/-- A failure at a line. -/
def fail {α : Type} (line : Nat) (e : RuntimeError) : Evaluating α :=
  throw (e.atLine line)

/-- The value of a name. -/
def read (name : Symbol) : Evaluating (Option Value) := do
  let (b, μ) ← get
  return (Env.get? (b.locals ++ b.captured) name).or (μ.world.globals.get? name)

/-- Writes to the place where the value of a name is read. -/
def write (name : Symbol) (v : Value) : Evaluating Unit :=
  modify fun (b, μ) =>
    if binds b.locals name then ({ b with locals := assign name v b.locals }, μ)
    else if binds b.captured name then ({ b with captured := assign name v b.captured }, μ)
    else (b, μ.setGlobal name v)

/-- Declares a variable. -/
def declare (s : Setting) (name : Symbol) (v : Value) : Evaluating Unit :=
  modify fun (b, μ) =>
    if s.isGlobal then (b, μ.setGlobal name v)
    else ({ b with locals := (name, v) :: b.locals }, μ)

/-- Makes a function, which keeps a copy of all visible bindings. -/
def makeFunction (s : Setting) (name : Option String) (params : List String) (body : Expr) :
    Evaluating Value := do
  let name := name.map s.reading.symbol
  let params := params.map s.reading.symbol
  let (b, μ) ← get
  let (v, μ) := μ.makeFunction name
    { reading := s.reading, selfName := selfNameOf name params, params, body
      captured := b.locals ++ b.captured }
  set (b, μ)
  return v

/-- Evaluates something in a scope of its own. -/
def inScope (x : Evaluating Value) : Evaluating Value := do
  let (outer, _) ← get
  let v ← x
  modify fun (b, μ) =>
    ({ b with locals := b.locals.drop (b.locals.length - outer.locals.length) }, μ)
  return v

/-- Evaluates expressions one after the other. The number of values that are held grows. -/
def each (eval : Nat → Expr → Evaluating Value) (held : Nat) : List Expr → Evaluating (List Value)
  | [] => return []
  | e :: es => do
    let v ← eval held e
    let vs ← each eval (held + 1) es
    return v :: vs

/-- Evaluates the values of fields. They are held with their names. -/
def eachField (symbol : String → Symbol) (eval : Nat → Expr → Evaluating Value) (held : Nat) :
    List (String × Expr) → Evaluating (List (Symbol × Value))
  | [] => return []
  | (name, e) :: fields => do
    let v ← eval (held + 1) e
    let fields ← eachField symbol eval (held + 2) fields
    return (symbol name, v) :: fields

/-- Evaluates statements; the value of the last one counts. -/
def inTurn (eval : Setting → Expr → Evaluating Value) (s : Setting) : List Expr → Evaluating Value
  | [] => return .none
  | [e] => eval s e
  | e :: es => do
    let _ ← eval (s.holding 0) e
    inTurn eval s es

end Evaluating

open Evaluating

mutual

/-- The value of an expression. -/
def evaluate : Nat → Setting → Expr → Evaluating Value
  | 0, _, _ => fun _ => none
  | _ + 1, _, .nothing _ => return .none
  | _ + 1, _, .bool _ b => return .bool b
  | _ + 1, _, .int _ n => return .int n
  | _ + 1, _, .float _ x => return .float x
  | _ + 1, _, .str _ s => return .str s
  | _ + 1, s, .name line name => do
    match ← read (s.symbol name) with
    | some v => return v
    | none => fail (s.reading.shown line) (.undefinedVariable (s.symbol name).name)
  | n + 1, s, .call line callee args => do
    let args ← each (fun held => evaluate n (s.holding held)) 0 args
    let callee ← evaluate n (s.holding args.length) callee
    ofCall (call n s.toPlace (s.reading.shown line) callee args)
  | n + 1, s, .list _ items => do
    let vs ← each (fun held => evaluate n (s.holding held)) 0 items
    return .list vs
  | n + 1, s, .tuple _ items => do
    let vs ← each (fun held => evaluate n (s.holding held)) 0 items
    return .tuple vs
  | n + 1, s, .record _ fields => do
    let fields ← eachField s.symbol (fun held => evaluate n (s.holding held)) 0 fields
    return .record (fields.foldl (fun done f => Env.define done f.1 f.2) [])
  | n + 1, s, .field line target name => do
    let v ← evaluate n (s.holding 0) target
    match v.project (s.symbol name) with
    | .ok v => return v
    | .error e => fail (s.reading.shown line) e
  | n + 1, s, .declare _ name value => do
    let v ← evaluate n (s.holding 0) value
    declare s (s.symbol name) v
    return .none
  | n + 1, s, .assign _ name value => do
    let v ← evaluate n (s.holding 0) value
    write (s.symbol name) v
    return .none
  | n + 1, s, .cond _ test whenTrue whenFalse => do
    let v ← evaluate n (s.holding 0) test
    match v.isTruthy, whenFalse with
    | true, _ => evaluate n s whenTrue
    | false, some e => evaluate n s e
    | false, none => return .none
  | _ + 1, s, .lambda _ name params body => makeFunction s name params body
  | n + 1, s, .block _ body => inScope (inTurn (evaluate n) s.inside body)
  | _ + 1, _, .handle _ _ _ | _ + 1, _, .handled _ _ _ =>
    throw (.other "handlers have no meaning here")

/-- The value of a call. -/
def call : Nat → Place → Nat → Value → List Value → Calling Value
  | 0, _, _, _, _ => fun _ => none
  | n + 1, p, line, callee, args => do
    match ← Calling.act line (Application.apply callee args) with
    | .returned v => return v
    | .spawn task =>
      Calling.task (call n { limits := p.limits, inTail := false, depth := 0, height := 0 } 0 task [])
    | .enter id callee args =>
      match ← Calling.find id with
      | some f => do
        let inner ← Calling.enter p line
        Calling.within { locals := f.locals callee args, captured := f.captured }
          (evaluate n { inner with reading := f.reading, isGlobal := false } f.body)
      | none => Calling.fail line (.other "this function has no meaning")
    | .raise effect _ => Calling.fail line (.unhandledEffect effect.name)
    | .resume _ _ => Calling.fail line (.other "this computation has no meaning")

end

theorem evaluate_zero (s : Setting) (e : Expr) : evaluate 0 s e = fun _ => none := by
  rw [evaluate]

theorem call_zero (p : Place) (line : Nat) (callee : Value) (args : List Value) :
    call 0 p line callee args = fun _ => none := by
  rw [call]

/-- The value of a program. The run has an identity, which no program sees. -/
def evaluateProgram (n : Nat) (limits : Limits) (reading : Reading) (program : Program) :
    Calling Value := do
  modify Memory.drawn
  let p ← Calling.enter { limits, inTail := false, depth := 0, height := 0 } 0
  Calling.within {} (inTurn (evaluate n) { p with reading, isGlobal := true } program)

end Meaning

end Resumable
