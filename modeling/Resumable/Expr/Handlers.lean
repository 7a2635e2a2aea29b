import Resumable.Diagnostic
import Resumable.Expr

/-!
Handlers with one function per effect. The clauses of a `handle` expression are grouped by the path
of their effect. A group becomes one function of the payload and the continuation: the guarded
clauses are tried in the order they are written, then the clause without a guard; if there is none,
the effect is raised again outside and its answer is passed to the continuation. Each path is
evaluated once, before the handled body, and bound to a name that no program can write.
-/

namespace Resumable

/-- The number of groups so far and the errors recorded, the latest first. -/
structure LowerState where
  groups : Nat := 0
  errors : List CompileError := []

/-- Lowering numbers the groups; an error that is thrown stops it. -/
abbrev Lower := EStateM CompileError LowerState

/-- A clause whose guard and body are still to be lowered. Groups are numbered in the order in which
they are lowered, which is not the order in which the clauses are written. -/
structure PendingClause where
  param : String
  resume : Option String
  line : Nat
  guard : Option (Lower Expr)
  body : Lower Expr

/-- The clauses for one effect path, in the order they are written. -/
structure ClauseGroup where
  key : String
  effect : Expr
  clauses : List PendingClause

/-- A clause that has been lowered, its guard apart. -/
structure LoweredClause where
  param : String
  resume : Option String
  line : Nat
  body : Expr

/-- The clauses of a group that have been lowered: those with a guard, the latest first, and the one
without. -/
structure LoweredGroup where
  guarded : List (Expr × LoweredClause) := []
  catchAll : Option LoweredClause := none

namespace ClauseGroup

/-- Adds a clause to the group of its path, or to a new one behind the others. -/
def insert (key : String) (effect : Expr) (clause : PendingClause) :
    List ClauseGroup → List ClauseGroup
  | [] => [⟨key, effect, [clause]⟩]
  | g :: gs =>
    if g.key = key then { g with clauses := g.clauses ++ [clause] } :: gs
    else g :: insert key effect clause gs

/-- Groups clauses by the paths of their effects. A clause whose effect is no path is reported and
left out. -/
def collect (groups : List ClauseGroup) :
    List (Expr × PendingClause) → Lower (List ClauseGroup)
  | [] => return groups
  | (effect, clause) :: rest => do
    match effect.path? with
    | some key => collect (insert key effect clause groups) rest
    | none =>
      modify fun s =>
        { s with errors := ⟨.effectNotPath effect.kind, clause.line⟩ :: s.errors }
      collect groups rest

/-- Lowers the clauses of a group. A second clause without a guard is an error that stops. -/
def lowerClauses (key : String) (done : LoweredGroup) :
    List PendingClause → Lower LoweredGroup
  | [] => return done
  | clause :: rest => do
    match clause.guard with
    | some guard =>
      let guard ← guard
      let body ← clause.body
      let lowered : LoweredClause := ⟨clause.param, clause.resume, clause.line, body⟩
      lowerClauses key { done with guarded := (guard, lowered) :: done.guarded } rest
    | none =>
      let body ← clause.body
      match done.catchAll with
      | some _ => throw ⟨.catchAllRepeated key, clause.line⟩
      | none =>
        let lowered : LoweredClause := ⟨clause.param, clause.resume, clause.line, body⟩
        lowerClauses key { done with catchAll := some lowered } rest

end ClauseGroup

/-- The body of a clause with its names bound to the payload `arg` and the continuation `k`. -/
def LoweredClause.bound (c : LoweredClause) (arg k : String) : Expr :=
  let resume := match c.resume with
    | some name => [Expr.declare c.line name (.name c.line k)]
    | none => []
  .block c.line (.declare c.line c.param (.name c.line arg) :: (resume ++ [c.body]))

/-- The test of a guard, which sees only the payload. -/
def LoweredClause.test (c : LoweredClause) (guard : Expr) (arg : String) : Expr :=
  .block c.line [.declare c.line c.param (.name c.line arg), guard]

/-- What remains when no clause of a group applies: raise the effect again and resume with the
answer. -/
def raiseAgain (line : Nat) (effect arg k : String) : Expr :=
  .call line (.name line k) [.call line (.name line effect) [.name line arg]]

/-- The body of the function for a group. -/
def LoweredGroup.body (g : LoweredGroup) (line : Nat) (effect arg k : String) : Expr :=
  let last := match g.catchAll with
    | some c => c.bound arg k
    | none => raiseAgain line effect arg k
  g.guarded.foldl (fun next (guard, c) =>
    .cond c.line (c.test guard arg) (c.bound arg k) (some next)) last

/-- Lowers the groups of a handler, giving the bindings of their effects and their functions, both
the latest first. -/
def lowerGroups (line : Nat) (bindings : List Expr) (clauses : List (Expr × Expr)) :
    List ClauseGroup → Lower (List Expr × List (Expr × Expr))
  | [] => return (bindings, clauses)
  | g :: gs => do
    let n := toString (← get).groups
    modify fun s => { s with groups := s.groups + 1 }
    let effect := "$eff" ++ n
    let arg := "$arg" ++ n
    let k := "$k" ++ n
    let lowered ← ClauseGroup.lowerClauses g.key {} g.clauses
    let function : Expr := .lambda line none [arg, k] (lowered.body line effect arg k)
    lowerGroups line (.declare line effect g.effect :: bindings)
      ((.name line effect, function) :: clauses) gs

/-- A handler whose body is lowered already: the bindings of the effects around the handled body. -/
def lowerHandle (line : Nat) (body : Expr) (clauses : List (Expr × PendingClause)) :
    Lower Expr := do
  let groups ← ClauseGroup.collect [] clauses
  let (bindings, functions) ← lowerGroups line [] [] groups
  return .block line ((.handled line functions.reverse body :: bindings).reverse)

mutual

/-- Lowers all handlers in an expression. -/
def Expr.lower : Expr → Lower Expr
  | .call line callee args => do
    let callee ← callee.lower
    let args ← lowerAll [] args
    return .call line callee args
  | .cond line test whenTrue whenFalse => do
    let test ← test.lower
    let whenTrue ← whenTrue.lower
    match whenFalse with
    | some e =>
      let e ← e.lower
      return .cond line test whenTrue (some e)
    | none => return .cond line test whenTrue none
  | .lambda line name params body => do
    let body ← body.lower
    return .lambda line name params body
  | .block line body => do
    let body ← lowerAll [] body
    return .block line body
  | .declare line name value => do
    let value ← value.lower
    return .declare line name value
  | .assign line name value => do
    let value ← value.lower
    return .assign line name value
  | .list line items => do
    let items ← lowerAll [] items
    return .list line items
  | .tuple line items => do
    let items ← lowerAll [] items
    return .tuple line items
  | .record line fields => do
    let fields ← lowerFields [] fields
    return .record line fields
  | .field line target name => do
    let target ← target.lower
    return .field line target name
  | .handle line body clauses => do
    let body ← body.lower
    lowerHandle line body (pendingClauses clauses)
  | .handled line clauses body => do
    let clauses ← lowerPairs [] clauses
    let body ← body.lower
    return .handled line clauses body
  | e => return e

/-- Lowers expressions in order; those that are done are given with the latest first. -/
def lowerAll (done : List Expr) : List Expr → Lower (List Expr)
  | [] => return done.reverse
  | e :: es => do
    let e ← e.lower
    lowerAll (e :: done) es

/-- Lowers the fields of a record in order. -/
def lowerFields (done : List (String × Expr)) :
    List (String × Expr) → Lower (List (String × Expr))
  | [] => return done.reverse
  | (name, e) :: fields => do
    let e ← e.lower
    lowerFields ((name, e) :: done) fields

/-- Lowers pairs of an effect and its function in order. -/
def lowerPairs (done : List (Expr × Expr)) :
    List (Expr × Expr) → Lower (List (Expr × Expr))
  | [] => return done.reverse
  | (effect, function) :: pairs => do
    let effect ← effect.lower
    let function ← function.lower
    lowerPairs ((effect, function) :: done) pairs

/-- The clauses of a handler with the lowering of their guards and bodies put off. -/
def pendingClauses : List (Clause Expr) → List (Expr × PendingClause)
  | [] => []
  | ⟨effect, param, resume, some guard, body, line⟩ :: clauses =>
    (effect, ⟨param, resume, line, some guard.lower, body.lower⟩) :: pendingClauses clauses
  | ⟨effect, param, resume, none, body, line⟩ :: clauses =>
    (effect, ⟨param, resume, line, none, body.lower⟩) :: pendingClauses clauses

end

/-- Lowers all handlers in a program. Errors that do not stop are reported together. -/
def Program.lower (program : Program) : Except (List CompileError) Program :=
  match lowerAll [] program {} with
  | .ok body s => if s.errors.isEmpty then .ok body else .error s.errors.reverse
  | .error fatal s => .error (fatal :: s.errors).reverse

end Resumable
