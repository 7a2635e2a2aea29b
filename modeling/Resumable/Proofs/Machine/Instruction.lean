import Resumable.Proofs.Bytecode.Typing
import Resumable.Proofs.Machine.Handlers

/-!
What the instructions without calls do to a thread that shows activations.
-/

namespace Resumable

namespace Activation

/-- What an activation supplies to a function that is made in it. -/
def supply (a : Activation) (c : Capture) : Option Value :=
  match c.source with
  | .slot n => a.locals[n]?
  | .enclosing => Env.get? a.env c.name

/-- The bindings of the captured names, if an activation supplies them all. -/
def bindAll (a : Activation) (env : List (Symbol × Value)) :
    List Capture → Option (List (Symbol × Value))
  | [] => some env
  | c :: captures => (a.supply c).bind fun v => a.bindAll (Env.define env c.name v) captures

end Activation

/-- The field of a record. -/
def Value.project (v : Value) (s : Symbol) : Except RuntimeError Value :=
  match v with
  | .record fields =>
    match Env.get? fields s with
    | some v => .ok v
    | Option.none => .error (.typeError ("record has no field '" ++ s.name ++ "'"))
  | v => .error (.typeError ("cannot read field '" ++ s.name ++ "' of " ++ v.typeName))

/-- The clauses that pairs of an effect and a function stand for. -/
def clausesFrom : List (Value × Value) → Except RuntimeError (List (Effect × Value))
  | [] => .ok []
  | (.effect e, clause) :: pairs => (clausesFrom pairs).map fun clauses => (e, clause) :: clauses
  | (v, _) :: _ =>
    .error (.typeError ("handler clause expects an effect, got " ++ v.typeName))

theorem Value.project_eq_ok {v v' : Value} {s : Symbol} (hproject : v.project s = .ok v') :
    ∃ fields, v = .record fields ∧ Env.get? fields s = some v' := by
  unfold project at hproject
  split at hproject
  next fields =>
    split at hproject
    next hget =>
      cases hproject
      exact ⟨fields, rfl, hget⟩
    next => cases hproject
  next => cases hproject

theorem Value.project_eq_error {v : Value} {s : Symbol} {e : RuntimeError}
    (hproject : v.project s = .error e) : ∃ detail, e = .typeError detail := by
  unfold project at hproject
  split at hproject
  next =>
    split at hproject
    next => cases hproject
    next =>
      cases hproject
      exact ⟨_, rfl⟩
  next =>
    cases hproject
    exact ⟨_, rfl⟩

theorem clausesFrom_eq_ok {pairs : List (Value × Value)} {clauses : List (Effect × Value)}
    (hclauses : clausesFrom pairs = .ok clauses) :
    pairs = clauses.map fun c => (.effect c.1, c.2) := by
  induction pairs generalizing clauses with
  | nil =>
    cases hclauses
    rfl
  | cons p pairs ih =>
    obtain ⟨key, clause⟩ := p
    cases key with
    | effect e =>
      rw [clausesFrom] at hclauses
      cases hrest : clausesFrom pairs with
      | ok rest =>
        rw [hrest] at hclauses
        cases hclauses
        rw [ih hrest, List.map_cons]
      | error e =>
        rw [hrest] at hclauses
        cases hclauses
    | _ => cases hclauses

theorem clausesFrom_eq_error {pairs : List (Value × Value)} {e : RuntimeError}
    (hclauses : clausesFrom pairs = .error e) : ∃ detail, e = .typeError detail := by
  induction pairs with
  | nil => cases hclauses
  | cons p pairs ih =>
    obtain ⟨key, clause⟩ := p
    cases key with
    | effect e =>
      rw [clausesFrom] at hclauses
      cases hrest : clausesFrom pairs with
      | ok rest =>
        rw [hrest] at hclauses
        cases hclauses
      | error e =>
        rw [hrest] at hclauses
        cases hclauses
        exact ih hrest
    | _ =>
      cases hclauses
      exact ⟨_, rfl⟩

/-- The machine after an identity has been drawn. -/
def Machine.drawn (m : Machine) : Machine :=
  { m with world := m.world.draw.2 }

/-- The machine with another value of a global variable. -/
def Machine.setGlobal (m : Machine) (s : Symbol) (v : Value) : Machine :=
  { m with world := { m.world with globals := m.world.globals.set s v } }

namespace Exec

variable (m : Machine) (acts pre : List Activation) (a : Activation) (extra : List Value)
  (start line : Nat)

/-- Wide forms do the same as narrow ones. -/
theorem execute_narrow (op : Op) (operand : Nat) :
    execute { op, operand, start, line } = execute { op := op.narrow, operand, start, line } := by
  cases op <;> rfl

theorem execute_ret (operand : Nat) : execute { op := .ret, operand, start, line } = returnValue :=
  rfl

theorem execute_jump (operand : Nat) :
    execute { op := .jump, operand, start, line } (m.showing (pre ++ [a]) extra) =
      .ok none (m.showing (pre ++ [{ a with ip := start + operand }]) extra) :=
  bind_of_ok (jumpTo_showing m pre a extra (start + operand))

theorem execute_jumpIfFalse (operand : Nat) (v : Value) :
    execute { op := .jumpIfFalse, operand, start, line } (m.showing (pre ++ [a]) (extra ++ [v])) =
      .ok none (m.showing
        (pre ++ [if v.isTruthy then a else { a with ip := start + operand }]) extra) := by
  simp only [execute]
  rw [bind_of_ok (pop_showing m (pre ++ [a]) extra v)]
  cases hv : v.isTruthy with
  | true => rfl
  | false => exact bind_of_ok (jumpTo_showing m pre a extra (start + operand))

theorem execute_constant {operand : Nat} {v : Value}
    (hconstant : a.code.constants[operand]? = some v) :
    execute { op := .constant, operand, start, line } (m.showing (pre ++ [a]) extra) =
      .ok none (m.showing (pre ++ [a]) (extra ++ [v])) := by
  simp only [execute]
  rw [bind_of_ok (constant_showing m pre a extra hconstant), bind_of_ok (push_showing m _ extra v)]
  rfl

theorem execute_pushNone (operand : Nat) :
    execute { op := .pushNone, operand, start, line } (m.showing acts extra) =
      .ok none (m.showing acts (extra ++ [.none])) :=
  bind_of_ok (push_showing m acts extra .none)

theorem execute_pop (operand : Nat) (v : Value) :
    execute { op := .pop, operand, start, line } (m.showing acts (extra ++ [v])) =
      .ok none (m.showing acts extra) :=
  bind_of_ok (pop_showing m acts extra v)

theorem execute_loadLocal {slot : Nat} {v : Value} (hlocal : a.locals[slot]? = some v) :
    execute { op := .loadLocal, operand := slot, start, line } (m.showing (pre ++ [a]) extra) =
      .ok none (m.showing (pre ++ [a]) (extra ++ [v])) := by
  have hlocal' : (a.frame (heightOf pre)).locals[slot]? = some v := hlocal
  simp only [execute, loadLocal]
  rw [bind_assoc, bind_of_ok (topFrame_showing m pre a extra), hlocal']
  exact bind_of_ok (push_showing m _ extra v)

theorem execute_storeLocal (slot : Nat) (v : Value) :
    execute { op := .storeLocal, operand := slot, start, line }
        (m.showing (pre ++ [a]) (extra ++ [v])) =
      .ok none (m.showing (pre ++ [{ a with locals := setSlot a.locals slot v }]) extra) := by
  have hset : modifyFrame (fun f => { f with locals := setSlot f.locals slot v })
      (m.showing (pre ++ [a]) extra) =
      .ok () (m.showing (pre ++ [{ a with locals := setSlot a.locals slot v }]) extra) :=
    modifyFrame_showing m pre a extra rfl rfl rfl
  simp only [execute, storeLocal]
  rw [bind_assoc, bind_of_ok (pop_showing m (pre ++ [a]) extra v), bind_of_ok hset]
  rfl

theorem execute_loadCaptured {operand : Nat} {s : Symbol} {v : Value}
    (hconstant : a.code.constants[operand]? = some (.symbol s)) (henv : Env.get? a.env s = some v) :
    execute { op := .loadCaptured, operand, start, line } (m.showing (pre ++ [a]) extra) =
      .ok none (m.showing (pre ++ [a]) (extra ++ [v])) := by
  have henv' : Env.get? (a.frame (heightOf pre)).env s = some v := henv
  simp only [execute, loadCaptured]
  rw [bind_assoc, bind_of_ok (symbolConstant_showing m pre a extra hconstant), bind_assoc,
    bind_of_ok (topFrame_showing m pre a extra), henv']
  exact bind_of_ok (push_showing m _ extra v)

theorem execute_storeCaptured {operand : Nat} {s : Symbol} {env : List (Symbol × Value)} (v : Value)
    (hconstant : a.code.constants[operand]? = some (.symbol s))
    (henv : Env.set? a.env s v = some env) :
    execute { op := .storeCaptured, operand, start, line } (m.showing (pre ++ [a]) (extra ++ [v])) =
      .ok none (m.showing (pre ++ [{ a with env }]) extra) := by
  have henv' : Env.set? (a.frame (heightOf pre)).env s v = some env := henv
  have hset : modifyFrame (fun f => { f with env }) (m.showing (pre ++ [a]) extra) =
      .ok () (m.showing (pre ++ [{ a with env }]) extra) :=
    modifyFrame_showing m pre a extra rfl rfl rfl
  simp only [execute, storeCaptured]
  rw [bind_assoc, bind_of_ok (symbolConstant_showing m pre a (extra ++ [v]) hconstant), bind_assoc,
    bind_of_ok (pop_showing m (pre ++ [a]) extra v), bind_assoc,
    bind_of_ok (topFrame_showing m pre a extra), henv']
  exact bind_of_ok hset

/-- The load of a global variable is the one instruction that finds a variable undefined. -/
theorem execute_loadGlobal {operand : Nat} {s : Symbol}
    (hconstant : a.code.constants[operand]? = some (.symbol s)) :
    execute { op := .loadGlobal, operand, start, line } (m.showing (pre ++ [a]) extra) =
      match m.world.globals.get? s with
      | some v => .ok none (m.showing (pre ++ [a]) (extra ++ [v]))
      | none => .error (.error (.undefinedVariable s.name)) (m.showing (pre ++ [a]) extra) := by
  simp only [execute, loadGlobal]
  rw [bind_assoc, bind_of_ok (symbolConstant_showing m pre a extra hconstant), bind_assoc,
    bind_get_run, Machine.showing_world]
  cases m.world.globals.get? s with
  | some v => exact bind_of_ok (push_showing m _ extra v)
  | none => rfl

theorem execute_storeGlobal {operand : Nat} {s : Symbol} (v : Value)
    (hconstant : a.code.constants[operand]? = some (.symbol s)) :
    execute { op := .storeGlobal, operand, start, line } (m.showing (pre ++ [a]) (extra ++ [v])) =
      .ok none ((m.setGlobal s v).showing (pre ++ [a]) extra) := by
  simp only [execute, storeGlobal]
  rw [bind_assoc, bind_of_ok (symbolConstant_showing m pre a (extra ++ [v]) hconstant), bind_assoc,
    bind_of_ok (pop_showing m (pre ++ [a]) extra v)]
  rfl

theorem capturedBindings_of_bindAll {env env' : List (Symbol × Value)} {captures : List Capture}
    (hbound : a.bindAll env captures = some env') (height : Nat) :
    capturedBindings (a.frame height) env captures m = .ok env' m := by
  induction captures generalizing env with
  | nil =>
    cases hbound
    rfl
  | cons c captures ih =>
    rw [Activation.bindAll, Option.bind_eq_some_iff] at hbound
    obtain ⟨v, hv, hbound⟩ := hbound
    have hstep : capturedBindings (a.frame height) env (c :: captures) =
        match a.supply c with
        | some v => capturedBindings (a.frame height) (Env.define env c.name v) captures
        | none => malformed ("capture '" ++ c.name.name ++ "' has no source") := rfl
    rw [hstep, hv]
    exact ih hbound

theorem execute_lambda {operand id : Nat} {f : Code Value} {env : List (Symbol × Value)}
    (hconstant : a.code.constants[operand]? = some (.code id f))
    (hbound : a.bindAll [] f.captures = some env) :
    execute { op := .lambda, operand, start, line } (m.showing (pre ++ [a]) extra) =
      .ok none (m.drawn.showing (pre ++ [a]) (extra ++ [.closure m.world.draw.1 f env])) := by
  have htop : (m.showing (pre ++ [a]) extra).thread.frames.back? = some (a.frame (heightOf pre)) := by
    simp
  have hmake : makeClosure f (m.showing (pre ++ [a]) extra) =
      .ok (.closure m.world.draw.1 f env) (m.drawn.showing (pre ++ [a]) extra) := by
    simp only [makeClosure, bind_get_run, htop]
    rw [bind_of_ok (capturedBindings_of_bindAll _ a hbound _), bind_of_ok (draw_run _)]
    rfl
  simp only [execute, lambda]
  rw [bind_assoc, bind_of_ok (constant_showing m pre a extra hconstant)]
  simp only []
  rw [bind_assoc, bind_of_ok hmake]
  exact bind_of_ok (push_showing m.drawn _ extra _)

theorem execute_buildList {n : Nat} {vs : List Value} (hlength : vs.length = n) :
    execute { op := .buildList, operand := n, start, line } (m.showing acts (extra ++ vs)) =
      .ok none (m.showing acts (extra ++ [.list vs])) := by
  simp only [execute]
  rw [bind_of_ok (popMany_showing m acts extra hlength)]
  exact bind_of_ok (push_showing m acts extra _)

theorem execute_buildTuple {n : Nat} {vs : List Value} (hlength : vs.length = n) :
    execute { op := .buildTuple, operand := n, start, line } (m.showing acts (extra ++ vs)) =
      .ok none (m.showing acts (extra ++ [.tuple vs])) := by
  simp only [execute]
  rw [bind_of_ok (popMany_showing m acts extra hlength)]
  exact bind_of_ok (push_showing m acts extra _)

/-- Names and values in turn. -/
def keyed (fields : List (Symbol × Value)) : List Value :=
  fields.flatMap fun f => [.symbol f.1, f.2]

theorem fieldsOf_keyed (done fields : List (Symbol × Value)) :
    fieldsOf done (keyed fields) m =
      .ok (fields.foldl (fun done f => setField done f.1 f.2) done) m := by
  induction fields generalizing done with
  | nil => rfl
  | cons f fields ih => exact ih (setField done f.1 f.2)

theorem length_keyed (fields : List (Symbol × Value)) :
    (keyed fields).length = 2 * fields.length := by
  simp [keyed, Nat.mul_comm]

theorem execute_buildRecord (fields : List (Symbol × Value)) :
    execute { op := .buildRecord, operand := fields.length, start, line }
        (m.showing acts (extra ++ keyed fields)) =
      .ok none (m.showing acts
        (extra ++ [.record (fields.foldl (fun done f => setField done f.1 f.2) [])])) := by
  simp only [execute, buildRecord]
  rw [bind_assoc, bind_of_ok (popMany_showing m acts extra (length_keyed fields)), bind_assoc,
    bind_of_ok (fieldsOf_keyed _ [] fields)]
  exact bind_of_ok (push_showing m acts extra _)

/-- Reading a field gives the field, or complains about the type. -/
theorem execute_getField {operand : Nat} {s : Symbol} (v : Value)
    (hconstant : a.code.constants[operand]? = some (.symbol s)) :
    execute { op := .getField, operand, start, line } (m.showing (pre ++ [a]) (extra ++ [v])) =
      match v.project s with
      | .ok v' => .ok none (m.showing (pre ++ [a]) (extra ++ [v']))
      | .error e => .error (.error e) (m.showing (pre ++ [a]) extra) := by
  simp only [execute, getField]
  rw [bind_assoc, bind_of_ok (symbolConstant_showing m pre a (extra ++ [v]) hconstant), bind_assoc,
    bind_of_ok (pop_showing m (pre ++ [a]) extra v)]
  cases v with
  | record fields =>
    simp only [Value.project]
    cases Env.get? fields s with
    | some v' => exact bind_of_ok (push_showing m _ extra v')
    | none => rfl
  | _ => rfl

/-- The clauses of a handler are collected, unless something stands in the place of an effect. -/
theorem clausesOf_run (done : List (Effect × Value)) (pairs : List (Value × Value)) :
    clausesOf done (pairs.flatMap fun p => [p.1, p.2]) m =
      match clausesFrom pairs with
      | .ok clauses => .ok (done.reverse ++ clauses) m
      | .error e => .error (.error e) m := by
  induction pairs generalizing done with
  | nil => simp [clausesOf, clausesFrom]
  | cons p pairs ih =>
    obtain ⟨key, clause⟩ := p
    cases key with
    | effect e =>
      refine (ih ((e, clause) :: done)).trans ?_
      rw [clausesFrom]
      cases clausesFrom pairs with
      | ok clauses => simp [Except.map]
      | error e => rfl
    | _ => rfl

theorem execute_makeHandler {n : Nat} (pairs : List (Value × Value)) (hlength : pairs.length = n) :
    execute { op := .makeHandler, operand := n, start, line }
        (m.showing acts (extra ++ pairs.flatMap fun p => [p.1, p.2])) =
      match clausesFrom pairs with
      | .ok clauses =>
        .ok none (m.drawn.showing acts (extra ++ [.handler m.world.draw.1 clauses]))
      | .error e => .error (.error e) (m.showing acts extra) := by
  have hcount : (pairs.flatMap fun p => [p.1, p.2]).length = 2 * n := by
    simp [← hlength, Nat.mul_comm]
  have hclauses := clausesOf_run (m.showing acts extra) [] pairs
  simp only [execute, makeHandler]
  rw [bind_assoc, bind_of_ok (popMany_showing m acts extra hcount), bind_assoc]
  cases hfrom : clausesFrom pairs with
  | ok clauses =>
    rw [hfrom] at hclauses
    rw [bind_of_ok hclauses, bind_assoc, bind_of_ok (draw_run _)]
    exact bind_of_ok (push_showing m.drawn acts extra _)
  | error e =>
    rw [hfrom] at hclauses
    exact bind_of_error hclauses

theorem execute_handle (operand id : Nat) (clauses : List (Effect × Value)) (body : Value) :
    execute { op := .handle, operand, start, line }
        (m.showing acts (extra ++ [.handler id clauses, body])) =
      (do install clauses body; return none : Exec (Option Value)) (m.showing acts extra) := by
  have hsplit : extra ++ [Value.handler id clauses, body] =
      extra ++ [.handler id clauses] ++ [body] := by simp
  simp only [execute, handle]
  rw [hsplit, bind_assoc, bind_of_ok (pop_showing m acts _ body), bind_assoc,
    bind_of_ok (pop_showing m acts extra _)]

/-- A call takes the function and its arguments from the stack. -/
theorem callTop_showing {n : Nat} {args : List Value} (hlength : args.length = n) (callee : Value)
    (tail : Bool) :
    callTop n line tail (m.showing acts (extra ++ (args ++ [callee]))) =
      call callee args line tail (m.showing acts extra) := by
  rw [← List.append_assoc, callTop, bind_of_ok (pop_showing m acts (extra ++ args) callee),
    bind_of_ok (popMany_showing m acts extra hlength)]

end Exec

end Resumable
