import Resumable.Proofs.Action
import Resumable.Proofs.Library.Local
import Resumable.Proofs.Library.Sound
import Resumable.Proofs.Library.Tasks
import Resumable.Proofs.Machine.Depth

/-!
The tasks of a machine that runs. Each of its threads is one that starts tasks and waits for them, and a
thread that waits for its task to end has drawn the number of that task. Whatever the machine does, it
does to the tasks nothing but steps of its threads.
-/

namespace Resumable

/-- The steps of one course after those of another. -/
theorem Tasking.Course.trans {first t t' : Tasking} {events events' : List TaskEvent}
    (h : first.Course events t) (h' : t.Course events' t') : first.Course (events' ++ events) t' := by
  induction h' with
  | start => exact h
  | step _ hstep ih => exact ih.step hstep

namespace Machine

/-- The tasks of a machine. Its threads are numbered from the outermost on. -/
def tasking (m : Machine) : Tasking where
  world := m.world
  drawn thread := m.waiting.reverse[thread]?.map Prod.fst

/-- The tasks of one machine become those of another by steps of the threads, and no number of a symbol
is given back. -/
structure Steps (m m' : Machine) : Prop where
  course : ∃ events, m.tasking.Course events m'.tasking
  symbols : m.world.supply.symbols ≤ m'.world.supply.symbols

variable {m m' m'' : Machine}

theorem Steps.refl (m : Machine) : m.Steps m :=
  ⟨⟨[], .start⟩, Nat.le_refl _⟩

theorem Steps.trans (h : m.Steps m') (h' : m'.Steps m'') : m.Steps m'' :=
  let ⟨_, hcourse⟩ := h.course
  let ⟨_, hcourse'⟩ := h'.course
  ⟨⟨_, hcourse.trans hcourse'⟩, Nat.le_trans h.symbols h'.symbols⟩

/-- What leaves the tasks and the threads that wait alone is one step. -/
theorem steps_of_tasks (htasks : m'.world.tasks = m.world.tasks) (hwaiting : m'.waiting = m.waiting)
    (hsymbols : m.world.supply.symbols ≤ m'.world.supply.symbols) : m.Steps m' := by
  refine ⟨⟨[.acted], ?_⟩, hsymbols⟩
  have hact := Tasking.Step.act (t := m.tasking) m'.world htasks
  have hsame : m'.tasking = { m.tasking with world := m'.world } := by rw [tasking, hwaiting, tasking]
  rw [hsame]
  exact .step .start hact

/-- The thread that runs does not matter. -/
theorem Steps.of_thread {thread : Thread} (h : Steps { m with thread } m') : m.Steps m' :=
  ⟨h.course, h.symbols⟩

/-- The thread that runs has drawn no number. -/
theorem drawn_running (m : Machine) : m.tasking.drawn m.waiting.length = none := by
  simp [tasking]

/-- The result of a task is kept when its thread ends, and then the thread that started it goes on. -/
theorem step_store {id : Int} {parent : Thread} {waiting : List (Int × Thread)}
    (hwaiting : m.waiting = (id, parent) :: waiting) (result : Except RuntimeError Value)
    (thread : Thread) :
    m.tasking.Step (.started waiting.length (Int64.ofInt id) result)
      (tasking { world := { m.world with tasks := m.world.tasks.store id result }, thread, waiting }) := by
  have hdrawn : m.tasking.drawn waiting.length = some id := by simp [tasking, hwaiting]
  have hstart := Tasking.Step.start waiting.length hdrawn result
  refine Eq.mp (congrArg _ ?_) hstart
  simp only [tasking, hwaiting, Tasking.mk.injEq, true_and]
  funext other
  rw [Function.update_apply, List.reverse_cons]
  split
  next hsame => simp [hsame]
  next hne => grind

/-- When the thread of a task ends, the thread that started it goes on. The value that its call of `spawn`
gives it is the number under which the result has been kept. -/
theorem told_of_finish {id : Int} {parent : Thread} {waiting : List (Int × Thread)}
    (hwaiting : m.waiting = (id, parent) :: waiting) (result : Except RuntimeError Value) :
    ∃ told m', m.finish result = .more m' ∧
      m.tasking.Step (.started waiting.length told result) m'.tasking ∧
      m'.thread = parent.push (.int told) ∧ m'.waiting = waiting := by
  refine ⟨Int64.ofInt id, _, ?_, m.step_store hwaiting result _, rfl, rfl⟩
  unfold finish
  rw [hwaiting]
  rfl

/-- A thread that starts a task draws its number and waits. -/
theorem steps_beginTask (m : Machine) (level : Level) :
    m.Steps
      { world := { m.world with tasks := m.world.tasks.draw.2 }
        thread := { limits := m.thread.limits, levels := [level] }
        waiting := (m.world.tasks.draw.1, m.thread) :: m.waiting } := by
  have hdraw := Tasking.Step.draw m.waiting.length m.drawn_running
  refine ⟨⟨_, .step .start (Eq.mp (congrArg _ ?_) hdraw)⟩, Nat.le_refl _⟩
  simp only [tasking, Tasking.mk.injEq, true_and]
  funext other
  rw [Function.update_apply, List.reverse_cons]
  split
  next hsame => simp [hsame]
  next hne => grind

/-- A thread that waits for the result of a task. -/
theorem steps_join (m : Machine) (id : Int64)
    (hsymbols : m.world.supply.symbols ≤ (m.world.join id).2.supply.symbols) :
    m.Steps { m with world := (m.world.join id).2 } :=
  ⟨⟨_, .step .start (.join m.waiting.length m.drawn_running id)⟩, hsymbols⟩

end Machine

/-- Functions of the library leave the tasks alone, but for the one that waits for a task. -/
theorem Native.invoke_tasks (f : Native) (name : String) (args : List Value) (w : World) :
    match f.invoke name args w with
    | .ok _ w' | .error _ w' => w'.tasks = w.tasks ∨ ∃ id, w' = (w.join id).2 := by
  by_cases hjoin : f = .join
  · subst hjoin
    match args with
    | [v] =>
      cases v with
      | int id =>
        refine (?_ : match Act.joinTask (.int id) w with
          | .ok _ w' | .error _ w' => w'.tasks = w.tasks ∨ ∃ id, w' = (w.join id).2)
        cases hrun : Act.joinTask (.int id) w <;> exact Or.inr ⟨id, by rw [World.join, hrun]⟩
      | _ => exact Or.inl rfl
    | [] | _ :: _ :: _ => exact Or.inl rfl
  · have hlocal := Native.invoke_local hjoin name args w w
    rw [show w.within w = w from rfl] at hlocal
    cases hrun : f.invoke name args w with
    | ok reply w' | error e w' =>
      rw [hrun, resultWithin] at hlocal
      injection hlocal with _ hsame
      rw [hsame]
      exact Or.inl rfl

namespace Exec

variable {α β : Type}

/-- An action does to the tasks nothing but steps of the threads, and gives no symbol back. -/
def Steps (x : Exec α) : Prop :=
  ∀ m, match x m with
    | .ok _ m' => m.Steps m'
    | .error _ m' => m.Steps m'

theorem steps_pure (a : α) : Steps (pure a : Exec α) :=
  .refl

theorem steps_throw (s : Stop) : Steps (throw s : Exec α) :=
  .refl

theorem steps_get : Steps (get : Exec Machine) :=
  .refl

theorem Steps.bind {x : Exec α} {f : α → Exec β} (hx : x.Steps) (hf : ∀ a, (f a).Steps) :
    (x >>= f).Steps := by
  intro m
  have hfirst := hx m
  cases hrun : x m with
  | ok a m' =>
    rw [hrun] at hfirst
    have hrest := hf a m'
    rw [bind_of_ok hrun]
    cases hend : f a m' <;> rw [hend] at hrest <;> exact hfirst.trans hrest
  | error s m' =>
    rw [hrun] at hfirst
    rwa [bind_of_error hrun]

/-- What an action leaves, whether it succeeds or stops. -/
theorem Steps.runs {x : Exec α} (hx : x.Steps) (m : Machine) :
    ∃ m', m.Steps m' ∧ ((∃ a, x m = .ok a m') ∨ ∃ s, x m = .error s m') := by
  have hsteps := hx m
  cases hrun : x m with
  | ok a m' =>
    rw [hrun] at hsteps
    exact ⟨m', hsteps, Or.inl ⟨a, rfl⟩⟩
  | error s m' =>
    rw [hrun] at hsteps
    exact ⟨m', hsteps, Or.inr ⟨s, rfl⟩⟩

theorem steps_modifyThread (f : Thread → Thread) : Steps (modifyThread f) :=
  fun _ => Machine.steps_of_tasks rfl rfl (Nat.le_refl _)

theorem steps_draw : Steps draw :=
  fun _ => Machine.steps_of_tasks rfl rfl (Nat.le_refl _)

theorem steps_drawLabel : Steps drawLabel :=
  fun _ => Machine.steps_of_tasks rfl rfl (Nat.le_refl _)

theorem steps_push (v : Value) : Steps (push v) :=
  steps_modifyThread _

theorem steps_beginCall (callee : Value) (args : List Value) (line : Nat) (purpose : Purpose) :
    Steps (beginCall callee args line purpose) :=
  steps_modifyThread _

theorem steps_pop : Steps pop := by
  refine .bind steps_get fun m => ?_
  split
  · exact (steps_modifyThread _).bind fun _ => steps_pure _
  · exact steps_throw _

theorem steps_popMany (n : Nat) : Steps (popMany n) := by
  refine .bind steps_get fun m => ?_
  simp only []
  split
  · exact steps_throw _
  · exact .bind steps_get fun _ => (steps_modifyThread _).bind fun _ => steps_pure _

theorem steps_topFrame : Steps topFrame := by
  refine .bind steps_get fun m => ?_
  split
  · exact steps_pure _
  · exact steps_throw _

theorem steps_baseDepth : Steps baseDepth := by
  refine .bind steps_get fun m => ?_
  split <;> exact steps_pure _

theorem steps_invoke (f : Native) (name : String) (args : List Value) :
    Steps (act (f.invoke name args)) := by
  intro m
  have htasks := f.invoke_tasks name args m.world
  have honward := Native.invoke_onward (f := f) (fun _ _ => trivial) name args m.world
  rw [act]
  cases hrun : f.invoke name args m.world with
  | ok reply w' | error e w' =>
    rw [hrun] at htasks honward
    obtain htasks | ⟨id, rfl⟩ := htasks
    · exact Machine.steps_of_tasks htasks rfl honward.symbols
    · exact m.steps_join id honward.symbols

theorem steps_withArity {full : Exec Transfer} (hfull : full.Steps) (callee : Value) (name : String)
    (arity : Nat) (args : List Value) : Steps (withArity callee name arity args full) := by
  unfold withArity
  split
  · exact .bind steps_draw fun _ => steps_pure _
  · split
    · exact steps_throw _
    · exact hfull

theorem steps_apply (callee : Value) (args : List Value) : Steps (apply callee args) := by
  unfold apply
  generalize callee.unapply args = f
  obtain ⟨callee, args⟩ := f
  cases callee with
  | closure id code env => exact steps_withArity (steps_pure _) _ _ _ _
  | native id name arity f =>
    refine steps_withArity ((steps_invoke f name args).bind fun reply => ?_) _ _ _ _
    cases reply <;> exact steps_pure _
  | effect e | continuation id k =>
    simp only []
    split
    · exact steps_pure _
    · exact steps_withArity (steps_pure _) _ _ _ _
  | _ => exact steps_throw _

theorem steps_pushFrame (closure : Value) (code : Code Value) (env : List (Symbol × Value))
    (args : List Value) (boundary : Bool) : Steps (pushFrame closure code env args boundary) := by
  refine .bind steps_get fun m => .bind steps_get fun _ => ?_
  split
  · exact steps_throw _
  · refine .bind steps_get fun _ => ?_
    split
    · exact steps_throw _
    · exact steps_modifyThread _

theorem steps_replaceFrame (closure : Value) (code : Code Value) (env : List (Symbol × Value))
    (args : List Value) : Steps (replaceFrame closure code env args) := by
  refine .bind steps_get fun m => ?_
  split
  · exact steps_throw _
  · exact steps_modifyThread _

theorem steps_capturedBindings (frame : Frame Value) (env : List (Symbol × Value))
    (captures : List Capture) : Steps (capturedBindings frame env captures) := by
  induction captures generalizing env with
  | nil => exact steps_pure _
  | cons c captures ih =>
    rw [capturedBindings]
    split
    · exact ih _
    · exact steps_throw _

theorem steps_makeClosure (code : Code Value) : Steps (makeClosure code) := by
  refine .bind steps_get fun m => ?_
  split
  · exact steps_throw _
  · exact (steps_capturedBindings _ _ _).bind fun _ => .bind steps_draw fun _ => steps_pure _

theorem steps_grant (line : Nat) (reply : Reply) : Steps (grant line reply) := by
  cases reply with
  | value v => exact steps_push v
  | call purpose callee args =>
    cases purpose with
    | pass => exact steps_beginCall _ _ _ _
    | «catch» => exact .bind steps_get fun _ => steps_beginCall _ _ _ _
  | spawn callee => exact fun m => m.steps_beginTask _
  | depth => exact .bind steps_get fun _ => steps_push _

theorem steps_dropFinished (tail : Bool) : Steps (dropFinished tail) := by
  refine .bind steps_baseDepth fun base => .bind steps_get fun m => ?_
  split
  · refine .bind steps_get fun _ => ?_
    split
    · exact steps_modifyThread _
    · exact steps_pure _
  · exact steps_pure _

theorem steps_resume (k : Continuation Value) (v : Value) : Steps (resume k v) := by
  refine .bind steps_get fun m => .bind steps_get fun _ => ?_
  split
  · exact steps_throw _
  · exact .bind steps_drawLabel fun _ => (steps_modifyThread _).bind fun _ => steps_push v

theorem steps_transferWith {raise : Effect → Value → Exec Unit}
    (hraise : ∀ effect payload, Steps (raise effect payload)) (line : Nat) (tail : Bool)
    (t : Transfer) : Steps (transferWith raise line tail t) := by
  cases t with
  | returned v => exact steps_push v
  | requested reply => exact steps_grant line reply
  | enter closure code env args =>
    cases tail with
    | true => exact steps_replaceFrame closure code env args
    | false => exact steps_pushFrame closure code env args false
  | raise effect payload => exact hraise effect payload
  | resume k v => exact (steps_dropFinished tail).bind fun _ => steps_resume k v

theorem steps_capture (index : Nat) (h : Installed Value) : Steps (capture index h) := by
  refine (Steps.bind steps_get fun _ => steps_pure _).bind fun t => ?_
  simp only []
  split
  · exact (steps_modifyThread _).bind fun _ => steps_pure _
  · exact steps_throw _

/-- The induction is on the handlers that may still get the effect: a clause may raise it again. -/
theorem steps_raiseWithin (line bound : Nat) (effect : Effect) (payload : Value) :
    Steps (raiseWithin line bound effect payload) := by
  induction bound generalizing effect payload with
  | zero => exact steps_throw _
  | succ bound ih =>
    refine .bind steps_baseDepth fun base => .bind steps_get fun m => ?_
    simp only []
    split
    · exact steps_throw _
    · refine (steps_capture _ _).bind fun k => .bind steps_draw fun id => ?_
      exact (steps_apply _ _).bind fun t => steps_transferWith ih line false t

theorem steps_call (callee : Value) (args : List Value) (line : Nat) (tail : Bool) :
    Steps (call callee args line tail) := by
  refine (steps_apply callee args).bind fun t => steps_transferWith ?_ line tail t
  exact fun effect payload => .bind steps_get fun _ => steps_raiseWithin _ _ _ _

theorem steps_install (clauses : List (Effect × Value)) (body : Value) :
    Steps (install clauses body) := by
  cases body with
  | closure id code env =>
    unfold install
    simp only []
    split
    · refine .bind steps_drawLabel fun _ => (steps_modifyThread _).bind fun _ => ?_
      exact steps_pushFrame _ _ _ _ _
    · exact steps_throw _
  | _ => exact steps_throw _

theorem steps_constant (index : Nat) : Steps (constant index) := by
  refine .bind steps_get fun m => ?_
  simp only []
  split
  · exact steps_pure _
  · exact steps_throw _

theorem steps_symbolConstant (index : Nat) : Steps (symbolConstant index) := by
  refine (steps_constant index).bind fun v => ?_
  split
  · exact steps_pure _
  · exact steps_throw _

theorem steps_fetch : Steps fetch := by
  refine .bind steps_topFrame fun frame => ?_
  simp only []
  split
  · exact steps_throw _
  · split
    · exact steps_throw _
    · split
      · exact steps_throw _
      · exact (steps_modifyThread _).bind fun _ => steps_pure _

theorem steps_returnValue : Steps returnValue := by
  refine .bind steps_pop fun v => .bind steps_get fun m => ?_
  split
  · exact steps_throw _
  · have hrest : Steps (do
        let base ← baseDepth
        if (← get).thread.frames.size ≤ base then return some v
        else
          push v
          return none) := by
      refine .bind steps_baseDepth fun base => .bind steps_get fun _ => ?_
      split
      · exact steps_pure _
      · exact (steps_push v).bind fun _ => steps_pure _
    refine (steps_modifyThread _).bind fun _ => ?_
    simp only []
    split
    · exact (steps_modifyThread _).bind fun _ => hrest
    · exact hrest

theorem steps_fieldsOf (fields : List (Symbol × Value)) (vs : List Value) :
    Steps (fieldsOf fields vs) := by
  match vs with
  | [] => exact steps_pure _
  | [key] => cases key <;> exact steps_pure _
  | key :: v :: rest =>
    cases key with
    | symbol name => exact steps_fieldsOf _ rest
    | _ => exact steps_throw _

theorem steps_clausesOf (done : List (Effect × Value)) (vs : List Value) :
    Steps (clausesOf done vs) := by
  match vs with
  | [] => exact steps_pure _
  | [key] => cases key <;> exact steps_pure _
  | key :: clause :: rest =>
    cases key with
    | effect e => exact steps_clausesOf _ rest
    | _ => exact steps_throw _

theorem steps_callTop (count line : Nat) (tail : Bool) : Steps (callTop count line tail) :=
  .bind steps_pop fun callee =>
    (steps_popMany count).bind fun args => steps_call callee args line tail

theorem steps_loadLocal (slot : Nat) : Steps (loadLocal slot) := by
  refine .bind steps_topFrame fun frame => ?_
  split
  · exact steps_push _
  · exact steps_throw _

theorem steps_storeLocal (slot : Nat) : Steps (storeLocal slot) :=
  .bind steps_pop fun _ => steps_modifyThread _

theorem steps_jumpTo (offset : Nat) : Steps (jumpTo offset) :=
  fun _ => Machine.steps_of_tasks rfl rfl (Nat.le_refl _)

theorem steps_loadCaptured (index : Nat) : Steps (loadCaptured index) := by
  refine (steps_symbolConstant index).bind fun name => .bind steps_topFrame fun frame => ?_
  split
  · exact steps_push _
  · exact steps_throw _

theorem steps_storeCaptured (index : Nat) : Steps (storeCaptured index) := by
  refine (steps_symbolConstant index).bind fun name => .bind steps_pop fun v => ?_
  refine .bind steps_topFrame fun frame => ?_
  split
  · exact steps_modifyThread _
  · exact steps_throw _

theorem steps_loadGlobal (index : Nat) : Steps (loadGlobal index) := by
  refine (steps_symbolConstant index).bind fun name => .bind steps_get fun m => ?_
  split
  · exact steps_push _
  · exact steps_throw _

theorem steps_storeGlobal (index : Nat) : Steps (storeGlobal index) :=
  (steps_symbolConstant index).bind fun _ => .bind steps_pop fun _ _ =>
    Machine.steps_of_tasks rfl rfl (Nat.le_refl _)

theorem steps_lambda (index : Nat) : Steps (lambda index) := by
  refine (steps_constant index).bind fun v => ?_
  split
  · exact (steps_makeClosure _).bind fun _ => steps_push _
  · exact steps_throw _

theorem steps_buildRecord (count : Nat) : Steps (buildRecord count) :=
  (steps_popMany _).bind fun vs => (steps_fieldsOf [] vs).bind fun _ => steps_push _

theorem steps_getField (index : Nat) : Steps (getField index) := by
  refine (steps_symbolConstant index).bind fun name => .bind steps_pop fun v => ?_
  split
  · split
    · exact steps_push _
    · exact steps_throw _
  · exact steps_throw _

theorem steps_makeHandler (count : Nat) : Steps (makeHandler count) :=
  (steps_popMany _).bind fun vs => (steps_clausesOf [] vs).bind fun _ =>
    .bind steps_draw fun _ => steps_push _

theorem steps_handle : Steps handle := by
  refine .bind steps_pop fun body => .bind steps_pop fun v => ?_
  split
  · exact steps_install _ _
  · exact steps_throw _

/-- An instruction does to the tasks nothing but steps of the threads. -/
theorem steps_execute (i : Fetched) : Steps (execute i) := by
  have hend {x : Exec Unit} (hx : x.Steps) : Steps (x >>= fun _ => return (none : Option Value)) :=
    hx.bind fun _ => steps_pure _
  unfold execute
  split
  · exact steps_returnValue
  · exact hend (steps_callTop _ _ _)
  · exact hend (steps_callTop _ _ _)
  · exact hend (steps_jumpTo _)
  · refine .bind steps_pop fun test => ?_
    simp only []
    split
    · exact steps_pure _
    · exact hend (steps_jumpTo _)
  · exact (steps_constant _).bind fun _ => hend (steps_push _)
  · exact (steps_constant _).bind fun _ => hend (steps_push _)
  · exact hend (steps_push _)
  · exact .bind steps_pop fun _ => steps_pure _
  · exact hend (steps_loadLocal _)
  · exact hend (steps_loadLocal _)
  · exact hend (steps_storeLocal _)
  · exact hend (steps_storeLocal _)
  · exact hend (steps_loadCaptured _)
  · exact hend (steps_loadCaptured _)
  · exact hend (steps_storeCaptured _)
  · exact hend (steps_storeCaptured _)
  · exact hend (steps_loadGlobal _)
  · exact hend (steps_loadGlobal _)
  · exact hend (steps_storeGlobal _)
  · exact hend (steps_storeGlobal _)
  · exact hend (steps_lambda _)
  · exact hend (steps_lambda _)
  · exact (steps_popMany _).bind fun _ => hend (steps_push _)
  · exact (steps_popMany _).bind fun _ => hend (steps_push _)
  · exact hend (steps_buildRecord _)
  · exact hend (steps_getField _)
  · exact hend (steps_getField _)
  · exact hend (steps_makeHandler _)
  · exact hend steps_handle

end Exec

namespace Machine

theorem steps_finish (m : Machine) (result : Except RuntimeError Value) :
    m.Steps (m.finish result).machine := by
  unfold finish
  split
  · split <;> exact .refl m
  next hwaiting => exact ⟨⟨_, .step .start (m.step_store hwaiting result _)⟩, Nat.le_refl _⟩

theorem steps_answer (m : Machine) (v : Value) : m.Steps (m.answer v).machine := by
  unfold answer
  split
  · exact m.steps_finish _
  next level levels _ =>
    cases level.purpose with
    | finish => exact .of_thread (steps_finish _ _)
    | pass | «catch» => exact steps_of_tasks rfl rfl (Nat.le_refl _)

theorem steps_unwind (m : Machine) (e : RuntimeError) (levels : List Level) :
    m.Steps (m.unwind e levels).machine := by
  induction levels generalizing m e with
  | nil => exact .of_thread (steps_finish _ _)
  | cons level levels ih =>
    rw [unwind]
    cases level.purpose with
    | finish => exact .of_thread (steps_finish _ _)
    | pass => exact .of_thread (ih _ _)
    | «catch» => exact steps_of_tasks rfl rfl (Nat.le_refl _)

theorem steps_stop (m : Machine) (line : Nat) (s : Stop) : m.Steps (m.stop line s).machine := by
  cases s with
  | error e => exact m.steps_unwind _ _
  | corrupt =>
    rw [stop, crash]
    split
    · exact .refl m
    · exact m.steps_finish _

/-- A move of a machine does to the tasks nothing but steps of its threads. -/
theorem steps_advance (m : Machine) : m.Steps m.advance.machine := by
  unfold advance
  split
  · exact m.steps_finish _
  next level levels _ =>
    cases level.phase with
    | made callee args =>
      have hopen : m.Steps { m with thread := m.thread.setPhase .opening } :=
        steps_of_tasks rfl rfl (Nat.le_refl _)
      refine hopen.trans ?_
      obtain ⟨m₁, hsteps, ⟨_, hrun⟩ | ⟨s, hrun⟩⟩ := (Exec.steps_call callee args 0 false).runs
        { m with thread := m.thread.setPhase .opening }
      · simp only [openCall, hrun]
        exact hsteps
      · simp only [openCall, hrun]
        exact hsteps.trans (m₁.steps_stop 0 s)
    | opening =>
      simp only [settleCall]
      split
      · exact steps_of_tasks rfl rfl (Nat.le_refl _)
      obtain ⟨m₁, hsteps, ⟨v, hrun⟩ | ⟨s, hrun⟩⟩ := Exec.steps_pop.runs m
      · rw [hrun]
        exact hsteps.trans (m₁.steps_answer v)
      · rw [hrun]
        exact hsteps.trans (m₁.steps_stop 0 s)
    | running =>
      simp only [runInstruction]
      obtain ⟨m₁, hfetch, ⟨i, hrun⟩ | ⟨s, hrun⟩⟩ := Exec.steps_fetch.runs m
      · rw [hrun]
        refine hfetch.trans ?_
        obtain ⟨m₂, hsteps, ⟨answer, hrun⟩ | ⟨s, hrun⟩⟩ := (Exec.steps_execute i).runs m₁
        · simp only [hrun]
          cases answer with
          | none => exact hsteps
          | some v => exact hsteps.trans (m₂.steps_answer v)
        · simp only [hrun]
          exact hsteps.trans (m₂.steps_stop i.line s)
      · rw [hrun]
        exact hfetch.trans (m₁.steps_stop 0 s)

/-- Whatever a machine does until it comes to an end, it does to the tasks nothing but steps of its
threads. -/
theorem steps_run {n : Nat} {m m' : Machine} {outcome : Outcome}
    (hrun : m.run n = some (outcome, m')) : m.Steps m' := by
  induction n generalizing m with
  | zero => cases hrun
  | succ n ih =>
    have hmove := m.steps_advance
    rw [run] at hrun
    generalize m.advance = next at hmove hrun
    cases next with
    | more m₁ => exact hmove.trans (ih hrun)
    | ended outcome' m₁ =>
      cases hrun
      exact hmove

/-- If there were no tasks at first, those of a machine that has come to an end agree with what has
happened. -/
theorem matches_run {n : Nat} {m m' : Machine} {outcome : Outcome} (htasks : m.world.tasks = {})
    (hwaiting : m.waiting = []) (hrun : m.run n = some (outcome, m'))
    (hfew : m'.world.tasks.count < 2 ^ 63) :
    ∃ events, m.tasking.Course events m'.tasking ∧ m'.tasking.Matches events := by
  obtain ⟨events, hcourse⟩ := (steps_run hrun).course
  have hfresh : m.tasking.Fresh := ⟨htasks, fun thread => by simp [tasking, hwaiting]⟩
  exact ⟨events, hcourse, hcourse.matches hfresh hfew⟩

end Machine

end Resumable
