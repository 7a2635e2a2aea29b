import Resumable.Proofs.Engine.Bracket
import Resumable.Proofs.Machine.Suspension
import Resumable.Proofs.Machine.TwinTasks

/-!
The outcome of a call does not depend on where it is made: on an idle engine, or by a function of an
embedding deep inside the bodies of handlers. It depends on global variables and cells only, as long as
no function is called that tells the number of frames or the time, or that has to do with tasks.
-/

namespace Resumable

/-- Functions that depend on more than global variables, cells and arguments: on the number of frames, or
on tasks and time. -/
def Native.isPlaced : Native → Bool
  | hook .depth => true
  | f => f.isTimed

namespace World

/-- The objects that two shared states have in common. Their identities have been given out in both, and
correspond one to one. -/
structure Common (w w' : World) where
  same : Nat → Nat → Prop
  unique : ∀ {i j i' j' : Nat}, same i i' → same j j' → (i' = j' ↔ i = j)
  exist : ∀ {i i' : Nat}, same i i' → i < w.supply.objects ∧ i' < w'.supply.objects

variable {w w' : World}

namespace Common

/-- How two machines correspond that go on from two shared states. Objects that are made from then on
correspond in the order in which they are made, and the same is printed. Tasks and time need not
correspond. -/
def pairing (c : w.Common w') : Pairing where
  ids i i' := c.same i i' ∨ ∃ k, i = w.supply.objects + k ∧ i' = w'.supply.objects + k
  unique := by
    rintro i j i' j' (hi | ⟨k, rfl, rfl⟩) (hj | ⟨l, rfl, rfl⟩)
    · exact c.unique hi hj
    · have hknown := c.exist hi
      omega
    · have hknown := c.exist hj
      omega
    · omega
  supply n n' := ∃ k, n = w.supply.objects + k ∧ n' = w'.supply.objects + k
  fresh := by
    rintro _ _ ⟨k, rfl, rfl⟩
    exact ⟨Or.inr ⟨k, rfl, rfl⟩, k + 1, rfl, rfl⟩
  output s s' := ∃ t, s = w.output ++ t ∧ s' = w'.output ++ t
  append := by
    rintro _ _ t ⟨u, rfl, rfl⟩
    exact ⟨u ++ t, String.append_assoc, String.append_assoc⟩
  whole := false
  hidden := false

variable {c : w.Common w'}

theorem tells_pairing : c.pairing.tells = Native.isPlaced := by
  funext f
  cases f with
  | hook h => cases h <;> rfl
  | _ => rfl

/-- Global variables and cells are the same, up to the identities of objects. -/
structure SameMemory (c : w.Common w') : Prop where
  globals : ∀ s, Option.Rel (Value.Twins .clause c.pairing) (w.globals.get? s) (w'.globals.get? s)
  cells : List.Forall₂ (Value.Twins .clause c.pairing) w.cells.toList w'.cells.toList

theorem SameMemory.related (hmemory : c.SameMemory) : w.Related (twinning .clause c.pairing) w' :=
  ⟨hmemory.globals, hmemory.cells, ⟨0, rfl, rfl⟩, ⟨"", by simp, by simp⟩, nofun⟩

end Common

/-- States that have given out the same identities have all objects in common. -/
def commonOf (hsupply : w'.supply.objects = w.supply.objects) : w.Common w' where
  same i i' := i' = i ∧ i < w.supply.objects
  unique := by
    rintro i j _ _ ⟨rfl, _⟩ ⟨rfl, _⟩
    rfl
  exist := by
    rintro i _ ⟨rfl, hi⟩
    exact ⟨hi, hsupply ▸ hi⟩

variable {hsupply : w'.supply.objects = w.supply.objects} {v : Value}

/-- Sound values are then the same as themselves. -/
theorem twins_commonOf (hv : v.Sound .clause) : v.Twins .clause (commonOf hsupply).pairing v := by
  refine Value.Reflexive.twins ⟨fun hv => hv.shape, fun hv hpart => hv.part hpart, fun {_ i} _ _ => ?_⟩
    rfl hv
  obtain hi | hi := Nat.lt_or_ge i w.supply.objects
  · exact Or.inl ⟨rfl, hi⟩
  · refine Or.inr ⟨i - w.supply.objects, ?_, ?_⟩
    · omega
    · omega

theorem sameMemory_commonOf (hw : w.Sound .clause) (hglobals : w'.globals = w.globals)
    (hcells : w'.cells = w.cells) : (commonOf hsupply).SameMemory := by
  refine ⟨fun s => ?_, ?_⟩
  · rw [hglobals]
    cases hget : w.globals.get? s with
    | some v => exact .some (twins_commonOf (hw.globals s v hget))
    | none => exact .none
  · rw [hcells]
    exact List.forall₂_same.2 fun v hv => twins_commonOf (hw.cells v (Array.mem_toList_iff.1 hv))

end World

namespace Machine

/-- Machines between two moves of a run in an embedding. -/
inductive Arises (m : Machine) : Prop
  | intro {e : Engine} {seen : List Value} {start : Machine} (he : e.Hosted seen)
    (hstarts : e.Starts seen start) (hreaches : start.Reaches m)

theorem Arises.sound {m : Machine} (hm : m.Arises) : m.Sound .clause := by
  obtain ⟨he, hstarts, hreaches⟩ := hm
  exact (he.starts hstarts).reaches hreaches

/-- A machine that is about to make a call, with another call in its place. -/
def instead (m : Machine) (v : Value) (vs : List Value) : Machine :=
  m.setPhase (.made v vs)

variable {m m' : Machine} {level level' : Level} {outer outer' : List Level}
  {callee callee' v v' : Value} {args args' vs vs' : List Value}

/-- What stands below a call that a sound machine is about to make. -/
theorem Sound.instead_shows (hm : m.Sound .clause) (hlevels : m.thread.levels = level :: outer)
    (hphase : level.phase = .made callee args) (v : Value) (vs : List Value) :
    ∃ below, level.Above below ∧ m.thread = m.thread.showing below [] ∧
      (m.instead v vs).thread.levels = { level with phase := .made v vs } :: outer ∧
      (m.instead v vs).thread = (m.instead v vs).thread.showing below [] := by
  obtain ⟨below, above, extra, level₁, levels, hready, hunderway, hshows⟩ := hm.ready
  rw [hready.calls] at hlevels
  cases hlevels
  rw [hphase] at hunderway
  cases hunderway with
  | entered hentered => simp at hentered
  | made =>
    rw [List.append_nil] at hshows
    refine ⟨below, hready.above, congrArg Machine.thread hshows, ?_, ?_⟩
    · simp only [instead, Machine.setPhase, Thread.setPhase, hready.calls]
    · have hthread := congrArg Machine.thread (setPhase_showing hshows (.made v vs))
      exact hthread

/-- The footing of two calls that are about to be made. -/
def footing (below below' : List Activation) (level level' : Level) (outer outer' : List Level) :
    Footing where
  low := below
  low' := below'
  outer := outer
  outer' := outer'
  first := fun first first' =>
    (∃ phase, first = { level with phase }) ∧ ∃ phase, first' = { level' with phase }
  stable := by
    rintro _ _ phase phase' ⟨⟨_, rfl⟩, _, rfl⟩
    exact ⟨⟨phase, rfl⟩, phase', rfl⟩

theorem deliver_setPhase (phase : Phase) (result : Except RuntimeError Value) :
    m.deliver { level with phase } result = m.deliver level result := by
  cases result <;> rfl

/-- An effect that is raised in the course of a call, on the thread of the call, is answered by no
handler that was there when the call was made. -/
theorem Sound.answered_within {κ : Kind} {s x y : Machine} {start : List Activation} {effect : Effect}
    {payload clause : Value} {j : Nat} {h : Installed Value} (hs : s.Sound κ)
    (hlevels : s.thread.levels = level :: outer) (hstart : level.Above start)
    (hextends : s.thread.Extends start) (hduring : s.During x) (hwaiting : x.waiting = s.waiting)
    (hraises : x.Raises y effect payload) (hanswers : y.thread.Answers effect j h clause) :
    start.length ≤ h.depth := by
  obtain ⟨hx, hcourse⟩ := hduring.inCourse hs hlevels hstart hextends
  obtain ⟨_, _, _, hbase, _⟩ := hraises.shows hx
  have hvisible := hanswers.visible
  rw [hbase] at hvisible
  cases hcourse with
  | running _ hbears =>
    obtain ⟨inner, phase, hcalls⟩ := hbears.calls
    obtain ⟨below, _, _, innermost, levels, hready, _⟩ := hx.ready
    rw [hready.calls] at hcalls hvisible
    have hshorter := hready.suspended.shorter hready.above hcalls hstart
    have hdepth : innermost.depth ≤ h.depth := hvisible
    rw [hready.above.depth] at hdepth
    exact Nat.le_trans hshorter.length hdepth
  | waiting hmore =>
    have hlength := congrArg List.length (hmore.symm.trans hwaiting)
    simp at hlength
    omega

/-- Two calls of the same value with the same arguments, made anywhere in runs in embeddings where the
global variables and cells are the same. As long as neither finds no room and no function is called that
depends on the place, they go on side by side: both are in progress and the same has been printed and
stored, or both have returned, in the same move, with the same value or with the same failure, and each
has left its thread as it was. No handler outside a call answers an effect that is raised in it. -/
theorem Arises.same_outcome {n : Nat} (hm : m.Arises) (hm' : m'.Arises) (c : m.world.Common m'.world)
    (hmemory : c.SameMemory) (hlevels : m.thread.levels = level :: outer)
    (hphase : level.phase = .made callee args) (hlevels' : m'.thread.levels = level' :: outer')
    (hphase' : level'.phase = .made callee' args') (hv : v.Arises) (hvs : ∀ w ∈ vs, w.Arises)
    (hsame : v.Twins .clause c.pairing v') (hsames : List.Forall₂ (Value.Twins .clause c.pairing) vs vs')
    (hfree : ∀ i < n, Alongside .clause c.pairing (m.instead v vs) (m'.instead v' vs') i →
      ¬ ((m.instead v vs).after i).Overflowing ∧ ¬ ((m'.instead v' vs').after i).Overflowing ∧
        ¬ ((m.instead v vs).after i).Invokes Native.isPlaced) :
    (Alongside .clause c.pairing (m.instead v vs) (m'.instead v' vs') n ∨
      ∃ i < n, Alongside .clause c.pairing (m.instead v vs) (m'.instead v' vs') i ∧
        ∃ result result' x x',
          ((m.instead v vs).after i).advance = x.deliver level result ∧
          ((m'.instead v' vs').after i).advance = x'.deliver level' result' ∧
          OutcomesRelated (Value.Twins .clause c.pairing) result result' ∧
          x.world.Related (twinning .clause c.pairing) x'.world ∧
          m.Restores outer x ∧ m'.Restores outer' x') ∧
      ∀ x y effect payload j h clause, (m.instead v vs).During x → x.waiting = m.waiting →
        x.Raises y effect payload → y.thread.Answers effect j h clause →
        m.thread.frames.size ≤ h.depth := by
  have hsound := hm.sound
  obtain ⟨below, habove, hshows, hcalls, hshown⟩ := hsound.instead_shows hlevels hphase v vs
  obtain ⟨below', habove', hshows', hcalls', hshown'⟩ :=
    hm'.sound.instead_shows hlevels' hphase' v' vs'
  refine ⟨?_, ?_⟩
  · have hunder : Under .clause c.pairing (footing below below' level level' outer outer')
        { level with phase := .made v vs } { level' with phase := .made v' vs' } below below' outer
        outer' :=
      .first ⟨⟨_, rfl⟩, _, rfl⟩ ⟨habove.depth, habove.height, habove.handlers⟩
        ⟨habove'.depth, habove'.height, habove'.handlers⟩
    have htogether : Together .clause c.pairing (footing below below' level level' outer outer')
        (m.instead v vs).waiting (m'.instead v' vs').waiting (m.instead v vs) (m'.instead v' vs') :=
      ⟨hmemory.related, _, .nil,
        Thread.runTogether_made hcalls hcalls' hunder rfl rfl hsame hsames hshown hshown'⟩
    rw [← c.tells_pairing] at hfree
    obtain ⟨halong, _⟩ | ⟨i, hi, halong, _, _, result, result', x, x', hreturn, hmove, hmove'⟩ :=
      htogether.goes_on (Or.inr rfl) (fun hκ => absurd rfl hκ) hcalls hcalls' hfree
    · exact Or.inl halong
    · obtain ⟨⟨phase, rfl⟩, phase', rfl⟩ := hreturn.first
      rw [deliver_setPhase] at hmove hmove'
      exact Or.inr ⟨i, hi, halong, result, result', x, x', hmove, hmove', hreturn.result,
        hreturn.world, restores_of_shows hshows hreturn.shows hreturn.levels hreturn.waiting,
        restores_of_shows hshows' hreturn.shows' hreturn.levels' hreturn.waiting'⟩
  · intro x y effect payload j h clause hduring hwaiting hraises hanswers
    have hmade : (m.instead v vs).Sound .clause :=
      hsound.make hlevels hphase hv.sound fun w hw => (hvs w hw).sound
    have hextends : (m.instead v vs).thread.Extends below := by
      rw [hshown]
      exact Thread.extends_self _ below []
    have hwithin := hmade.answered_within hcalls ⟨habove.depth, habove.height, habove.handlers⟩ hextends
      hduring hwaiting hraises hanswers
    rw [hshows]
    simpa using hwithin

/-- Whether an action has found no room. -/
def findsNoRoom {α : Type} : EStateM.Result Stop Machine α → Bool
  | .error (.error (.stackOverflow _)) _ => true
  | _ => false

theorem not_findsNoRoom {α : Type} {r : EStateM.Result Stop Machine α} (hr : findsNoRoom r = false)
    (detail : String) (x : Machine) : r ≠ .error (.error (.stackOverflow detail)) x := by
  rintro rfl
  cases hr

/-- What the next move of a machine does that finds no room. -/
theorem Overflowing.inv (hover : m.Overflowing) (hlevels : m.thread.levels = level :: outer) :
    ∃ detail x, (∃ callee args, level.phase = .made callee args ∧
        Exec.call callee args 0 false (m.setPhase .opening) =
          .error (.error (.stackOverflow detail)) x) ∨
      level.phase = .opening ∧ Exec.pop m = .error (.error (.stackOverflow detail)) x ∨
      level.phase = .running ∧ (Exec.fetch m = .error (.error (.stackOverflow detail)) x ∨
        ∃ i m₁, Exec.fetch m = .ok i m₁ ∧
          Exec.execute i m₁ = .error (.error (.stackOverflow detail)) x) := by
  obtain ⟨detail, x, hstops⟩ := hover
  refine ⟨detail, x, ?_⟩
  cases hstops with
  | call hcalls hphase hstop =>
    cases hlevels.symm.trans hcalls
    exact Or.inl ⟨_, _, hphase, hstop⟩
  | settle hcalls hphase hstop =>
    cases hlevels.symm.trans hcalls
    exact Or.inr (Or.inl ⟨hphase, hstop⟩)
  | fetch hcalls hphase hstop =>
    cases hlevels.symm.trans hcalls
    exact Or.inr (Or.inr ⟨hphase, Or.inl hstop⟩)
  | execute hcalls hphase hfetch hstop =>
    cases hlevels.symm.trans hcalls
    exact Or.inr (Or.inr ⟨hphase, Or.inr ⟨_, _, hfetch, hstop⟩⟩)

/-- Whether the next move finds room. -/
def hasRoom (m : Machine) : Bool :=
  match m.thread.levels with
  | [] => false
  | level :: _ =>
    match level.phase with
    | .made callee args => !findsNoRoom (Exec.call callee args 0 false (m.setPhase .opening))
    | .opening => !findsNoRoom (Exec.pop m)
    | .running =>
      match Exec.fetch m with
      | .ok i m => !findsNoRoom (Exec.execute i m)
      | .error _ _ => false

theorem not_overflowing_of_hasRoom (hroom : m.hasRoom = true) : ¬ m.Overflowing := by
  intro hover
  unfold hasRoom at hroom
  split at hroom
  next => cases hroom
  next level levels hlevels =>
    obtain ⟨detail, x, ⟨callee, args, hphase, hstop⟩ | ⟨hphase, hstop⟩ |
      ⟨hphase, hstop | ⟨i, m₁, hfetch, hstop⟩⟩⟩ := hover.inv hlevels
    · rw [hphase, Bool.not_eq_true'] at hroom
      exact not_findsNoRoom hroom detail x hstop
    · rw [hphase, Bool.not_eq_true'] at hroom
      exact not_findsNoRoom hroom detail x hstop
    · rw [hphase, hstop] at hroom
      cases hroom
    · rw [hphase, hfetch, Bool.not_eq_true'] at hroom
      exact not_findsNoRoom hroom detail x hstop

/-- A call that starts a task: the task is about to make a call on a thread of its own, over the same
global variables and cells. -/
theorem after_spawn {id : Nat} {name : String} (hlevels : m.thread.levels = level :: outer)
    (hphase : level.phase = .made (.native id name 1 .spawn) [v]) (hcallable : v.arity?.isSome = true) :
    m.after 1 = (m.setPhase .opening).spawning v := by
  obtain ⟨arity, harity⟩ := Option.isSome_iff_exists.1 hcallable
  have hinvoke : Native.spawn.invoke name [v] (m.setPhase .opening).world =
      .ok (.spawn v) (m.setPhase .opening).world := by
    simp only [Native.invoke, Act.spawnTask, harity]
    rfl
  have happly : Exec.apply (.native id name 1 .spawn) [v] (m.setPhase .opening) =
      .ok (.requested (.spawn v)) (m.setPhase .opening) := by
    have hrun := Exec.native_run .spawn name (m.setPhase .opening) [v]
    rw [hinvoke] at hrun
    exact hrun
  have hcall : Exec.call (.native id name 1 .spawn) [v] 0 false (m.setPhase .opening) =
      .ok () ((m.setPhase .opening).spawning v) := by
    rw [Exec.call, bind_of_ok happly]
    rfl
  rw [after, advance_made hlevels hphase, hcall]
  rfl

/-- A function that tells the number of frames returns it in two moves, and finds room. -/
theorem tells_depth {id : Nat} {name : String} {below : List Activation}
    (hlevels : m.thread.levels = level :: outer)
    (hphase : level.phase = .made (.native id name 0 (.hook .depth)) []) (habove : level.Above below)
    (hshows : m.thread = m.thread.showing below []) :
    (∀ i < 2, ¬ (m.after i).Overflowing) ∧ ∃ x : Machine, (m.after 1).advance =
      x.deliver level (.ok (.int (Int64.ofNat below.length))) := by
  have hopened : (m.setPhase .opening).thread.levels = { level with phase := .opening } :: outer := by
    simp only [Machine.setPhase, Thread.setPhase, hlevels]
  have hcall : Exec.call (.native id name 0 (.hook .depth)) [] 0 false (m.setPhase .opening) =
      .ok () ((m.setPhase .opening).showing below [.int (Int64.ofNat below.length)]) := by
    have hsize : ((m.setPhase .opening).showing below []).thread.frames.size = below.length := by simp
    rw [setPhase_showing (eq_showing hshows), ← hsize]
    exact Exec.push_showing (m.setPhase .opening) below [] _
  have hnext : m.after 1 = (m.setPhase .opening).showing below [.int (Int64.ofNat below.length)] := by
    rw [after, advance_made hlevels hphase, hcall]
    rfl
  have hshown : (m.after 1).thread =
      (m.after 1).thread.showing (below ++ []) [.int (Int64.ofNat below.length)] := by
    rw [hnext, List.append_nil]
    rfl
  have hcalls : (m.after 1).thread.levels = { level with phase := .opening } :: outer := by
    rw [hnext]
    exact hopened
  have habove' : { level with phase := .opening }.Above below :=
    ⟨habove.depth, habove.height, habove.handlers⟩
  refine ⟨?_, ?_⟩
  · intro i hi hover
    obtain rfl | rfl : i = 0 ∨ i = 1 := by omega
    · obtain ⟨_, _, ⟨_, _, hphase', hstop⟩ | ⟨hphase', _⟩ | ⟨hphase', _⟩⟩ := hover.inv hlevels
      · cases hphase.symm.trans hphase'
        cases hcall.symm.trans hstop
      · cases hphase.symm.trans hphase'
      · cases hphase.symm.trans hphase'
    · obtain ⟨_, _, ⟨_, _, hphase', _⟩ | ⟨_, hstop⟩ | ⟨hphase', _⟩⟩ := hover.inv hcalls
      · cases hphase'
      · cases (pop_given (eq_showing hshown)).symm.trans hstop
      · cases hphase'
  · rw [advance_opening hcalls rfl, settle_given habove' hshown]
    have hagain : ((m.after 1).showing below []).thread.levels =
        { level with phase := .opening } :: outer := hcalls
    rw [answer_eq_deliver hagain, deliver_setPhase]
    exact ⟨_, rfl⟩

/-- Whether a machine is about to start a task inside another call, above two frames, two values and a
handler, and whether the next `n` moves of a call of the same function here and on the thread of the
task find room and do not depend on the place. -/
def startsInHandler (m : Machine) (n : Nat) : Bool :=
  match m.thread.levels with
  | [{ phase := .made (.native _ _ 1 .spawn) [v], .. }, _] =>
    v.arity?.isSome && m.thread.frames.size == 2 && m.thread.stack.size == 2 &&
      m.thread.handlers.size == 1 && (List.range n).all fun i =>
        ((m.instead v []).after i).hasRoom && (((m.after 1).instead v []).after i).hasRoom &&
          ((m.instead v []).after i).sparesCalls Native.isPlaced
  | _ => false

end Machine

namespace Engine

/-- An engine with functions that tell the number of frames and that call back with or without an
argument. -/
def telling : Engine :=
  (((create {} 0).defineNative ⟨"depth", 0, .hook .depth⟩).defineNative ⟨"cb", 1, .hook .callBack⟩)
    |>.defineNative ⟨"pass", 2, .hook .callBack⟩

theorem telling_hosted : telling.Hosted [] :=
  (((Hosted.create {} 0).defineNative _).defineNative _).defineNative _

/-- A program that starts a task by means of an embedding, in the body of a handler and with an operand
below. -/
def taskInHandler : String :=
  "handle 1 + pass(spawn, || 2) with \x7b\x7d"

/-- A function that is called by a function of an embedding in the body of a handler, and on the thread
of a task. -/
theorem same_outcome_in_handler :
    ∃ (m m' : Machine) (c : m.world.Common m'.world) (level level' : Level) (outer outer' : List Level)
      (callee v : Value) (args : List Value), m.Arises ∧ m'.Arises ∧ c.SameMemory ∧
      m.thread.levels = level :: outer ∧ level.phase = .made callee args ∧
      m'.thread.levels = level' :: outer' ∧ level'.phase = .made v [] ∧ v.Arises ∧
      v.Twins .clause c.pairing v ∧ m.thread.frames.size = 2 ∧ m.thread.stack.size = 2 ∧
      m.thread.handlers.size = 1 ∧ m'.thread.frames.size = 0 ∧
      ((Machine.Alongside .clause c.pairing (m.instead v []) (m'.instead v []) 4 ∨
        ∃ i < 4, Machine.Alongside .clause c.pairing (m.instead v []) (m'.instead v []) i ∧
          ∃ result result' x x',
            ((m.instead v []).after i).advance = x.deliver level result ∧
            ((m'.instead v []).after i).advance = x'.deliver level' result' ∧
            OutcomesRelated (Value.Twins .clause c.pairing) result result' ∧
            x.world.Related (twinning .clause c.pairing) x'.world ∧
            m.Restores outer x ∧ m'.Restores outer' x') ∧
        ∀ x y effect payload j h clause, (m.instead v []).During x → x.waiting = m.waiting →
          x.Raises y effect payload → y.thread.Answers effect j h clause →
          m.thread.frames.size ≤ h.depth) := by
  obtain ⟨code, hcompile, htests⟩ := Except.exists_of_any
    (f := fun code =>
      (((telling.compileSource {} taskInHandler).2.started code).after 10).startsInHandler 4)
    (x := (telling.compileSource {} taskInHandler).1) (by decide +kernel)
  have hhosted := telling_hosted.compileSource {} taskInHandler
  have hstarts : (telling.compileSource {} taskInHandler).2.Starts []
      ((telling.compileSource {} taskInHandler).2.started code) :=
    .interpret (fromSource_of_compileSource hcompile)
  have hreaches := Machine.Reaches.refl.after 10
    (m := (telling.compileSource {} taskInHandler).2.started code)
  generalize ((telling.compileSource {} taskInHandler).2.started code).after 10 = m at htests hreaches
  have hm : m.Arises := .intro hhosted hstarts hreaches
  have hm' : (m.after 1).Arises := .intro hhosted hstarts (hreaches.after 1)
  unfold Machine.startsInHandler at htests
  split at htests
  next depth height handlers id name v line purpose outer hlevels =>
    simp only [Bool.and_eq_true, beq_iff_eq, List.all_eq_true, List.mem_range] at htests
    obtain ⟨⟨⟨⟨hcallable, hframes⟩, hstack⟩, hhandlers⟩, hfree⟩ := htests
    have hv : v.Arises :=
      .held hhosted hstarts hreaches (Machine.holds_of_made hlevels rfl (.tail _ (.head _))) .refl
    have hnext := Machine.after_spawn hlevels rfl hcallable
    generalize m.after 1 = m' at hnext hm' hfree
    subst hnext
    have hsupply : ((m.setPhase .opening).spawning v).world.supply.objects = m.world.supply.objects := rfl
    have hmemory : (World.commonOf hsupply).SameMemory :=
      World.sameMemory_commonOf hm.sound.world rfl rfl
    have hself : v.Twins .clause (World.commonOf hsupply).pairing v := World.twins_commonOf hv.sound
    refine ⟨m, _, _, _, _, _, _, _, v, _, hm, hm', hmemory, hlevels, rfl, rfl, rfl, hv, hself, hframes,
      hstack, hhandlers, rfl, ?_⟩
    refine hm.same_outcome hm' _ hmemory hlevels rfl rfl rfl hv nofun hself .nil ?_
    intro i hi _
    obtain ⟨⟨hroom, hroom'⟩, hspares⟩ := hfree i hi
    exact ⟨Machine.not_overflowing_of_hasRoom hroom, Machine.not_overflowing_of_hasRoom hroom',
      Machine.not_invokes_of_sparesCalls hspares⟩
  next => cases htests

/-- A program that starts a task by means of an embedding. The task tells the number of frames. -/
def tellInTask : String :=
  "pass(spawn, depth)"

/-- Whether a machine is about to start a task which tells the number of frames, on top of a frame. -/
def tellsInTask (m : Machine) : Bool :=
  match m.thread.levels with
  | [{ phase := .made (.native _ _ 1 .spawn) [.native _ _ 0 (.hook .depth)], .. }, _] =>
    m.thread.frames.size == 1
  | _ => false

/-- The same function of an embedding, called over the same global variables and cells, returns one number
where a program starts a task and another one on the thread of the task, though both calls find room. -/
theorem depth_depends_on_place :
    ∃ (m m' : Machine) (level level' : Level) (outer outer' : List Level) (callee v : Value)
      (args : List Value), m.Arises ∧ m'.Arises ∧ m'.world.globals = m.world.globals ∧
      m'.world.cells = m.world.cells ∧ m.thread.levels = level :: outer ∧
      level.phase = .made callee args ∧ m'.thread.levels = level' :: outer' ∧
      level'.phase = .made v [] ∧ v.Arises ∧
      (∀ i < 2, ¬ ((m.instead v []).after i).Overflowing ∧
        ¬ ((m'.instead v []).after i).Overflowing) ∧
      ∃ x x' : Machine, ((m.instead v []).after 1).advance = x.deliver level (.ok (.int 1)) ∧
        ((m'.instead v []).after 1).advance = x'.deliver level' (.ok (.int 0)) := by
  obtain ⟨code, hcompile, htests⟩ := Except.exists_of_any
    (f := fun code => tellsInTask (((telling.compileSource {} tellInTask).2.started code).after 6))
    (x := (telling.compileSource {} tellInTask).1) (by decide +kernel)
  have hhosted := telling_hosted.compileSource {} tellInTask
  have hstarts : (telling.compileSource {} tellInTask).2.Starts []
      ((telling.compileSource {} tellInTask).2.started code) :=
    .interpret (fromSource_of_compileSource hcompile)
  have hreaches := Machine.Reaches.refl.after 6
    (m := (telling.compileSource {} tellInTask).2.started code)
  generalize ((telling.compileSource {} tellInTask).2.started code).after 6 = m at htests hreaches
  have hm : m.Arises := .intro hhosted hstarts hreaches
  have hm' : (m.after 1).Arises := .intro hhosted hstarts (hreaches.after 1)
  unfold tellsInTask at htests
  split at htests
  next depth height handlers id name id' name' line purpose outer hlevels =>
    rw [beq_iff_eq] at htests
    have hv : (Value.native id' name' 0 (.hook .depth)).Arises :=
      .held hhosted hstarts hreaches (Machine.holds_of_made hlevels rfl (.tail _ (.head _))) .refl
    have hnext := Machine.after_spawn hlevels rfl rfl
    generalize m.after 1 = m' at hnext hm'
    subst hnext
    obtain ⟨below, habove, hshows, hcalls, hshown⟩ :=
      hm.sound.instead_shows hlevels rfl (.native id' name' 0 (.hook .depth)) []
    obtain ⟨below', habove', hshows', hcalls', hshown'⟩ :=
      hm'.sound.instead_shows rfl rfl (.native id' name' 0 (.hook .depth)) []
    have hone : below.length = 1 := by
      rw [hshows] at htests
      simpa using htests
    have hnone : below'.length = 0 := by
      have hsize := congrArg (fun t => t.frames.size) hshows'
      simpa [Machine.spawning] using hsize.symm
    obtain ⟨hroom, x, hmove⟩ := Machine.tells_depth hcalls rfl
      ⟨habove.depth, habove.height, habove.handlers⟩ hshown
    obtain ⟨hroom', x', hmove'⟩ := Machine.tells_depth hcalls' rfl
      ⟨habove'.depth, habove'.height, habove'.handlers⟩ hshown'
    rw [Machine.deliver_setPhase, hone] at hmove
    rw [Machine.deliver_setPhase, hnone] at hmove'
    exact ⟨m, (m.setPhase .opening).spawning _, _, _, _, _, _, _, _, hm, hm', rfl, rfl, hlevels, rfl,
      rfl, rfl, hv, fun i hi => ⟨hroom i hi, hroom' i hi⟩, x, x', hmove, hmove'⟩
  next => cases htests

end Engine

end Resumable
