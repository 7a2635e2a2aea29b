import Resumable.Proofs.Machine.TailRun
import Resumable.Proofs.Meaning.Apply
import Resumable.Proofs.Meaning.Entry

/-!
States of an evaluation and the machines that are at the same place. Machines and evaluations end
together, and a step that does something is matched by moves of the machine.
-/

namespace Resumable

theorem Thread.limits_setPhase (t : Thread) (phase : Phase) : (t.setPhase phase).limits = t.limits := by
  unfold setPhase
  cases t.levels <;> rfl

/-- Frames are pushed if there is room for them. -/
theorem Exec.pushFrame_eq (m : Machine) (closure : Value) (code : Code Value)
    (env : List (Symbol × Value)) (args : List Value) (boundary : Bool) :
    pushFrame closure code env args boundary m =
      match m.thread.limits.room m.thread.frames.size m.thread.stack.size with
      | .ok _ =>
        .ok () { m with thread := { m.thread with
          frames := m.thread.frames.push
            (.enter closure code env args m.thread.stack.size boundary) } }
      | .error e => .error (.error e) m := by
  simp only [pushFrame, bind_get_run, Limits.room]
  rw [ite_run]
  split
  · rfl
  · rw [bind_get_run, ite_run]
    split <;> rfl

namespace Meaning

/-- No function and no suspended computation has a number that is still to be given. -/
structure Memory.Fresh (μ : Memory) : Prop where
  functions : ∀ id F, μ.functions.lookup id = some F → id < μ.world.supply.objects
  continuations : ∀ id part, μ.continuations.lookup id = some part → id < μ.world.supply.objects

/-- A thread of the machine that has the given activities and is about to do the given thing. -/
inductive ThreadMeans (μ : Memory) (limits : Limits) : List Activity → Control → Thread → Prop
  | made {t : Thread} {callee callee' : Value} {args args' : List Value}
    (hsole : t.Sole (.made callee' args')) (hlimits : t.limits = limits)
    (hshows : t = t.showing [] []) (hcallee : Means μ callee callee')
    (hargs : List.Forall₂ (Means μ) args args') : ThreadMeans μ limits [] (.call 0 callee args) t
  | given {t : Thread} {v w : Value} (hsole : t.Sole .opening) (hlimits : t.limits = limits)
    (hshows : t = t.showing [] [w]) (hv : Means μ v w) : ThreadMeans μ limits [] (.give v) t
  | entered {t : Thread} {phase : Phase} {acts : List Activity} {a : Activity}
    {pre : List Activation} {b : Activation} {control : Control}
    (hphase : phase = .opening ∨ phase = .running) (hsole : t.Sole phase) (hlimits : t.limits = limits)
    (hshows : t = t.showing (pre ++ [b]) [])
    (hacts : List.Forall₂ (Waits (Means μ)) acts pre.reverse) (hruns : Runs (Means μ) control a b) :
    ThreadMeans μ limits (a :: acts) control t

/-- A thread that waits for the number of a task. -/
def ThreadWaits (μ : Memory) (limits : Limits) (acts : List Activity) (t : Thread) : Prop :=
  ∀ n, ThreadMeans μ limits acts (.give (.int n)) (t.push (.int n))

/-- The shared state and the threads that wait are the same. -/
structure Surrounds (σ : State) (m : Machine) : Prop where
  world : σ.memory.world.Related (meaning σ.memory) m.world
  fresh : σ.memory.Fresh
  waiting : List.Forall₂ (fun p q => q.1 = p.1 ∧ ThreadWaits σ.memory σ.limits p.2 q.2)
    σ.waiting m.waiting

/-- A machine at the place of an evaluation. -/
structure MachineMeans (σ : State) (m : Machine) : Prop extends Surrounds σ m where
  thread : ThreadMeans σ.memory σ.limits σ.acts σ.control m.thread

/-- What evaluations and machines come to. -/
inductive OutcomeMeans (μ : Memory) : Outcome → Outcome → Prop
  | returned {v w : Value} (hv : Means μ v w) : OutcomeMeans μ (.returned v) (.returned w)
  | failed (e : RuntimeError) : OutcomeMeans μ (.failed e) (.failed e)

/-- A move of the machine leads to where a step leads. -/
inductive NextMeans : Next → Progress → Prop
  | more {σ : State} {m : Machine} (hm : MachineMeans σ m) : NextMeans (.more σ) (.more m)
  | ended {μ : Memory} {outcome outcome' : Outcome} {m : Machine}
    (houtcome : OutcomeMeans μ outcome outcome') (hworld : μ.world.Related (meaning μ) m.world)
    (hfresh : μ.Fresh) : NextMeans (.ended outcome μ) (.ended outcome' m)

/-- Further moves of the machine lead to where a step leads. -/
def Arrives (next : Next) (p : Progress) : Prop :=
  ∃ q, p.Leads q ∧ NextMeans next q

section Grow

variable {μ μ' : Memory} (hgrows : μ.Grows μ') {limits : Limits} {acts : List Activity}
  {control : Control} {t : Thread}

include hgrows

theorem ThreadMeans.grow (h : ThreadMeans μ limits acts control t) :
    ThreadMeans μ' limits acts control t := by
  cases h with
  | made hsole hlimits hshows hcallee hargs =>
    exact .made hsole hlimits hshows (hcallee.grow hgrows) (hargs.imp fun _ _ h => h.grow hgrows)
  | given hsole hlimits hshows hv => exact .given hsole hlimits hshows (hv.grow hgrows)
  | entered hphase hsole hlimits hshows hacts hruns =>
    exact .entered hphase hsole hlimits hshows
      (hacts.imp fun _ _ h => h.mono fun hu => hu.grow hgrows) (hruns.mono fun hu => hu.grow hgrows)

theorem ThreadWaits.grow (h : ThreadWaits μ limits acts t) : ThreadWaits μ' limits acts t :=
  fun n => (h n).grow hgrows

/-- Shared states look the same as before when more functions and computations are made. -/
theorem related_grow {w w' : World} (h : w.Related (meaning μ) w') : w.Related (meaning μ') w' := by
  refine ⟨fun s => ?_, h.cells.imp fun _ _ hv => Means.grow hgrows hv, h.supply, h.output, fun _ =>
    { h.rest rfl with results := (h.rest rfl).results.imp ?_ }⟩
  · have hs := h.globals s
    generalize w.globals.get? s = x, w'.globals.get? s = y at hs
    cases hs with
    | some hv => exact .some (Means.grow hgrows hv)
    | none => exact .none
  · rintro ⟨id, r⟩ ⟨id', r'⟩ ⟨hid, hr⟩
    refine ⟨hid, ?_⟩
    obtain ⟨v, v', rfl, rfl, hv⟩ | ⟨e, rfl, rfl⟩ := hr.inv
    · exact Means.grow hgrows hv
    · rfl

end Grow

/-- What functions and computations do does not depend on the shared state. -/
theorem Memory.grows_withWorld (μ : Memory) (w : World) : μ.Grows (μ.withWorld w) :=
  ⟨fun _ _ h => h, fun _ _ h => h⟩

theorem Memory.Fresh.withWorld {μ : Memory} {w : World} (h : μ.Fresh) (honward : μ.world.Onward w) :
    (μ.withWorld w).Fresh :=
  ⟨fun id F hF => Nat.lt_of_lt_of_le (h.functions id F hF) honward.objects,
    fun id part hpart => Nat.lt_of_lt_of_le (h.continuations id part hpart) honward.objects⟩

variable {σ : State} {m : Machine}

theorem Arrives.of_leads {next : Next} {p q : Progress} (hleads : p.Leads q) (h : Arrives next q) :
    Arrives next p := by
  obtain ⟨r, hr, hnext⟩ := h
  exact ⟨r, hleads.trans hr, hnext⟩

theorem NextMeans.arrives {next : Next} {p : Progress} (h : NextMeans next p) : Arrives next p :=
  ⟨p, .refl p, h⟩

namespace Surrounds

/-- Only the shared state and the threads that wait matter. -/
theorem congr {σ' : State} {m' : Machine} (h : Surrounds σ m) (hmemory : σ'.memory = σ.memory)
    (hlimits : σ'.limits = σ.limits) (hwaiting : σ'.waiting = σ.waiting) (hworld : m'.world = m.world)
    (hwaiting' : m'.waiting = m.waiting) : Surrounds σ' m' := by
  refine ⟨?_, ?_, ?_⟩
  · rw [hmemory, hworld]
    exact h.world
  · rw [hmemory]
    exact h.fresh
  · rw [hwaiting, hwaiting', hmemory, hlimits]
    exact h.waiting

/-- With a memory in which there is more. -/
theorem grown {μ : Memory} {w : World} (h : Surrounds σ m) (hgrows : σ.memory.Grows μ) (hfresh : μ.Fresh)
    (hw : μ.world.Related (meaning σ.memory) w) : Surrounds (σ.withMemory μ) { m with world := w } :=
  ⟨related_grow hgrows hw, hfresh, h.waiting.imp fun _ _ hp => ⟨hp.1, hp.2.grow hgrows⟩⟩

/-- The end of a thread. -/
theorem finish {result result' : Except RuntimeError Value} (h : Surrounds σ m)
    (hresult : OutcomesRelated (Means σ.memory) result result') :
    NextMeans (σ.finish result) (m.finish result') := by
  have hwaiting := h.waiting
  unfold State.finish Machine.finish
  generalize σ.waiting = waiting at hwaiting
  generalize hm : m.waiting = waiting' at hwaiting
  cases hwaiting with
  | nil =>
    obtain ⟨v, w, rfl, rfl, hv⟩ | ⟨e, rfl, rfl⟩ := hresult.inv
    · exact .ended (.returned hv) h.world h.fresh
    · exact .ended (.failed e) h.world h.fresh
  | @cons p q waiting waiting' hfirst hrest =>
    obtain ⟨id, acts⟩ := p
    obtain ⟨id', parent⟩ := q
    obtain ⟨rfl, hwaits⟩ := hfirst
    have hgrows := σ.memory.grows_withWorld
      { σ.memory.world with tasks := σ.memory.world.tasks.store id' result }
    exact .more
      { world := related_grow hgrows (h.world.storeResult id' hresult)
        fresh := ⟨h.fresh.functions, h.fresh.continuations⟩
        waiting := hrest.imp fun _ _ hp => ⟨hp.1, hp.2.grow hgrows⟩
        thread := (hwaits _).grow hgrows }

theorem fail {phase : Phase} (h : Surrounds σ m) (hsole : m.thread.Sole phase) (line : Nat)
    (e : RuntimeError) : NextMeans (σ.fail line e) (m.stop line (.error e)) := by
  obtain ⟨t, hstop⟩ := hsole.stop_eq e line
  have hafter : Surrounds σ { m with thread := t } := h.congr rfl rfl rfl rfl rfl
  rw [hstop]
  exact hafter.finish rfl

end Surrounds

/-- A machine whose running thread has one call, which is in the given phase, and the limits of an
evaluation. -/
structure Hosts (σ : State) (m : Machine) (phase : Phase) : Prop extends Surrounds σ m where
  limits : m.thread.limits = σ.limits
  sole : m.thread.Sole phase

namespace Hosts

variable {phase : Phase} {pre : List Activation} {b : Activation} {a : Activity} {acts : List Activity}
  {control : Control}

/-- What the activations and the activities are does not matter. -/
theorem congr {σ' : State} (h : Hosts σ m phase) (hmemory : σ'.memory = σ.memory)
    (hlimits : σ'.limits = σ.limits) (hwaiting : σ'.waiting = σ.waiting) : Hosts σ' m phase :=
  { h.toSurrounds.congr hmemory hlimits hwaiting rfl rfl with
    limits := h.limits.trans hlimits.symm
    sole := h.sole }

/-- With a memory in which there is more. -/
theorem grown {μ : Memory} {w : World} (h : Hosts σ m phase) (hgrows : σ.memory.Grows μ)
    (hfresh : μ.Fresh) (hw : μ.world.Related (meaning σ.memory) w) :
    Hosts (σ.withMemory μ) { m with world := w } phase :=
  { h.toSurrounds.grown hgrows hfresh hw with
    limits := h.limits
    sole := h.sole }

/-- With another shared state, in which no number has been given back. -/
theorem withWorld {w w' : World} (h : Hosts σ m phase) (hw : w.Related (meaning σ.memory) w')
    (honward : σ.memory.world.Onward w) :
    Hosts (σ.withMemory (σ.memory.withWorld w)) { m with world := w' } phase :=
  h.grown (σ.memory.grows_withWorld w) (h.fresh.withWorld honward) hw

/-- The innermost activity goes on. -/
theorem goes (h : Hosts σ m phase) (hphase : phase = .opening ∨ phase = .running)
    (hacts : List.Forall₂ (Waits (Means σ.memory)) acts pre.reverse)
    (hruns : Runs (Means σ.memory) control a b) :
    NextMeans (σ.goes (a :: acts) control) (.more (m.showing (pre ++ [b]) [])) :=
  .more
    { world := h.world
      fresh := h.fresh
      waiting := h.waiting
      thread := .entered hphase h.sole h.limits rfl hacts hruns }

theorem fail (h : Hosts σ m phase) (acts : List Activation) (extra : List Value) (line : Nat)
    (e : RuntimeError) : NextMeans (σ.fail line e) ((m.showing acts extra).stop line (.error e)) :=
  Surrounds.fail (m := m.showing acts extra) ⟨h.world, h.fresh, h.waiting⟩ h.sole line e

end Hosts

/-- A value for an activation that waits. -/
theorem Waits.give {R : Value → Value → Prop} {a : Activity} {b : Activation} {v w : Value}
    (h : Waits R a b) (hv : R v w) : Runs R (.give v) a (b.pushAll [w]) := by
  obtain ⟨G, choosing, Γ, hbears, hawaits⟩ := h
  refine ⟨G, choosing, Γ, { hbears with operands := ?_ }, .give hawaits⟩
  have hoperands := hbears.operands
  rw [List.append_nil] at hoperands
  exact List.rel_append hoperands (.cons hv .nil)

namespace Hosts

variable {phase : Phase} {pre : List Activation} {b : Activation} {acts : List Activity} {v w : Value}

/-- A value for the activations of a thread. If there are none left, the call ends with it. -/
theorem hand (h : Hosts σ m .running) (hacts : List.Forall₂ (Waits (Means σ.memory)) acts pre.reverse)
    (hv : Means σ.memory v w) {line : Nat} (hat : b.code.At b.ip .ret 0 line) (hoperands : b.operands = [w]) :
    NextMeans (σ.hand v acts) (m.showing (pre ++ [b]) []).advance := by
  have hone : b.operands = [] ++ [w] := hoperands
  rw [h.sole.running.advance_execute rfl hat hone, show Op.ret.narrow = .ret from rfl, Exec.execute_ret]
  have hreturn := Exec.returnValue_showing m pre
    { b with ip := b.ip + 1 + Op.ret.width, operands := [] } [] w
  rw [List.nil_append, h.sole.baseOf_eq] at hreturn
  rw [hreturn]
  cases acts with
  | nil =>
    cases List.reverse_eq_nil_iff.1 (List.forall₂_nil_left_iff.1 hacts)
    rw [if_pos (by simp), Machine.conclude]
    obtain ⟨t, hanswer⟩ := Thread.Sole.answer_eq (m := m.showing [] []) h.sole w
    rw [hanswer]
    have hresult : OutcomesRelated (Means σ.memory) (.ok v) (.ok w) := hv
    have hafter : Surrounds σ { m with thread := t } := h.toSurrounds.congr rfl rfl rfl rfl rfl
    exact hafter.finish hresult
  | cons a acts =>
    obtain ⟨b', rest, hb, hrest, hpre⟩ := List.forall₂_cons_left_iff.1 hacts
    obtain rfl : pre = rest.reverse ++ [b'] := by
      rw [← List.reverse_reverse pre, hpre, List.reverse_cons]
    rw [if_neg (by simp), Machine.conclude, ← List.append_nil [w], ← Machine.showing_pushAll]
    exact h.goes (Or.inr rfl) (by rwa [List.reverse_reverse]) (hb.give hv)

end Hosts

end Meaning

end Resumable
