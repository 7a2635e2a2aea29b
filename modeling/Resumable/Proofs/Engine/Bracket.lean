import Resumable.Proofs.Engine.Hosted
import Resumable.Proofs.Machine.Bracket

/-!
Calls that an embedding makes, also from inside its own functions, leave the thread on which they were
made as it was, whatever is called with whatever arguments, and however the call ends.
-/

namespace Resumable

/-- Values that arise in runs of programs compiled from source: an embedding has seen them, a machine
on the way holds them, or they are data made of such values. -/
inductive Value.Arises : Value → Prop
  | seen {e : Engine} {seen : List Value} {v : Value} (he : e.Hosted seen) (hv : v ∈ seen) : Arises v
  | held {e : Engine} {seen : List Value} {start m : Machine} {root v : Value} (he : e.Hosted seen)
    (hstarts : e.Starts seen start) (hreaches : start.Reaches m) (hholds : m.Holds root)
    (hwithin : v.Within root) : Arises v
  | data {v : Value} (hdata : v.isData = true) (hparts : ∀ part ∈ v.parts, Arises part) : Arises v

theorem Value.Arises.sound {v : Value} (harises : v.Arises) : v.Sound .clause := by
  induction harises with
  | seen he hv => exact he.sound.2 _ hv
  | held he hstarts hreaches hholds hwithin =>
    exact (((he.starts hstarts).reaches hreaches).holds hholds).within hwithin
  | data hdata _ ih => exact Value.every_of_isData hdata ih

/-- A machine that is about to make one call may as well make another. -/
theorem Machine.Sound.make {m : Machine} {level : Level} {outer : List Level} {callee v : Value}
    {args vs : List Value} (hsound : m.Sound .clause) (hlevels : m.thread.levels = level :: outer)
    (hphase : level.phase = .made callee args) (hv : v.Sound .clause)
    (hvs : ∀ w ∈ vs, w.Sound .clause) : (m.setPhase (.made v vs)).Sound .clause := by
  obtain ⟨below, above, extra, level', levels, hready, hunderway, hshows⟩ := hsound.ready
  rw [hready.calls] at hlevels
  cases hlevels
  rw [hphase] at hunderway
  cases hunderway with
  | entered hentered => simp at hentered
  | made =>
    have hready' := hready.setPhase (.made v vs)
    rw [Machine.setPhase_showing hshows]
    exact ⟨hready'.world, Thread.runs_showing below [] [] hready'.calls hready'.suspended
      hready'.above hready'.purpose (.made hv hvs fun hκ => absurd rfl hκ), hready'.waiting⟩

theorem Machine.holds_of_made {m : Machine} {level : Level} {outer : List Level} {callee v : Value}
    {args : List Value} (hlevels : m.thread.levels = level :: outer)
    (hphase : level.phase = .made callee args) (hv : v ∈ callee :: args) : m.Holds v := by
  refine Or.inr ⟨m.thread, .head _, List.mem_append_right _ ?_⟩
  rw [hlevels, List.flatMap_cons, Level.parts, hphase]
  exact List.mem_append_left _ hv

theorem Machine.setPhase_self {m : Machine} {level : Level} {outer : List Level} {phase : Phase}
    (hlevels : m.thread.levels = level :: outer) (hphase : level.phase = phase) :
    m.setPhase phase = m := by
  subst hphase
  obtain ⟨world, thread, waiting⟩ := m
  obtain ⟨frames, stack, handlers, lastLabel, limits, levels⟩ := thread
  subst hlevels
  rfl

/-- Whether a machine is about to make a call inside another one, above two frames, two values and a
handler, and is still in the course of that call after four moves. -/
def Machine.attempts (m : Machine) : Bool :=
  match m.thread.levels with
  | [{ phase := .made _ _, .. }, _] =>
    m.thread.frames.size == 2 && m.thread.stack.size == 2 && m.thread.handlers.size == 1 &&
      (List.range 4).all (fun i => decide (m.Encloses (m.after (i + 1)))) &&
      (m.after 4).thread.frames.size == 3
  | _ => false

namespace Engine

/-- Wherever a call is made in a run in an embedding, with whatever function and arguments, every move
in the course of the call stays in its course, or the call returns, with a value or with a failure,
and the frames, the stack and the handlers are what they were when it was made. -/
theorem Hosted.brackets {e : Engine} {seen : List Value} {start m m' : Machine} {level : Level}
    {outer : List Level} {callee v : Value} {args vs : List Value} (he : e.Hosted seen)
    (hstarts : e.Starts seen start) (hreaches : start.Reaches m)
    (hlevels : m.thread.levels = level :: outer) (hphase : level.phase = .made callee args)
    (hv : v.Arises) (hvs : ∀ w ∈ vs, w.Arises) (hduring : (m.setPhase (.made v vs)).During m') :
    (∃ m'', m'.advance = .more m'' ∧ (m.setPhase (.made v vs)).During m'') ∨
      ∃ result m'', m'.advance = m''.deliver level result ∧ m.Restores outer m'' := by
  have hsound := (he.starts hstarts).reaches hreaches
  have hmade := hsound.make hlevels hphase hv.sound fun w hw => (hvs w hw).sound
  have hlevels' : (m.setPhase (.made v vs)).thread.levels =
      { level with phase := .made v vs } :: outer := by
    simp [Machine.setPhase, Thread.setPhase, hlevels]
  obtain hon | ⟨result, m'', hreturns, hrestores⟩ := hmade.stays_or_restores hlevels' rfl hduring
  · exact Or.inl hon
  · refine Or.inr ⟨result, m'', hreturns, ?_⟩
    obtain ⟨hframes, hstack, hhandlers, houter, hwaiting⟩ := hrestores
    simp only [Machine.setPhase, Thread.setPhase, hlevels] at hframes hstack hhandlers hwaiting
    exact ⟨hframes, hstack, hhandlers, houter, hwaiting⟩

/-- A program that calls a function in the body of a handler, with an operand below it. -/
def attemptInHandler : String :=
  "handle 1 + at(|x| x(0), 2) with \x7b\x7d"

/-- A function of an embedding that catches failures, called in the body of a handler with an operand
below it, four moves into the call that it makes. -/
theorem brackets_attempt_in_handler :
    ∃ (e : Engine) (start m m' : Machine) (level : Level) (outer : List Level) (callee : Value)
      (args : List Value), e.Hosted [] ∧ e.Starts [] start ∧ start.Reaches m ∧
      m.thread.levels = level :: outer ∧ level.phase = .made callee args ∧ outer.length = 1 ∧
      m.thread.frames.size = 2 ∧ m.thread.stack.size = 2 ∧ m.thread.handlers.size = 1 ∧
      m.During m' ∧ m'.thread.frames.size = 3 ∧
      ((∃ m'', m'.advance = .more m'' ∧ m.During m'') ∨
        ∃ result m'', m'.advance = m''.deliver level result ∧ m.Restores outer m'') := by
  have hhosted : Hosted ((create {} 0).defineNative ⟨"at", 2, .hook .attempt⟩) [] :=
    (Hosted.create {} 0).defineNative _
  obtain ⟨code, hcompile, htests⟩ := Except.exists_of_any
    (f := fun code =>
      (((((create {} 0).defineNative ⟨"at", 2, .hook .attempt⟩).compileSource {}
        attemptInHandler).2.started code).after 10).attempts)
    (x := (((create {} 0).defineNative ⟨"at", 2, .hook .attempt⟩).compileSource {}
      attemptInHandler).1) (by decide +kernel)
  have hhosted' := hhosted.compileSource {} attemptInHandler
  have hstarts : (((create {} 0).defineNative ⟨"at", 2, .hook .attempt⟩).compileSource {}
      attemptInHandler).2.Starts [] ((((create {} 0).defineNative ⟨"at", 2, .hook .attempt⟩).compileSource
        {} attemptInHandler).2.started code) := .interpret (fromSource_of_compileSource hcompile)
  have hreaches := Machine.Reaches.refl.after 10
    (m := (((create {} 0).defineNative ⟨"at", 2, .hook .attempt⟩).compileSource {}
      attemptInHandler).2.started code)
  generalize ((((create {} 0).defineNative ⟨"at", 2, .hook .attempt⟩).compileSource {}
    attemptInHandler).2.started code).after 10 = m at htests hreaches
  unfold Machine.attempts at htests
  split at htests
  next depth height handlers callee args line purpose outer hlevels =>
    simp only [Bool.and_eq_true, beq_iff_eq, List.all_eq_true, List.mem_range, decide_eq_true_eq]
      at htests
    obtain ⟨⟨⟨⟨hframes, hstack⟩, hhandlers⟩, hinside⟩, hdeeper⟩ := htests
    have harises : ∀ v ∈ callee :: args, v.Arises := fun v hv =>
      .held hhosted' hstarts hreaches (Machine.holds_of_made hlevels rfl hv) .refl
    have hduring := Machine.During.after hinside
    have hself := Machine.setPhase_self hlevels rfl
    rw [← hself] at hduring
    have hbrackets := hhosted'.brackets hstarts hreaches hlevels rfl (harises callee (.head _))
      (fun w hw => harises w (.tail _ hw)) hduring
    rw [hself] at hbrackets hduring
    exact ⟨_, _, m, m.after 4, _, _, callee, args, hhosted', hstarts, hreaches, hlevels, rfl, rfl,
      hframes, hstack, hhandlers, hduring, hdeeper, hbrackets⟩
  next => cases htests

end Engine

end Resumable
