import Resumable.Proofs.Machine.Sound

/-!
What holds of a machine between two moves. Every thread shows activations; those below the innermost
call wait for its value, and so do the threads that wait for a task.
-/

namespace Resumable

namespace RuntimeError

/-- Failures that are not due to malformed bytecode. -/
def Admissible (e : RuntimeError) : Prop :=
  ∀ detail, e.root ≠ .invalidBytecode detail

/-- Failures that are due neither to malformed bytecode nor to an undefined variable. -/
def Ordinary (e : RuntimeError) : Prop :=
  e.Admissible ∧ ∀ name, e.root ≠ .undefinedVariable name

theorem root_atLine (line : Nat) (e : RuntimeError) : (e.atLine line).root = e.root := by
  cases e <;> simp only [atLine] <;> split <;> rfl

theorem Admissible.atLine {e : RuntimeError} (hadmissible : e.Admissible) (line : Nat) :
    (e.atLine line).Admissible := by
  unfold Admissible
  rw [root_atLine]
  exact hadmissible

end RuntimeError

namespace World

/-- The failure of a task is still there to be taken. -/
def Keeps (w : World) (e : RuntimeError) : Prop :=
  ∃ id, (id, Except.error e) ∈ w.tasks.results

/-- All values in the shared state have a property. -/
structure Every (d : Discipline) (w : World) : Prop where
  globals : ∀ s v, w.globals.get? s = some v → v.Every d
  cells : ∀ v ∈ w.cells, v.Every d
  results : ∀ id v, (id, .ok v) ∈ w.tasks.results → v.Every d

/-- All values in the shared state are sound. -/
structure Sound (κ : Kind) (w : World) : Prop extends Every κ.discipline w where
  failures : ∀ e, w.Keeps e → e.Admissible

theorem Every.congr {d : Discipline} {w w' : World} (hw : w.Every d)
    (hglobals : w'.globals = w.globals) (hcells : w'.cells = w.cells)
    (htasks : w'.tasks.results = w.tasks.results) : w'.Every d := by
  refine ⟨?_, ?_, ?_⟩
  · rw [hglobals]
    exact hw.globals
  · rw [hcells]
    exact hw.cells
  · rw [htasks]
    exact hw.results

end World

theorem Globals.get?_set (g : Globals) (s t : Symbol) (v : Value) :
    (g.set s v).get? t = if (s == t) = true then some v else g.get? t := by
  simp only [Globals.get?, Globals.set, Symbol.beq_iff]
  split
  · rw [Array.getElem?_setIfInBounds]
    grind
  · rw [Array.getElem?_push, Array.getElem?_append]
    grind

theorem World.Every.setGlobal {d : Discipline} {w : World} {v : Value} (hworld : w.Every d)
    (s : Symbol) (hv : v.Every d) : { w with globals := w.globals.set s v }.Every d := by
  refine ⟨?_, hworld.cells, hworld.results⟩
  intro t u hget
  simp only [Globals.get?_set] at hget
  split at hget
  next =>
    cases hget
    exact hv
  next => exact hworld.globals t u hget

theorem World.Sound.setGlobal {κ : Kind} {m : Machine} {v : Value} (hworld : m.world.Sound κ)
    (s : Symbol) (hv : v.Sound κ) : (m.setGlobal s v).world.Sound κ :=
  ⟨hworld.toEvery.setGlobal s hv, hworld.failures⟩

/-- Unless clauses are functions of two parameters, no call starts with a boundary. -/
def Grounded (κ : Kind) (above : List Activation) : Prop :=
  κ ≠ .clause → ∀ a ∈ above.head?, a.handler = none

theorem Grounded.replaceLast {κ : Kind} {pre : List Activation} {a a' : Activation}
    (hground : Grounded κ (pre ++ [a])) (hhandler : a'.handler = a.handler) :
    Grounded κ (pre ++ [a']) := by
  intro hκ b hb
  cases pre with
  | nil =>
    cases hb
    exact hhandler.trans (hground hκ a rfl)
  | cons => exact hground hκ b hb

theorem Grounded.append {κ : Kind} {above : List Activation} (hground : Grounded κ above)
    (hne : above ≠ []) (more : List Activation) : Grounded κ (above ++ more) := by
  intro hκ b hb
  cases above with
  | nil => exact absurd rfl hne
  | cons => exact hground hκ b hb

theorem Grounded.of_append {κ : Kind} {above more : List Activation}
    (hground : Grounded κ (above ++ more)) (hne : above ≠ []) : Grounded κ above := by
  intro hκ b hb
  refine hground hκ b ?_
  rwa [List.head?_append_of_ne_nil above hne]

theorem Grounded.concat {κ : Kind} {above : List Activation} {a : Activation}
    (hground : Grounded κ above) (hhandler : a.handler = none) : Grounded κ (above ++ [a]) := by
  intro hκ b hb
  cases above with
  | nil =>
    cases hb
    exact hhandler
  | cons => exact hground hκ b hb

/-- A call that waits for a value: it has been made and has no activation yet, or it has some. -/
def Level.Waits (level : Level) (above : List Activation) : Prop :=
  level.phase = .opening ∧ above = [] ∨ level.phase = .running ∧ above ≠ []

/-- Activations of calls that all wait, the innermost call first. The outermost call, and no other,
ends the thread. -/
inductive Suspended (κ : Kind) : List Activation → List Level → Prop
  | nil : Suspended κ [] []
  | cons {below above : List Activation} {level : Level} {levels : List Level}
    (hbelow : Suspended κ below levels) (hlevel : level.Above below)
    (hpurpose : level.purpose = .finish ↔ levels = [])
    (hsound : ∀ a ∈ above, a.Sound κ [.value]) (hground : Grounded κ above)
    (hwaits : level.Waits above) : Suspended κ (below ++ above) (level :: levels)

/-- How far the innermost call has come: it is about to be made, or it has been made and its value is
there, or the last of its activations runs. -/
inductive Underway (κ : Kind) : Phase → List Activation → List Value → Prop
  | made {callee : Value} {args : List Value} (hcallee : callee.Sound κ)
    (hargs : ∀ v ∈ args, v.Sound κ) (hfew : κ ≠ .clause → args = []) :
    Underway κ (.made callee args) [] []
  | given {v : Value} (hv : v.Sound κ) : Underway κ .opening [] [v]
  | entered {phase : Phase} {pre : List Activation} {a : Activation}
    (hphase : phase = .opening ∨ phase = .running) (hpre : ∀ b ∈ pre, b.Sound κ [.value])
    (ha : a.Sound κ []) (hground : Grounded κ (pre ++ [a])) : Underway κ phase (pre ++ [a]) []

/-- A thread that waits for a value. -/
inductive Thread.Waits (κ : Kind) (t : Thread) : Prop
  | intro {acts : List Activation} {level : Level} {levels : List Level}
    (hlevels : t.levels = level :: levels) (hacts : Suspended κ acts (level :: levels))
    (hshows : t = t.showing acts [])

/-- A thread that runs. -/
inductive Thread.Runs (κ : Kind) (t : Thread) : Prop
  | intro {below above : List Activation} {extra : List Value} {level : Level} {levels : List Level}
    (hlevels : t.levels = level :: levels) (hbelow : Suspended κ below levels)
    (hlevel : level.Above below) (hpurpose : level.purpose = .finish ↔ levels = [])
    (hunderway : Underway κ level.phase above extra) (hshows : t = t.showing (below ++ above) extra)

/-- A thread without calls in progress. -/
structure Thread.Rests (t : Thread) : Prop where
  levels : t.levels = []
  shows : t = t.showing [] []

/-- A machine whose running thread, waiting threads and shared state are sound. -/
structure Machine.Sound (κ : Kind) (m : Machine) : Prop where
  world : m.world.Sound κ
  thread : m.thread.Runs κ
  waiting : ∀ w ∈ m.waiting, w.2.Waits κ

/-- Results and outcomes are sound. -/
def ResultSound (κ : Kind) : Except RuntimeError Value → Prop
  | .ok v => v.Sound κ
  | .error e => e.Admissible

/-- What a sound machine comes to with one move. It does not crash. -/
inductive Progress.Sound (κ : Kind) : Progress → Prop
  | more {m : Machine} (hm : m.Sound κ) : Progress.Sound κ (.more m)
  | returned {v : Value} {m : Machine} (hv : v.Sound κ) (hworld : m.world.Sound κ)
    (hthread : m.thread.Rests) : Progress.Sound κ (.ended (.returned v) m)
  | failed {e : RuntimeError} {m : Machine} (he : e.Admissible) (hworld : m.world.Sound κ)
    (hthread : m.thread.Rests) : Progress.Sound κ (.ended (.failed e) m)

theorem Thread.showing_push (t : Thread) (acts : List Activation) (extra : List Value) (v : Value) :
    (t.showing acts extra).push v = t.showing acts (extra ++ [v]) := by
  simp [push, showing]

/-- A thread that shows what its calls have come to runs. -/
theorem Thread.runs_showing {κ : Kind} {t : Thread} {level : Level} {levels : List Level}
    (below above : List Activation) (extra : List Value) (hlevels : t.levels = level :: levels)
    (hbelow : Suspended κ below levels) (hlevel : level.Above below)
    (hpurpose : level.purpose = .finish ↔ levels = [])
    (hunderway : Underway κ level.phase above extra) : (t.showing (below ++ above) extra).Runs κ :=
  .intro hlevels hbelow hlevel hpurpose hunderway rfl

/-- A call that waits and gets its value. -/
theorem Level.Waits.given {κ : Kind} {level : Level} {above : List Activation} {v : Value}
    (hwaits : level.Waits above) (hsound : ∀ a ∈ above, a.Sound κ [.value])
    (hground : Grounded κ above) (hv : v.Sound κ) (t : Thread) (below : List Activation) :
    ∃ above' extra, Underway κ level.phase above' extra ∧
      t.showing (below ++ above) [v] = t.showing (below ++ above') extra := by
  obtain ⟨hphase, rfl⟩ | ⟨hphase, hne⟩ := hwaits
  · rw [hphase]
    exact ⟨[], [v], .given hv, rfl⟩
  · obtain ⟨pre, a, rfl⟩ := (List.eq_nil_or_concat' above).resolve_left hne
    have ha : a.Sound κ [.value] := hsound a (by simp)
    refine ⟨pre ++ [a.pushAll [v]], [], .entered (Or.inr hphase) ?_ (ha.push hv) ?_, ?_⟩
    · intro b hb
      exact hsound b (by simp [hb])
    · exact hground.replaceLast rfl
    · simp [Thread.showing]

/-- A thread that waits for a value runs once it has one. -/
theorem Thread.Waits.push {κ : Kind} {t : Thread} {v : Value} (hwaits : t.Waits κ)
    (hv : v.Sound κ) : (t.push v).Runs κ := by
  obtain ⟨hlevels, hacts, hshows⟩ := hwaits
  cases hacts with
  | cons hbelow hlevel hpurpose hsound hground hcall =>
    obtain ⟨above', extra, hunderway, hsame⟩ := hcall.given hsound hground hv t _
    refine .intro hlevels hbelow hlevel hpurpose hunderway ?_
    rw [hshows, showing_push, List.nil_append, showing_showing, hsame]

theorem Tasks.mem_store {tasks : Tasks} {id id' : Int} {result result' : Except RuntimeError Value} :
    (id', result') ∈ (tasks.store id result).results ↔
      id' = id ∧ result' = result ∨ (id', result') ∈ tasks.results := by
  simp [store]

theorem World.Every.store {d : Discipline} {w : World} {result : Except RuntimeError Value}
    (hworld : w.Every d) (id : Int) (hresult : ∀ v, result = .ok v → v.Every d) :
    { w with tasks := w.tasks.store id result }.Every d := by
  refine ⟨hworld.globals, hworld.cells, ?_⟩
  intro id' v hmem
  obtain ⟨_, hv⟩ | hmem := Tasks.mem_store.1 hmem
  · exact hresult v hv.symm
  · exact hworld.results id' v hmem

theorem World.Sound.store {κ : Kind} {w : World} {result : Except RuntimeError Value}
    (hworld : w.Sound κ) (id : Int) (hresult : ResultSound κ result) :
    { w with tasks := w.tasks.store id result }.Sound κ := by
  refine ⟨hworld.toEvery.store id ?_, ?_⟩
  · rintro v rfl
    exact hresult
  · rintro e ⟨id', hmem⟩
    obtain ⟨_, rfl⟩ | hmem := Tasks.mem_store.1 hmem
    · exact hresult
    · exact hworld.failures e ⟨id', hmem⟩

namespace Machine

variable {κ : Kind} {m : Machine}

/-- A thread that ends ends the work of the machine, or lets the thread that waits for it go on. -/
theorem finish_sound {result : Except RuntimeError Value} (hworld : m.world.Sound κ)
    (hwaiting : ∀ w ∈ m.waiting, w.2.Waits κ) (hthread : m.thread.Rests)
    (hresult : ResultSound κ result) : (m.finish result).Sound κ := by
  unfold finish
  split
  next =>
    cases result with
    | ok v => exact .returned hresult hworld hthread
    | error e => exact .failed hresult hworld hthread
  next id parent waiting hsplit =>
    rw [hsplit] at hwaiting
    refine .more ⟨hworld.store id hresult, ?_, fun w hw => hwaiting w (.tail _ hw)⟩
    exact (hwaiting (id, parent) (.head _)).push (Value.every_of_isFlat rfl)

/-- A failure ends calls from the inside out until one catches it. -/
theorem unwind_sound {below : List Activation} {level : Level} {levels : List Level}
    {e : RuntimeError} (hworld : m.world.Sound κ) (hwaiting : ∀ w ∈ m.waiting, w.2.Waits κ)
    (hbelow : Suspended κ below levels) (hlevel : level.Above below)
    (hpurpose : level.purpose = .finish ↔ levels = []) (hextends : m.thread.Extends below)
    (he : e.Admissible) : (m.unwind e (level :: levels)).Sound κ := by
  induction hbelow generalizing m level e with
  | nil =>
    have hfinish : level.purpose = .finish := hpurpose.2 rfl
    have hleave := Thread.leave_eq_showing hextends hlevel
    simp only [unwind, hfinish, hleave]
    refine finish_sound hworld hwaiting ⟨rfl, rfl⟩ he
  | @cons below above outer levels hbelow houter hpurpose' hsound hground hwaits ih =>
    have hleave := Thread.leave_eq_showing hextends hlevel
    have hwaits : { m.thread.showing (below ++ above) [] with levels := outer :: levels }.Waits κ :=
      .intro rfl (.cons hbelow houter hpurpose' hsound hground hwaits) rfl
    cases hlevel' : level.purpose with
    | finish => cases hpurpose.1 hlevel'
    | pass =>
      rw [unwind]
      simp only [hlevel', hleave]
      refine ih hworld hwaiting houter hpurpose' ?_ (he.atLine level.line)
      exact m.thread.extends_showing below above []
    | «catch» depth =>
      simp only [unwind, hlevel', hleave]
      refine .more ⟨hworld, hwaits.push ?_, hwaiting⟩
      refine Value.every_tuple_iff.2 ?_
      intro v hv
      simp only [List.mem_cons, List.not_mem_nil, or_false] at hv
      obtain rfl | rfl | rfl := hv <;> exact Value.every_of_isFlat rfl

/-- The value of the innermost call goes to whoever made the call. -/
theorem answer_sound {below : List Activation} {level : Level} {levels : List Level} {v : Value}
    (hworld : m.world.Sound κ) (hwaiting : ∀ w ∈ m.waiting, w.2.Waits κ)
    (hlevels : m.thread.levels = level :: levels) (hbelow : Suspended κ below levels)
    (hpurpose : level.purpose = .finish ↔ levels = []) (hshows : m = m.showing below [])
    (hv : v.Sound κ) : (m.answer v).Sound κ := by
  have hthread : m.thread = m.thread.showing below [] := congrArg Machine.thread hshows
  cases hbelow with
  | nil =>
    have hfinish : level.purpose = .finish := hpurpose.2 rfl
    simp only [answer, hlevels, hfinish]
    refine finish_sound hworld hwaiting ⟨rfl, ?_⟩ hv
    rw [hthread]
    rfl
  | @cons below above outer levels hbelow houter hpurpose' hsound hground hwaits =>
    have hwaits : { m.thread with levels := outer :: levels }.Waits κ := by
      refine .intro rfl (.cons hbelow houter hpurpose' hsound hground hwaits) ?_
      rw [hthread]
      rfl
    cases hlevel' : level.purpose with
    | finish => cases hpurpose.1 hlevel'
    | pass =>
      simp only [answer, hlevels, hlevel']
      exact .more ⟨hworld, hwaits.push hv, hwaiting⟩
    | «catch» depth =>
      simp only [answer, hlevels, hlevel']
      refine .more ⟨hworld, hwaits.push ?_, hwaiting⟩
      refine Value.every_tuple_iff.2 ?_
      intro w hw
      simp only [List.mem_cons, List.not_mem_nil, or_false] at hw
      obtain rfl | rfl := hw
      · exact Value.every_of_isFlat rfl
      · exact hv

end Machine

end Resumable
