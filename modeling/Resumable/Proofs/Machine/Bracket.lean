import Resumable.Proofs.Machine.Progress

/-!
Calls are well bracketed. Whatever a call does, and however it ends, the thread on which it was made
is then what it was before. While the call is in progress, everything below it stays in place, also
when the thread waits for a task.
-/

namespace Resumable

namespace Machine

/-- What becomes of the outcome of a call that has just returned: it ends the thread, or it is the
outcome of the function that made the call, or that function turns it into a value. -/
def deliver (m : Machine) (level : Level) : Except RuntimeError Value → Progress
  | .ok v =>
    match level.purpose with
    | .finish => m.finish (.ok v)
    | .pass => .more { m with thread := m.thread.push v }
    | .catch _ => .more { m with thread := m.thread.push (.tuple [.str "ok", v]) }
  | .error e =>
    match level.purpose with
    | .finish => m.finish (.error e)
    | .pass => m.unwind (e.atLine level.line) m.thread.levels
    | .catch depth =>
      let change : Int := (m.thread.frames.size : Int) - depth
      let report := Value.tuple [.str "err", .str e.message, .int (Int64.ofInt change)]
      .more { m with thread := m.thread.push report }

theorem answer_eq_deliver {m : Machine} {level : Level} {levels : List Level}
    (hlevels : m.thread.levels = level :: levels) (v : Value) :
    m.answer v = { m with thread := { m.thread with levels } }.deliver level (.ok v) := by
  rw [answer, hlevels]
  rfl

theorem unwind_eq_deliver (m : Machine) (e : RuntimeError) (level : Level) (levels : List Level) :
    m.unwind e (level :: levels) =
      { m with thread := { m.thread.leave level with levels } }.deliver level (.error e) := by
  rw [unwind]
  rfl

/-- What a move can do to the innermost call, above the given activations: it goes on, perhaps in
another phase, with an inner call or while its thread waits for a task; or it returns; or it fails. -/
inductive Moves (m : Machine) (below : List Activation) (level : Level) (levels : List Level) :
    Progress → Prop
  | on {m' : Machine} {phase : Phase}
    (honward : Onward m.waiting ({ level with phase } :: levels) below m') :
    Moves m below level levels (.more m')
  | answers {m' : Machine} {v : Value} (hwaiting : m'.waiting = m.waiting)
    (hlevels : m'.thread.levels = level :: levels)
    (hshows : m'.thread = m'.thread.showing below []) : Moves m below level levels (m'.answer v)
  | fails {m' : Machine} {phase : Phase} {e : RuntimeError} (hwaiting : m'.waiting = m.waiting)
    (hextends : m'.thread.Extends below) :
    Moves m below level levels (m'.unwind e ({ level with phase } :: levels))

variable {κ : Kind} {m m' : Machine} {below : List Activation} {level : Level} {levels : List Level}

theorem moves_of_stop {phase : Phase} {e : RuntimeError} {m₁ : Machine}
    (hlevels : m₁.thread.levels = { level with phase } :: levels) (hwaiting : m₁.waiting = m.waiting)
    (hretains : m₁.Retains m' below) (line : Nat) :
    m.Moves below level levels (m'.stop line (.error e)) := by
  rw [stop, hretains.levels, hlevels]
  exact .fails (hretains.waiting.trans hwaiting) hretains.extends

/-- Every move does one of these things to the innermost call. -/
theorem Ready.moves {above : List Activation} {extra : List Value}
    (hready : m.Ready κ below level levels) (hunderway : Underway κ level.phase above extra)
    (hshows : m = m.showing (below ++ above) extra) : m.Moves below level levels m.advance := by
  have hextends : m.thread.Extends below := by
    rw [hshows]
    exact m.thread.extends_showing below above extra
  rw [Machine.advance, hready.calls]
  simp only []
  generalize hphase : level.phase = phase at hunderway
  cases hunderway with
  | @made callee args hcallee hargs hfew =>
    have hcalls := (hready.setPhase .opening).calls
    have hsafe := hready.opening_safe hshows hcallee hargs hfew
    change m.Moves below level levels (m.openCall callee args)
    rw [openCall, ← Machine.setPhase]
    cases hcall : Exec.call callee args 0 false (m.setPhase .opening) with
    | ok u m' =>
      rw [hcall] at hsafe
      have honward := hsafe.2
      rw [hcalls] at honward
      exact .on honward
    | error s m' =>
      rw [hcall] at hsafe
      cases s with
      | error e => exact moves_of_stop (m := m) hcalls rfl hsafe.2.2 0
      | corrupt => exact hsafe.elim
  | @given v hv =>
    change m.Moves below level levels (settleCall m level)
    rw [settleCall, if_neg (by rw [hready.depth_lt_iff hshows]; simp), pop_given hshows]
    exact .answers rfl hready.calls rfl
  | @entered _ pre a hentered hpre ha hground =>
    obtain rfl | rfl := hentered
    · change m.Moves below level levels (settleCall m level)
      rw [settleCall, if_pos ((hready.depth_lt_iff hshows).2 (by simp))]
      refine @Moves.on _ _ _ _ _ .running (.same rfl (hready.setPhase .running).calls ?_)
      simp only [Thread.setPhase, hready.calls]
      exact hextends
    · change m.Moves below level levels (runInstruction m)
      obtain ⟨i, m', hfetch, hexecutes⟩ := hready.step_executes hpre hphase ha hground
      rw [← hshows] at hfetch
      rw [runInstruction, hfetch]
      simp only []
      cases hrun : Exec.execute i m' with
      | ok result m'' =>
        rw [hrun] at hexecutes
        cases result with
        | none =>
          have honward := hexecutes.2
          rw [hready.calls] at honward
          exact @Moves.on _ _ _ _ _ level.phase honward
        | some v =>
          obtain ⟨hv, rfl⟩ := hexecutes
          exact .answers rfl hready.calls rfl
      | error s m'' =>
        rw [hrun] at hexecutes
        cases s with
        | error e =>
          have hcalls : m.thread.levels = { level with phase := level.phase } :: levels := hready.calls
          exact moves_of_stop hcalls rfl hexecutes.2.2 i.line
        | corrupt => exact hexecutes.elim

theorem Sound.moves (hsound : m.Sound κ) :
    ∃ below level levels, m.Ready κ below level levels ∧ m.thread.Extends below ∧
      m.Moves below level levels m.advance := by
  obtain ⟨below, above, extra, level, levels, hready, hunderway, hshows⟩ := hsound.ready
  refine ⟨below, level, levels, hready, ?_, hready.moves hunderway hshows⟩
  rw [hshows]
  exact m.thread.extends_showing below above extra

end Machine

/-- The activations below a call are not more than those below another one. -/
structure Shorter (start below : List Activation) : Prop where
  length : start.length ≤ below.length
  height : heightOf start ≤ heightOf below
  handlers : (handlersFrom 0 0 start).length ≤ (handlersFrom 0 0 below).length

theorem Level.Above.shorter {first : Level} {start below rest : List Activation}
    {phase : Phase} (hstart : first.Above start) (hbelow : { first with phase }.Above below) :
    Shorter start (below ++ rest) := by
  have hdepth := hstart.depth.symm.trans hbelow.depth
  have hheight := hstart.height.symm.trans hbelow.height
  have hhandlers := hstart.handlers.symm.trans hbelow.handlers
  refine ⟨?_, ?_, ?_⟩
  · rw [List.length_append]
    omega
  · rw [heightOf_append]
    omega
  · rw [handlersFrom_append, List.length_append]
    omega

/-- Calls that wait have the activations below each of them in place. -/
theorem Suspended.above_of_append {κ : Kind} {acts : List Activation} {inner outer : List Level}
    {first : Level} (hacts : Suspended κ acts (inner ++ first :: outer)) :
    ∃ below rest, acts = below ++ rest ∧ first.Above below := by
  induction inner generalizing acts with
  | nil =>
    cases hacts with
    | cons _ hlevel => exact ⟨_, _, rfl, hlevel⟩
  | cons level inner ih =>
    cases hacts with
    | cons hbelow =>
      obtain ⟨below, rest, rfl, hlevel⟩ := ih hbelow
      exact ⟨below, _, List.append_assoc _ _ _, hlevel⟩

/-- There is no more below a call than below the calls inside it. -/
theorem Suspended.shorter {κ : Kind} {start below : List Activation} {level first : Level}
    {levels outer inner : List Level} {phase : Phase} (hbelow : Suspended κ below levels)
    (hlevel : level.Above below) (hlevels : level :: levels = inner ++ { first with phase } :: outer)
    (hstart : first.Above start) : Shorter start below := by
  cases inner with
  | nil =>
    cases hlevels
    have hshorter : Shorter start (below ++ []) := hstart.shorter hlevel
    rwa [List.append_nil] at hshorter
  | cons level' inner =>
    cases hlevels
    obtain ⟨below', rest, rfl, habove⟩ := hbelow.above_of_append
    exact hstart.shorter habove

namespace Thread

variable {t t' : Thread} {below start : List Activation}

/-- What is below a call stays in place as long as what is below a call inside it does. -/
theorem Extends.of_shorter (hextends' : t'.Extends below) (hextends : t.Extends below)
    (hstart : t.Extends start) (hshorter : Shorter start below) : t'.Extends start := by
  have hprefix : ∀ {α : Type} {as bs xs ys : List α}, (as ++ xs).toArray = (bs ++ ys).toArray →
      bs.length ≤ as.length → ∃ rest, as = bs ++ rest := by
    intro α as bs xs ys hsame hle
    have hlist : as ++ xs = bs ++ ys := by simpa using hsame
    obtain ⟨rest, hrest⟩ := List.prefix_of_prefix_length_le (List.prefix_append bs ys)
      (hlist ▸ List.prefix_append as xs) hle
    exact ⟨rest, hrest.symm⟩
  obtain ⟨frames, stack, handlers, hf, hs, hh⟩ := hextends
  obtain ⟨frames₀, stack₀, handlers₀, hf₀, hs₀, hh₀⟩ := hstart
  obtain ⟨frames', stack', handlers', hf', hs', hh'⟩ := hextends'
  obtain ⟨fs, hfs⟩ := hprefix (hf.symm.trans hf₀) (by simpa using hshorter.length)
  obtain ⟨vs, hvs⟩ := hprefix (hs.symm.trans hs₀) (by simpa using hshorter.height)
  obtain ⟨hs, hhs⟩ := hprefix (hh.symm.trans hh₀) hshorter.handlers
  rw [hfs, List.append_assoc] at hf'
  rw [hvs, List.append_assoc] at hs'
  rw [hhs, List.append_assoc] at hh'
  exact ⟨_, _, _, hf', hs', hh'⟩

theorem extends_self (t : Thread) (acts : List Activation) (extra : List Value) :
    (t.showing acts extra).Extends acts := by
  have hshown := t.extends_showing acts [] extra
  rwa [List.append_nil] at hshown

theorem Extends.push (hextends : t.Extends below) (v : Value) : (t.push v).Extends below := by
  obtain ⟨frames, stack, handlers, hframes, hstack, hhandlers⟩ := hextends
  refine ⟨frames, stack ++ [v], handlers, hframes, ?_, hhandlers⟩
  simp [Thread.push, hstack]

/-- A call is in progress on a thread, and everything that was there when it was made still is. -/
structure Bears (t : Thread) (start : List Activation) (first : Level) (outer : List Level) :
    Prop where
  calls : ∃ inner phase, t.levels = inner ++ { first with phase } :: outer
  «extends» : t.Extends start

theorem Bears.push {first : Level} {outer : List Level} (hbears : t.Bears start first outer)
    (v : Value) : (t.push v).Bears start first outer :=
  ⟨hbears.calls, hbears.extends.push v⟩

end Thread

namespace Machine

section

variable (start : List Activation) (first : Level) (outer : List Level)
  (waiting : List (Int × Thread))

/-- A call is in progress in a machine: on the thread that runs, or on one that waits for a task. -/
inductive InCourse (m : Machine) : Prop
  | running (hwaiting : m.waiting = waiting) (hbears : m.thread.Bears start first outer)
  | waiting {tasks : List (Int × Thread)} {id : Int} {t : Thread}
    (hwaiting : m.waiting = tasks ++ (id, t) :: waiting) (hbears : t.Bears start first outer)

/-- A call has returned, and its thread is as it was before. -/
structure Returned (m : Machine) : Prop where
  waiting : m.waiting = waiting
  levels : m.thread.levels = outer
  shows : m.thread = m.thread.showing start []

/-- A call goes on, or it returns with an outcome, which is delivered. -/
inductive Proceeds : Progress → Prop
  | on {m : Machine} (hm : InCourse start first outer waiting m) : Proceeds (.more m)
  | returns {m : Machine} (result : Except RuntimeError Value)
    (hm : Returned start outer waiting m) : Proceeds (m.deliver first result)

end

variable {κ : Kind} {m : Machine} {start below : List Activation} {level first : Level}
  {levels outer inner : List Level} {waiting : List (Int × Thread)} {phase : Phase}

/-- The thread is as it was when a call was made, once that call is left. -/
theorem returned_of_leave (hstart : first.Above start) (hextends : m.thread.Extends start)
    (hwaiting : m.waiting = waiting) :
    Returned start outer waiting
      { m with thread := { m.thread.leave { first with phase } with levels := outer } } := by
  have habove : { first with phase }.Above start := ⟨hstart.depth, hstart.height, hstart.handlers⟩
  refine ⟨hwaiting, rfl, ?_⟩
  simp only [Thread.leave_eq_showing hextends habove]
  rfl

/-- A call that fails ends the calls inside it until one catches the failure, and then itself. -/
theorem unwind_proceeds {e : RuntimeError} (hstart : first.Above start)
    (hwaiting : m.waiting = waiting) (hbelow : Suspended κ below levels) (hlevel : level.Above below)
    (hpurpose : level.purpose = .finish ↔ levels = []) (hextends : m.thread.Extends below)
    (hlevels : level :: levels = inner ++ { first with phase } :: outer)
    (hbears : m.thread.Extends start) :
    Proceeds start first outer waiting (m.unwind e (level :: levels)) := by
  have hshorter := hbelow.shorter hlevel hlevels hstart
  induction inner generalizing m below level levels e with
  | nil =>
    cases hlevels
    rw [unwind_eq_deliver]
    exact .returns (.error e) (returned_of_leave hstart hbears hwaiting)
  | cons level' inner ih =>
    obtain ⟨rfl, hrest⟩ : level = level' ∧ levels = inner ++ { first with phase } :: outer := by
      simpa using hlevels
    have hleave := Thread.leave_eq_showing hextends hlevel
    have hstill : (m.thread.showing below []).Extends start :=
      (m.thread.extends_self below []).of_shorter hextends hbears hshorter
    cases hkind : level.purpose with
    | finish =>
      have hnil := hpurpose.1 hkind
      simp [hrest] at hnil
    | pass =>
      simp only [unwind, hkind, hleave]
      cases hbelow with
      | nil => simp at hrest
      | @cons below above outer' levels hbelow houter hpurpose' _ _ _ =>
        refine ih hwaiting hbelow houter hpurpose' ?_ hrest hstill
          (hbelow.shorter houter hrest hstart)
        exact m.thread.extends_showing below above []
    | «catch» depth =>
      have hbears' : Thread.Bears { m.thread.showing below [] with levels } start first outer :=
        ⟨⟨inner, phase, hrest⟩, hstill⟩
      simp only [unwind, hkind, hleave]
      exact .on (.running hwaiting (hbears'.push _))

/-- The value of the innermost call goes to the call outside, or is the outcome of the call itself. -/
theorem answer_proceeds {v : Value} (hstart : first.Above start) (hwaiting : m.waiting = waiting)
    (hlevel : level.Above below) (hpurpose : level.purpose = .finish ↔ levels = [])
    (hcalls : m.thread.levels = level :: levels) (hshows : m.thread = m.thread.showing below [])
    (hlevels : level :: levels = inner ++ { first with phase } :: outer)
    (hbears : m.thread.Extends start) :
    Proceeds start first outer waiting (m.answer v) := by
  rw [answer_eq_deliver hcalls]
  cases inner with
  | nil =>
    cases hlevels
    refine .returns (.ok v) ⟨hwaiting, rfl, ?_⟩
    -- both lists of activations end where the call was made
    have hself : m.thread.Extends below := hshows ▸ m.thread.extends_self below []
    have hleave := Thread.leave_eq_showing hbears hstart
    have hleave' : m.thread.leave first = m.thread.showing below [] :=
      Thread.leave_eq_showing hself ⟨hlevel.depth, hlevel.height, hlevel.handlers⟩
    have hsame : m.thread = m.thread.showing start [] := by
      rw [← hleave, hleave', ← hshows]
    rw [hsame]
    rfl
  | cons level' inner =>
    obtain ⟨rfl, hrest⟩ : level = level' ∧ levels = inner ++ { first with phase } :: outer := by
      simpa using hlevels
    have hbears' : Thread.Bears { m.thread with levels } start first outer :=
      ⟨⟨inner, phase, hrest⟩, hbears⟩
    cases hkind : level.purpose with
    | finish =>
      have hnil := hpurpose.1 hkind
      simp [hrest] at hnil
    | pass =>
      simp only [deliver, hkind]
      exact .on (.running hwaiting (hbears'.push v))
    | «catch» depth =>
      simp only [deliver, hkind]
      exact .on (.running hwaiting (hbears'.push _))

/-- What a thread that waits for a task does when another thread moves: it goes on waiting, or it gets a
value and goes on. -/
inductive WaitsOn (waiting tasks : List (Int × Thread)) (id : Int) (t : Thread) : Progress → Prop
  | waits {m : Machine} {tasks' : List (Int × Thread)}
    (hwaiting : m.waiting = tasks' ++ (id, t) :: waiting) : WaitsOn waiting tasks id t (.more m)
  | goesOn {m : Machine} {v : Value} (hlast : tasks = []) (hwaiting : m.waiting = waiting)
    (hthread : m.thread = t.push v) : WaitsOn waiting tasks id t (.more m)

theorem finish_waitsOn {tasks : List (Int × Thread)} {id : Int} {t : Thread}
    (hwaiting : m.waiting = tasks ++ (id, t) :: waiting) (thread : Thread)
    (result : Except RuntimeError Value) :
    WaitsOn waiting tasks id t ({ m with thread }.finish result) := by
  cases tasks with
  | nil =>
    rw [List.nil_append] at hwaiting
    simp only [finish, hwaiting]
    exact .goesOn rfl rfl rfl
  | cons task tasks =>
    rw [List.cons_append] at hwaiting
    simp only [finish, hwaiting]
    exact .waits rfl

theorem answer_waitsOn {tasks : List (Int × Thread)} {id : Int} {t : Thread}
    (hwaiting : m.waiting = tasks ++ (id, t) :: waiting) (v : Value) :
    WaitsOn waiting tasks id t (m.answer v) := by
  cases hlevels : m.thread.levels with
  | nil =>
    rw [answer, hlevels]
    exact finish_waitsOn hwaiting _ _
  | cons level levels =>
    rw [answer_eq_deliver hlevels]
    cases hkind : level.purpose with
    | finish =>
      simp only [deliver, hkind]
      exact finish_waitsOn hwaiting _ _
    | pass =>
      simp only [deliver, hkind]
      exact .waits hwaiting
    | «catch» depth =>
      simp only [deliver, hkind]
      exact .waits hwaiting

theorem unwind_waitsOn {tasks : List (Int × Thread)} {id : Int} {t : Thread}
    (hwaiting : m.waiting = tasks ++ (id, t) :: waiting) (e : RuntimeError) (levels : List Level) :
    WaitsOn waiting tasks id t (m.unwind e levels) := by
  induction levels generalizing m e with
  | nil => exact finish_waitsOn hwaiting _ _
  | cons level levels ih =>
    cases hkind : level.purpose with
    | finish =>
      simp only [unwind, hkind]
      exact finish_waitsOn hwaiting _ _
    | pass =>
      simp only [unwind, hkind]
      apply ih
      exact hwaiting
    | «catch» depth =>
      simp only [unwind, hkind]
      exact .waits hwaiting

/-- A thread that waits is left alone by the moves of other threads, but for the number of the task for
which it waits. -/
theorem Sound.waitsOn {tasks : List (Int × Thread)} {id : Int} {t : Thread} (hsound : m.Sound κ)
    (hwaiting : m.waiting = tasks ++ (id, t) :: waiting) : WaitsOn waiting tasks id t m.advance := by
  obtain ⟨below, level, levels, _, _, hmoves⟩ := hsound.moves
  generalize m.advance = progress at hmoves
  cases hmoves with
  | on honward =>
    cases honward with
    | same hsame => exact .waits (hsame.trans hwaiting)
    | called hsame => exact .waits (hsame.trans hwaiting)
    | spawned hmore =>
      rw [hwaiting, ← List.cons_append] at hmore
      exact .waits hmore
  | answers hsame => exact answer_waitsOn (hsame.trans hwaiting) _
  | fails hsame => exact unwind_waitsOn (hsame.trans hwaiting) _ _

/-- One move in the course of a call. -/
theorem InCourse.advance (hcourse : InCourse start first outer waiting m) (hsound : m.Sound κ)
    (hstart : first.Above start) : Proceeds start first outer waiting m.advance := by
  cases hcourse with
  | running hwaiting hbears =>
    obtain ⟨below, level, levels, hready, hextends, hmoves⟩ := hsound.moves
    generalize m.advance = progress at hmoves
    obtain ⟨⟨inner, phase, hlevels⟩, hbears⟩ := hbears
    rw [hready.calls] at hlevels
    have hshorter := hready.suspended.shorter hready.above hlevels hstart
    -- the call may be the innermost one itself, whose phase changes
    have hcalls : ∀ phase₁, ∃ inner' phase', { level with phase := phase₁ } :: levels =
        inner' ++ { first with phase := phase' } :: outer := by
      intro phase₁
      cases inner with
      | nil =>
        cases hlevels
        exact ⟨[], phase₁, rfl⟩
      | cons level' inner =>
        cases hlevels
        exact ⟨{ level with phase := phase₁ } :: inner, phase, rfl⟩
    cases hmoves with
    | @on m' phase₁ honward =>
      obtain ⟨inner', phase', hcalls⟩ := hcalls phase₁
      cases honward with
      | same hsame hlevels' hextends' =>
        refine .on (.running (hsame.trans hwaiting) ⟨⟨inner', phase', hlevels'.trans hcalls⟩, ?_⟩)
        exact hextends'.of_shorter hextends hbears hshorter
      | @called deeper hsame hlevels' hextends' =>
        refine .on (.running (hsame.trans hwaiting) ⟨⟨deeper :: inner', phase', ?_⟩, ?_⟩)
        · rw [hlevels', hcalls, List.cons_append]
        · exact hextends'.of_shorter hextends hbears hshorter
      | @spawned id t hmore hlevels' hextends' =>
        have hfirst : m'.waiting = [] ++ (id, t) :: waiting := by
          rw [hmore, hwaiting, List.nil_append]
        refine .on (.waiting hfirst ⟨⟨inner', phase', hlevels'.trans hcalls⟩, ?_⟩)
        exact hextends'.of_shorter hextends hbears hshorter
    | @answers m' v hwaiting' hlevels' hshows =>
      have hself : m'.thread.Extends below := hshows ▸ m'.thread.extends_self below []
      exact answer_proceeds hstart (hwaiting'.trans hwaiting) hready.above hready.purpose hlevels'
        hshows hlevels (hself.of_shorter hextends hbears hshorter)
    | @fails m' phase₁ e hwaiting' hextends' =>
      obtain ⟨inner', phase', hcalls⟩ := hcalls phase₁
      exact unwind_proceeds hstart (hwaiting'.trans hwaiting) hready.suspended
        ⟨hready.above.depth, hready.above.height, hready.above.handlers⟩ hready.purpose hextends'
        hcalls (hextends'.of_shorter hextends hbears hshorter)
  | @waiting tasks id t hwaiting hbears =>
    have hwaits := hsound.waitsOn hwaiting
    generalize m.advance = progress at hwaits
    cases hwaits with
    | waits hwaiting' => exact .on (.waiting hwaiting' hbears)
    | goesOn _ hwaiting' hthread => exact .on (.running hwaiting' (hthread ▸ hbears.push _))

/-- The innermost call of a machine is still in progress in another one: more threads wait, or as many
and no fewer calls are in progress. -/
def Encloses (m m' : Machine) : Prop :=
  m.waiting.length < m'.waiting.length ∨
    m.waiting.length = m'.waiting.length ∧ m.thread.levels.length ≤ m'.thread.levels.length

/-- The machines in the course of the innermost call of a machine, from that machine on. -/
inductive During (m : Machine) : Machine → Prop
  | made : During m m
  | next {m' m'' : Machine} (hbefore : During m m') (hmove : m'.advance = .more m'')
    (hinside : m.Encloses m'') : During m m''

instance (m m' : Machine) : Decidable (m.Encloses m') :=
  inferInstanceAs (Decidable (_ ∨ _))

theorem after_succ (n : Nat) (m : Machine) : m.after (n + 1) = (m.after n).after 1 := by
  induction n generalizing m with
  | zero => rfl
  | succ n ih =>
    cases hmove : m.advance with
    | more m' =>
      have hfirst : ∀ k, m.after (k + 1) = m'.after k := by
        intro k
        rw [after, hmove]
      rw [hfirst, hfirst, ih]
    | ended outcome m' => simp only [after, hmove]

/-- A call is in progress as long as none of the machines on the way is outside of it. -/
theorem During.after {m : Machine} {n : Nat} (hinside : ∀ i < n, m.Encloses (m.after (i + 1))) :
    m.During (m.after n) := by
  induction n with
  | zero => exact .made
  | succ n ih =>
    have hbefore := ih fun i hi => hinside i (Nat.lt_succ_of_lt hi)
    have hlast := hinside n (Nat.lt_succ_self n)
    rw [after_succ] at hlast ⊢
    rw [Machine.after] at hlast ⊢
    cases hmove : (m.after n).advance with
    | more m' =>
      rw [hmove] at hlast
      exact .next hbefore hmove hlast
    | ended outcome m' => exact hbefore

/-- A call that a machine is about to make has returned, and left the frames, the stack and the
handlers as they were. -/
structure Restores (m : Machine) (outer : List Level) (m' : Machine) : Prop where
  frames : m'.thread.frames = m.thread.frames
  stack : m'.thread.stack = m.thread.stack
  handlers : m'.thread.handlers = m.thread.handlers
  levels : m'.thread.levels = outer
  waiting : m'.waiting = m.waiting

/-- Threads that show the same activations and no operands above them have the same frames, the same
stack and the same handlers. -/
theorem restores_of_shows (hshows : m.thread = m.thread.showing below [])
    (hshows' : m'.thread = m'.thread.showing below []) (hlevels : m'.thread.levels = outer)
    (hwaiting : m'.waiting = m.waiting) : m.Restores outer m' where
  frames := (congrArg Thread.frames hshows').trans (congrArg Thread.frames hshows).symm
  stack := (congrArg Thread.stack hshows').trans (congrArg Thread.stack hshows).symm
  handlers := (congrArg Thread.handlers hshows').trans (congrArg Thread.handlers hshows).symm
  levels := hlevels
  waiting := hwaiting

theorem InCourse.encloses {m₀ : Machine} (hlevels : m₀.thread.levels = first :: outer)
    (hcourse : InCourse start first outer m₀.waiting m) : m₀.Encloses m := by
  cases hcourse with
  | running hwaiting hbears =>
    obtain ⟨inner, phase, hcalls⟩ := hbears.calls
    refine Or.inr ⟨by rw [hwaiting], ?_⟩
    rw [hlevels, hcalls, List.length_append, List.length_cons, List.length_cons]
    omega
  | waiting hwaiting =>
    refine Or.inl ?_
    rw [hwaiting, List.length_append, List.length_cons]
    omega

theorem finish_shallow {m' : Machine} {result : Except RuntimeError Value}
    (hfinish : m.finish result = .more m') : m'.waiting.length < m.waiting.length := by
  unfold finish at hfinish
  split at hfinish
  next => cases result <;> cases hfinish
  next hwaiting =>
    cases hfinish
    rw [hwaiting, List.length_cons]
    exact Nat.lt_succ_self _

theorem unwind_shallow {m' : Machine} {e : RuntimeError} {levels : List Level}
    (hunwind : m.unwind e levels = .more m') :
    m'.waiting.length < m.waiting.length ∨
      m'.waiting = m.waiting ∧ m'.thread.levels.length < levels.length := by
  induction levels generalizing m e with
  | nil =>
    rw [unwind] at hunwind
    have hless := finish_shallow hunwind
    exact Or.inl hless
  | cons level levels ih =>
    cases hkind : level.purpose with
    | finish =>
      simp only [unwind, hkind] at hunwind
      have hless := finish_shallow hunwind
      exact Or.inl hless
    | pass =>
      simp only [unwind, hkind] at hunwind
      obtain hless | ⟨hsame, hless⟩ := ih hunwind
      · exact Or.inl hless
      · exact Or.inr ⟨hsame, Nat.lt_succ_of_lt hless⟩
    | «catch» depth =>
      simp only [unwind, hkind] at hunwind
      cases hunwind
      exact Or.inr ⟨rfl, Nat.lt_succ_self _⟩

/-- Once the outcome of a call is delivered, the call is no longer in progress. -/
theorem deliver_not_encloses {m₀ m' : Machine} {result : Except RuntimeError Value}
    (hlevels : m₀.thread.levels = first :: outer) (hreturned : Returned start outer m₀.waiting m)
    (hdeliver : m.deliver first result = .more m') : ¬ m₀.Encloses m' := by
  have hshallow : m'.waiting.length < m₀.waiting.length ∨
      m'.waiting.length = m₀.waiting.length ∧ m'.thread.levels.length ≤ outer.length := by
    rw [← hreturned.waiting, ← hreturned.levels]
    cases result with
    | ok v =>
      rw [deliver] at hdeliver
      split at hdeliver
      next => exact Or.inl (finish_shallow hdeliver)
      next =>
        cases hdeliver
        exact Or.inr ⟨rfl, Nat.le_refl _⟩
      next =>
        cases hdeliver
        exact Or.inr ⟨rfl, Nat.le_refl _⟩
    | error e =>
      rw [deliver] at hdeliver
      split at hdeliver
      next => exact Or.inl (finish_shallow hdeliver)
      next =>
        obtain hless | ⟨hsame, hless⟩ := unwind_shallow hdeliver
        · exact Or.inl hless
        · exact Or.inr ⟨by rw [hsame], Nat.le_of_lt hless⟩
      next =>
        cases hdeliver
        exact Or.inr ⟨rfl, Nat.le_refl _⟩
  unfold Encloses
  rw [hlevels, List.length_cons]
  omega

/-- A machine in the course of a call. -/
theorem During.inCourse {m₀ : Machine} (hduring : m₀.During m) (hsound : m₀.Sound κ)
    (hlevels : m₀.thread.levels = first :: outer) (hstart : first.Above start)
    (hextends : m₀.thread.Extends start) :
    m.Sound κ ∧ InCourse start first outer m₀.waiting m := by
  induction hduring with
  | made => exact ⟨hsound, .running rfl ⟨⟨[], first.phase, hlevels⟩, hextends⟩⟩
  | @next m m' _ hmove hinside ih =>
    obtain ⟨hm, hcourse⟩ := ih
    have hsound' := hm.advance
    have hproceeds := hcourse.advance hm hstart
    rw [hmove] at hsound'
    cases hsound' with
    | more hm' =>
      refine ⟨hm', ?_⟩
      generalize hprogress : m.advance = progress at hproceeds
      cases hproceeds with
      | on hcourse' =>
        rw [hmove] at hprogress
        cases hprogress
        exact hcourse'
      | returns result hreturned =>
        rw [hmove] at hprogress
        exact absurd hinside (deliver_not_encloses hlevels hreturned hprogress.symm)

/-- Every move in the course of a call stays in its course, or the call returns, and its thread is as
it was when the call was made. -/
theorem Sound.stays_or_restores {m₀ : Machine} {callee : Value} {args : List Value} (hsound : m₀.Sound κ)
    (hlevels : m₀.thread.levels = first :: outer) (hphase : first.phase = .made callee args)
    (hduring : m₀.During m) :
    (∃ m', m.advance = .more m' ∧ m₀.During m') ∨
      ∃ result m', m.advance = m'.deliver first result ∧ m₀.Restores outer m' := by
  obtain ⟨below, above, extra, level, levels, hready, hunderway, hshows⟩ := hsound.ready
  rw [hready.calls] at hlevels
  cases hlevels
  rw [hphase] at hunderway
  cases hunderway with
  | entered hentered => simp at hentered
  | made =>
    rw [List.append_nil] at hshows
    have hextends : m₀.thread.Extends below := by
      rw [hshows]
      exact m₀.thread.extends_self below []
    obtain ⟨hm, hcourse⟩ := hduring.inCourse hsound hready.calls hready.above hextends
    have hproceeds := hcourse.advance hm hready.above
    generalize hprogress : m.advance = progress at hproceeds
    cases hproceeds with
    | @on m' hcourse' =>
      exact Or.inl ⟨m', rfl, .next hduring hprogress (hcourse'.encloses hready.calls)⟩
    | @returns m' result hreturned =>
      exact Or.inr ⟨result, m', rfl, restores_of_shows (congrArg Machine.thread hshows)
        hreturned.shows hreturned.levels hreturned.waiting⟩

end Machine

end Resumable
