import Resumable.Proofs.Machine.Progress
import Resumable.Proofs.Machine.UnlinedStep

/-!
Runs without lines. Machines that are equal without their lines stay so, move by move, and come to the
same end, as long as no failure is caught: who catches a failure is told its wording, and that names
the line.
-/

namespace Resumable

/-- Outcomes that are equal but for lines; of failures the root is the same. -/
inductive Outcome.Same : Outcome → Outcome → Prop
  | returned {v v' : Value} (hv : SameValue v v') : Same (.returned v) (.returned v')
  | failed {e e' : RuntimeError} (hroot : e.root = e'.root) : Same (.failed e) (.failed e')
  | crashed : Same .crashed .crashed

/-- Moves that lead to the same but for lines. -/
inductive Progress.Same : Progress → Progress → Prop
  | more {m m' : Machine} (hm : m.unlined = m'.unlined) : Same (.more m) (.more m')
  | ended {o o' : Outcome} {m m' : Machine} (ho : o.Same o') (hm : m.unlined = m'.unlined) :
    Same (.ended o m) (.ended o' m')

/-- Whether a failure ends up with a function that catches it, given the calls in progress with the
innermost first. -/
def caught : List Level → Bool
  | [] => false
  | level :: levels =>
    match level.purpose with
    | .finish => false
    | .pass => caught levels
    | .catch _ => true

/-- Where an action has failed, if it has. -/
def failed? {α : Type} : EStateM.Result Stop Machine α → Option Machine
  | .error (.error _) m => some m
  | _ => none

namespace Machine

/-- Where the next move of a machine fails, if it does. -/
def failing? (m : Machine) : Option Machine :=
  match m.thread.levels with
  | [] => none
  | level :: _ =>
    match level.phase with
    | .made callee args =>
      failed? (Exec.call callee args 0 false { m with thread := m.thread.setPhase .opening })
    | .opening => if level.depth < m.thread.frames.size then none else failed? (Exec.pop m)
    | .running => failed? ((Exec.fetch >>= Exec.execute) m)

/-- Whether the next move of a machine fails and a function of an embedding catches the failure. -/
def catches (m : Machine) : Bool :=
  m.failing?.any fun m => caught m.thread.levels

variable {m m' : Machine}

/-- The calls in progress are equal without lines. -/
theorem levels_unlined (hm : m.unlined = m'.unlined) :
    m.thread.levels.map Level.unlined = m'.thread.levels.map Level.unlined :=
  congrArg (fun m => m.thread.levels) hm

theorem unlined_withThread (hm : m.unlined = m'.unlined) {t t' : Thread}
    (ht : t.unlined = t'.unlined) :
    { m with thread := t }.unlined = { m' with thread := t' }.unlined := by
  obtain ⟨hworld, _, hwaiting⟩ := unlined_eq_iff.1 hm
  exact unlined_eq_iff.2 ⟨hworld, ht, hwaiting⟩

end Machine

namespace Level

variable {level level' : Level}

theorem unlined_eq_iff :
    level.unlined = level'.unlined ↔
      level.depth = level'.depth ∧ level.height = level'.height ∧
      level.handlers = level'.handlers ∧ level.phase.unlined = level'.phase.unlined ∧
      level.purpose = level'.purpose := by
  simp only [unlined, Level.mk.injEq, true_and]

end Level

namespace Thread

variable {t t' : Thread}

theorem unlined_push_congr (ht : t.unlined = t'.unlined) {v v' : Value} (hv : SameValue v v') :
    (t.push v).unlined = (t'.push v').unlined := by
  obtain ⟨hframes, hstack, hrest⟩ := unlined_eq_iff.1 ht
  refine unlined_eq_iff.2 ⟨hframes, ?_, hrest⟩
  simp only [push, Array.map_push, hstack, hv]

theorem unlined_withLevels (ht : t.unlined = t'.unlined) {levels levels' : List Level}
    (hlevels : levels.map Level.unlined = levels'.map Level.unlined) :
    { t with levels }.unlined = { t' with levels := levels' }.unlined := by
  obtain ⟨hframes, hstack, hhandlers, hlabel, hlimits, _⟩ := unlined_eq_iff.1 ht
  exact unlined_eq_iff.2 ⟨hframes, hstack, hhandlers, hlabel, hlimits, hlevels⟩

theorem unlined_setPhase_congr (ht : t.unlined = t'.unlined) {phase phase' : Phase}
    (hphase : phase.unlined = phase'.unlined) :
    (t.setPhase phase).unlined = (t'.setPhase phase').unlined := by
  obtain ⟨_, _, _, _, _, hlevels⟩ := unlined_eq_iff.1 ht
  unfold setPhase
  cases hl : t.levels with
  | nil =>
    cases hl' : t'.levels with
    | nil => exact ht
    | cons level' levels' => rw [hl, hl'] at hlevels; cases hlevels
  | cons level levels =>
    cases hl' : t'.levels with
    | nil => rw [hl, hl'] at hlevels; cases hlevels
    | cons level' levels' =>
      rw [hl, hl', List.map_cons, List.map_cons, List.cons.injEq] at hlevels
      obtain ⟨hdepth, hheight, hhandlers, _, hpurpose⟩ := Level.unlined_eq_iff.1 hlevels.1
      refine unlined_withLevels ht ?_
      rw [List.map_cons, List.map_cons, hlevels.2]
      congr 1
      exact Level.unlined_eq_iff.2 ⟨hdepth, hheight, hhandlers, hphase, hpurpose⟩

theorem unlined_leave_congr (ht : t.unlined = t'.unlined) {level level' : Level}
    (hlevel : level.unlined = level'.unlined) :
    (t.leave level).unlined = (t'.leave level').unlined := by
  obtain ⟨hframes, hstack, hhandlers, hrest⟩ := unlined_eq_iff.1 ht
  obtain ⟨hdepth, hheight, hcount, _⟩ := Level.unlined_eq_iff.1 hlevel
  refine unlined_eq_iff.2 ⟨?_, ?_, ?_, hrest⟩
  · simp only [leave, map_shrink, hframes, hdepth]
  · simp only [leave, map_shrink, hstack, hheight]
  · simp only [leave, map_shrink, hhandlers, hcount]

end Thread

namespace Machine

variable {m m' : Machine}

theorem finish_same (hm : m.unlined = m'.unlined) {result result' : Except RuntimeError Value}
    (hresult : unlinedResult result = unlinedResult result') :
    (m.finish result).Same (m'.finish result') := by
  obtain ⟨hworld, hthread, hwaiting⟩ := unlined_eq_iff.1 hm
  unfold finish
  cases hw : m.waiting with
  | nil =>
    cases hw' : m'.waiting with
    | cons task' waiting' => rw [hw, hw'] at hwaiting; cases hwaiting
    | nil =>
      cases result with
      | ok v =>
        cases result' with
        | ok v' => exact .ended (.returned (Except.ok.inj hresult)) hm
        | error e' => cases hresult
      | error e =>
        cases result' with
        | ok v' => cases hresult
        | error e' => exact .ended (.failed (Except.error.inj hresult)) hm
  | cons task waiting =>
    cases hw' : m'.waiting with
    | nil => rw [hw, hw'] at hwaiting; cases hwaiting
    | cons task' waiting' =>
      obtain ⟨id, parent⟩ := task
      obtain ⟨id', parent'⟩ := task'
      rw [hw, hw', List.map_cons, List.map_cons, List.cons.injEq, Prod.mk.injEq] at hwaiting
      obtain ⟨⟨hid, hparent⟩, hwaiting⟩ := hwaiting
      simp only at hid hparent
      subst hid
      obtain ⟨hglobals, hcells, hsupply, htasks, hrest⟩ := World.unlined_eq_iff.1 hworld
      refine .more (unlined_eq_iff.2 ⟨World.unlined_eq_iff.2
        ⟨hglobals, hcells, hsupply, ?_, hrest⟩, Thread.unlined_push_congr hparent rfl, hwaiting⟩)
      simp only [Tasks.unlined, Tasks.mk.injEq] at htasks
      simp only [Tasks.unlined, Tasks.store, List.map_cons, hresult, htasks]

theorem answer_same (hm : m.unlined = m'.unlined) {v v' : Value} (hv : SameValue v v') :
    (m.answer v).Same (m'.answer v') := by
  have hresult : unlinedResult (.ok v) = unlinedResult (.ok v') := congrArg Except.ok hv
  obtain ⟨_, hthread, _⟩ := unlined_eq_iff.1 hm
  have hlevels := levels_unlined hm
  unfold answer
  cases hl : m.thread.levels with
  | nil =>
    cases hl' : m'.thread.levels with
    | nil => exact finish_same hm hresult
    | cons level' levels' => rw [hl, hl'] at hlevels; cases hlevels
  | cons level levels =>
    cases hl' : m'.thread.levels with
    | nil => rw [hl, hl'] at hlevels; cases hlevels
    | cons level' levels' =>
      rw [hl, hl', List.map_cons, List.map_cons, List.cons.injEq] at hlevels
      have ht := Thread.unlined_withLevels hthread hlevels.2
      simp only [(Level.unlined_eq_iff.1 hlevels.1).2.2.2.2]
      cases level'.purpose with
      | finish => exact finish_same (unlined_withThread hm ht) hresult
      | pass => exact .more (unlined_withThread hm (Thread.unlined_push_congr ht hv))
      | «catch» depth =>
        refine .more (unlined_withThread hm (Thread.unlined_push_congr ht ?_))
        simp only [SameValue, Value.unlined_tuple, List.map_cons, List.map_nil, hv]

/-- A failure that nobody catches ends the thread alike. -/
theorem unwind_same {levels levels' : List Level} (hm : m.unlined = m'.unlined)
    {e e' : RuntimeError} (hroot : e.root = e'.root)
    (hlevels : levels.map Level.unlined = levels'.map Level.unlined)
    (hcaught : caught levels = false) : (m.unwind e levels).Same (m'.unwind e' levels') := by
  induction levels generalizing m m' e e' levels' with
  | nil =>
    obtain ⟨_, hthread, _⟩ := unlined_eq_iff.1 hm
    cases levels' with
    | nil =>
      exact finish_same (unlined_withThread hm (Thread.unlined_withLevels hthread rfl))
        (congrArg Except.error hroot)
    | cons level' levels' => cases hlevels
  | cons level levels ih =>
    obtain ⟨_, hthread, _⟩ := unlined_eq_iff.1 hm
    cases levels' with
    | nil => cases hlevels
    | cons level' levels' =>
      rw [List.map_cons, List.map_cons, List.cons.injEq] at hlevels
      have ht := Thread.unlined_withLevels (Thread.unlined_leave_congr hthread hlevels.1) hlevels.2
      have hpurpose := (Level.unlined_eq_iff.1 hlevels.1).2.2.2.2
      simp only [unwind, caught, hpurpose] at hcaught ⊢
      cases hp : level'.purpose with
      | finish => exact finish_same (unlined_withThread hm ht) (congrArg Except.error hroot)
      | pass =>
        rw [hp] at hcaught
        have hroot : (e.atLine level.line).root = (e'.atLine level'.line).root := by
          rw [RuntimeError.root_atLine, RuntimeError.root_atLine, hroot]
        exact ih (unlined_withThread hm ht) hroot hlevels.2 hcaught
      | «catch» depth =>
        rw [hp] at hcaught
        cases hcaught

theorem crash_same (hm : m.unlined = m'.unlined) : m.crash.Same m'.crash := by
  obtain ⟨_, _, hwaiting⟩ := unlined_eq_iff.1 hm
  unfold crash
  cases hw : m.waiting with
  | nil =>
    cases hw' : m'.waiting with
    | nil => exact .ended .crashed hm
    | cons task' waiting' => rw [hw, hw'] at hwaiting; cases hwaiting
  | cons task waiting =>
    cases hw' : m'.waiting with
    | nil => rw [hw, hw'] at hwaiting; cases hwaiting
    | cons task' waiting' =>
      rw [hw, hw', List.map_cons, List.map_cons, List.cons.injEq, Prod.mk.injEq] at hwaiting
      have hid : task.1 = task'.1 := hwaiting.1.1
      simp only [hid]
      exact finish_same hm rfl

theorem stop_same (hm : m.unlined = m'.unlined) {s s' : Stop} (hs : s.unlined = s'.unlined)
    (line line' : Nat) (hcaught : ∀ e, s = .error e → caught m.thread.levels = false) :
    (m.stop line s).Same (m'.stop line' s') := by
  cases s with
  | error e =>
    cases s' with
    | error e' =>
      refine unwind_same hm ?_ (levels_unlined hm) (hcaught e rfl)
      rw [RuntimeError.root_atLine, RuntimeError.root_atLine]
      exact Stop.error.inj hs
    | corrupt => cases hs
  | corrupt =>
    cases s' with
    | error e' => cases hs
    | corrupt => exact crash_same hm

/-- Making a call leads to the same, unless it fails and the failure is caught. -/
theorem openCall_same (hm : m.unlined = m'.unlined) {callee callee' : Value}
    {args args' : List Value} (hcallee : SameValue callee callee') (hargs : SameValues args args')
    (hcaught : ∀ m₁, failed? (Exec.call callee args 0 false
      { m with thread := m.thread.setPhase .opening }) = some m₁ →
        caught m₁.thread.levels = false) :
    (m.openCall callee args).Same (m'.openCall callee' args') := by
  obtain ⟨_, hthread, _⟩ := unlined_eq_iff.1 hm
  have hopening := unlined_withThread hm (Thread.unlined_setPhase_congr hthread
    (rfl : Phase.opening.unlined = Phase.opening.unlined))
  have hends := Exec.unlines_call hcallee hargs 0 0 false _ _ hopening
  unfold openCall
  generalize Exec.call callee args 0 false { m with thread := m.thread.setPhase .opening } = r
    at hends hcaught
  generalize Exec.call callee' args' 0 false { m' with thread := m'.thread.setPhase .opening } = r'
    at hends
  cases hends with
  | ok _ hm => exact .more hm
  | @error s s' m₁ _ hs hm =>
    refine stop_same hm hs _ _ ?_
    rintro e rfl
    exact hcaught m₁ rfl

/-- A call that has no frame goes on with its value; this never fails where the failure is caught. -/
theorem settleCall_same (hm : m.unlined = m'.unlined) {level level' : Level}
    (hdepth : level.depth = level'.depth)
    (hcaught : ∀ m₁, (if level.depth < m.thread.frames.size then none
      else failed? (Exec.pop m)) = some m₁ → caught m₁.thread.levels = false) :
    (m.settleCall level).Same (m'.settleCall level') := by
  obtain ⟨_, hthread, _⟩ := unlined_eq_iff.1 hm
  simp only [settleCall, ← hdepth, ← Exec.frames_size hm]
  by_cases hframe : level.depth < m.thread.frames.size
  · rw [if_pos hframe, if_pos hframe]
    exact .more (unlined_withThread hm (Thread.unlined_setPhase_congr hthread rfl))
  · rw [if_neg hframe] at hcaught ⊢
    rw [if_neg hframe]
    have hends := Exec.unlines_pop m m' hm
    generalize Exec.pop m = r at hends hcaught
    generalize Exec.pop m' = r' at hends
    cases hends with
    | ok hv hm => exact answer_same hm hv
    | @error s s' m₁ _ hs hm =>
      refine stop_same hm hs _ _ ?_
      rintro e rfl
      exact hcaught m₁ rfl

/-- Instructions lead to the same, unless they fail and the failure is caught. -/
theorem runInstruction_same (hm : m.unlined = m'.unlined)
    (hcaught : ∀ m₁, failed? ((Exec.fetch >>= Exec.execute) m) = some m₁ →
      caught m₁.thread.levels = false) :
    m.runInstruction.Same m'.runInstruction := by
  have hfetch := Exec.unlines_fetch m m' hm
  unfold runInstruction
  cases hf : Exec.fetch m with
  | error s m₁ =>
    cases hf' : Exec.fetch m' with
    | ok i' m₁' => rw [hf, hf'] at hfetch; cases hfetch
    | error s' m₁' =>
      rw [hf, hf'] at hfetch
      rw [bind_of_error hf] at hcaught
      cases hfetch with
      | error hs hm =>
        refine stop_same hm hs _ _ ?_
        rintro e rfl
        exact hcaught m₁ rfl
  | ok i m₁ =>
    cases hf' : Exec.fetch m' with
    | error s' m₁' => rw [hf, hf'] at hfetch; cases hfetch
    | ok i' m₁' =>
      rw [hf, hf'] at hfetch
      rw [bind_of_ok hf] at hcaught
      cases hfetch with
      | ok hi hm =>
        have hends := Exec.unlines_execute hi m₁ m₁' hm
        simp only []
        generalize Exec.execute i m₁ = r at hends hcaught
        generalize Exec.execute i' m₁' = r' at hends
        cases hends with
        | ok hvalue hm =>
          cases hvalue with
          | none => exact .more hm
          | some hv => exact answer_same hm hv
        | @error s s' m₂ _ hs hm =>
          refine stop_same hm hs _ _ ?_
          rintro e rfl
          exact hcaught m₂ rfl

/-- A move leads to the same but for lines, unless a failure is caught in it. -/
theorem advance_same (hm : m.unlined = m'.unlined) (hcatches : m.catches = false) :
    m.advance.Same m'.advance := by
  have hcaught : ∀ m₁, m.failing? = some m₁ → caught m₁.thread.levels = false := by
    intro m₁ hfailing
    rwa [catches, hfailing] at hcatches
  have hlevels := levels_unlined hm
  unfold failing? at hcaught
  unfold advance
  cases hl : m.thread.levels with
  | nil =>
    cases hl' : m'.thread.levels with
    | nil => exact finish_same hm rfl
    | cons level' levels' => rw [hl, hl'] at hlevels; cases hlevels
  | cons level levels =>
    cases hl' : m'.thread.levels with
    | nil => rw [hl, hl'] at hlevels; cases hlevels
    | cons level' levels' =>
      rw [hl, hl', List.map_cons, List.map_cons, List.cons.injEq] at hlevels
      obtain ⟨hdepth, _, _, hphase, _⟩ := Level.unlined_eq_iff.1 hlevels.1
      simp only [hl] at hcaught
      cases hp : level.phase with
      | made callee args =>
        cases hp' : level'.phase with
        | made callee' args' =>
          simp only [hp, hp', Phase.unlined, Phase.made.injEq] at hphase hcaught ⊢
          exact openCall_same hm hphase.1 hphase.2 hcaught
        | _ => simp [hp, hp', Phase.unlined] at hphase
      | opening =>
        cases hp' : level'.phase with
        | opening =>
          simp only [hp, hp'] at hcaught ⊢
          exact settleCall_same hm hdepth hcaught
        | _ => simp [hp, hp', Phase.unlined] at hphase
      | running =>
        cases hp' : level'.phase with
        | running =>
          simp only [hp, hp'] at hcaught ⊢
          exact runInstruction_same hm hcaught
        | _ => simp [hp, hp', Phase.unlined] at hphase

/-- What two runs come to: both to no end, or to ends that are equal but for lines. -/
def EndSame : Option (Outcome × Machine) → Option (Outcome × Machine) → Prop :=
  Option.Rel fun r r' => r.1.Same r'.1 ∧ r.2.unlined = r'.2.unlined

/-- Runs come to the same but for lines, as long as no failure is caught on the way. -/
theorem run_same (fuel : Nat) (hm : m.unlined = m'.unlined)
    (hcatches : ∀ n, (m.after n).catches = false) : EndSame (m.run fuel) (m'.run fuel) := by
  induction fuel generalizing m m' with
  | zero => exact .none
  | succ fuel ih =>
    have hmove := advance_same hm (hcatches 0)
    rw [run, run]
    cases ha : m.advance with
    | more m₁ =>
      cases ha' : m'.advance with
      | more m₁' =>
        rw [ha, ha'] at hmove
        cases hmove with
        | more hm =>
          refine ih hm fun n => ?_
          have hlater := hcatches (n + 1)
          rwa [after, ha] at hlater
      | ended o' m₁' => rw [ha, ha'] at hmove; cases hmove
    | ended o m₁ =>
      cases ha' : m'.advance with
      | more m₁' => rw [ha, ha'] at hmove; cases hmove
      | ended o' m₁' =>
        rw [ha, ha'] at hmove
        cases hmove with
        | ended ho hm => exact .some ⟨ho, hm⟩

end Machine

end Resumable
