import Resumable.Proofs.Value.Unlined

/-!
Machines without lines. Lines also stand in calls in progress and in the failures of tasks. What the
machine does to its thread and to the shared state it does alike on machines that are equal without
their lines.
-/

namespace Resumable

/-- A phase of a call without lines. -/
def Phase.unlined : Phase → Phase
  | .made callee args => .made callee.unlined (args.map Value.unlined)
  | phase => phase

/-- A call in progress without lines. -/
def Level.unlined (level : Level) : Level :=
  { level with phase := level.phase.unlined, line := 0 }

/-- A thread without lines. -/
def Thread.unlined (t : Thread) : Thread :=
  { t with
    frames := t.frames.map Frame.unlined
    stack := t.stack.map Value.unlined
    handlers := t.handlers.map Installed.unlined
    levels := t.levels.map Level.unlined }

/-- A result of a task without lines. -/
def unlinedResult : Except RuntimeError Value → Except RuntimeError Value
  | .ok v => .ok v.unlined
  | .error e => .error e.root

/-- Global variables without lines. -/
def Globals.unlined (g : Globals) : Globals :=
  ⟨g.slots.map fun slot => slot.map Value.unlined⟩

/-- Tasks without lines. -/
def Tasks.unlined (tasks : Tasks) : Tasks :=
  { tasks with results := tasks.results.map fun r => (r.1, unlinedResult r.2) }

/-- A shared state without lines. -/
def World.unlined (w : World) : World :=
  { w with
    globals := w.globals.unlined
    cells := w.cells.map Value.unlined
    tasks := w.tasks.unlined }

/-- A machine without lines. -/
def Machine.unlined (m : Machine) : Machine :=
  { world := m.world.unlined
    thread := m.thread.unlined
    waiting := m.waiting.map fun w => (w.1, w.2.unlined) }

/-- A reason to stop without lines. -/
def Stop.unlined : Stop → Stop
  | .error e => .error e.root
  | .corrupt => .corrupt

/-- Values that are equal without their lines. -/
abbrev SameValue (v v' : Value) : Prop :=
  v.unlined = v'.unlined

/-- Lists of values that are equal without their lines. -/
abbrev SameValues (vs vs' : List Value) : Prop :=
  vs.map Value.unlined = vs'.map Value.unlined

theorem optionRel_iff_map_eq {α β : Type} (f : α → β) {x y : Option α} :
    Option.Rel (fun a b => f a = f b) x y ↔ x.map f = y.map f := by
  constructor
  · intro hrel
    cases hrel with
    | some hsame => exact congrArg some hsame
    | none => rfl
  · intro hsame
    cases x <;> cases y <;> first | (cases hsame; done) | skip
    · exact .none
    · exact .some (Option.some.inj hsame)

theorem map_shrink {α β : Type} (f : α → β) (xs : Array α) (n : Nat) :
    (xs.shrink n).map f = (xs.map f).shrink n := by
  rw [Array.shrink_eq_take, Array.shrink_eq_take, Array.take, Array.take, Array.map_extract]

theorem map_modify_congr {α β : Type} {f : α → β} {g h : α → α} {xs ys : Array α}
    (hsame : xs.map f = ys.map f) (hstep : ∀ x y, f x = f y → f (g x) = f (h y)) (i : Nat) :
    (xs.modify i g).map f = (ys.modify i h).map f := by
  refine Array.ext_getElem? fun j => ?_
  have hget := congrArg (·[j]?) hsame
  simp only [Array.getElem?_map, Array.getElem?_modify] at hget ⊢
  split
  · have hrel := (optionRel_iff_map_eq f).2 hget
    generalize xs[j]? = x at hrel
    generalize ys[j]? = y at hrel
    cases hrel with
    | some hxy => exact congrArg some (hstep _ _ hxy)
    | none => rfl
  · exact hget

theorem Thread.unlined_eq_iff {t t' : Thread} :
    t.unlined = t'.unlined ↔
      t.frames.map Frame.unlined = t'.frames.map Frame.unlined ∧
      t.stack.map Value.unlined = t'.stack.map Value.unlined ∧
      t.handlers.map Installed.unlined = t'.handlers.map Installed.unlined ∧
      t.lastLabel = t'.lastLabel ∧ t.limits = t'.limits ∧
      t.levels.map Level.unlined = t'.levels.map Level.unlined := by
  simp only [Thread.unlined, Thread.mk.injEq]

theorem World.unlined_eq_iff {w w' : World} :
    w.unlined = w'.unlined ↔
      w.globals.unlined = w'.globals.unlined ∧
      w.cells.map Value.unlined = w'.cells.map Value.unlined ∧ w.supply = w'.supply ∧
      w.tasks.unlined = w'.tasks.unlined ∧ w.output = w'.output ∧ w.clock = w'.clock := by
  simp only [World.unlined, World.mk.injEq]

theorem Machine.unlined_eq_iff {m m' : Machine} :
    m.unlined = m'.unlined ↔
      m.world.unlined = m'.world.unlined ∧ m.thread.unlined = m'.thread.unlined ∧
      m.waiting.map (fun w => (w.1, w.2.unlined)) =
        m'.waiting.map fun w => (w.1, w.2.unlined) := by
  simp only [Machine.unlined, Machine.mk.injEq]

namespace Exec

/-- The two actions do alike but for lines. -/
def Unlines {α β : Type} (R : α → β → Prop) (x : Exec α) (y : Exec β) : Prop :=
  ActAlike (fun s s' => s.unlined = s'.unlined) (fun m m' => m.unlined = m'.unlined) R x y

variable {α β : Type} {R : α → β → Prop} {v v' : Value}

theorem unlines_fail (e : RuntimeError) : Unlines R (fail e) (fail e) :=
  actAlike_throw rfl

theorem unlines_malformed (detail : String) : Unlines R (malformed detail) (malformed detail) :=
  unlines_fail _

theorem unlines_modifyThread {f g : Thread → Thread}
    (hstep : ∀ t t', t.unlined = t'.unlined → (f t).unlined = (g t').unlined) :
    Unlines (fun _ _ => True) (modifyThread f) (modifyThread g) := by
  refine actAlike_modify fun {m m'} hm => ?_
  obtain ⟨hworld, hthread, hwaiting⟩ := Machine.unlined_eq_iff.1 hm
  exact Machine.unlined_eq_iff.2 ⟨hworld, hstep _ _ hthread, hwaiting⟩

theorem unlines_draw : Unlines Eq draw draw := by
  refine actAlike_modifyGet fun {m m'} hm => ?_
  obtain ⟨hworld, hrest⟩ := Machine.unlined_eq_iff.1 hm
  obtain ⟨hglobals, hcells, hsupply, hmore⟩ := World.unlined_eq_iff.1 hworld
  simp only [World.draw, hsupply, true_and]
  exact Machine.unlined_eq_iff.2 ⟨World.unlined_eq_iff.2 ⟨hglobals, hcells, rfl, hmore⟩, hrest⟩

theorem unlines_drawLabel : Unlines Eq drawLabel drawLabel := by
  refine actAlike_modifyGet fun {m m'} hm => ?_
  obtain ⟨hworld, hthread, hwaiting⟩ := Machine.unlined_eq_iff.1 hm
  obtain ⟨hframes, hstack, hhandlers, hlabel, hrest⟩ := Thread.unlined_eq_iff.1 hthread
  refine ⟨congrArg (· + 1) hlabel, Machine.unlined_eq_iff.2 ⟨hworld, ?_, hwaiting⟩⟩
  exact Thread.unlined_eq_iff.2 ⟨hframes, hstack, hhandlers, congrArg (· + 1) hlabel, hrest⟩

theorem unlines_push (hv : SameValue v v') : Unlines (fun _ _ => True) (push v) (push v') := by
  refine unlines_modifyThread fun t t' ht => ?_
  obtain ⟨hframes, hstack, hrest⟩ := Thread.unlined_eq_iff.1 ht
  refine Thread.unlined_eq_iff.2 ⟨hframes, ?_, hrest⟩
  simp only [Array.map_push, hstack, hv]

theorem unlines_pop : Unlines SameValue pop pop := by
  refine actAlike_get.bind fun {m m'} hm => ?_
  have hback := congrArg (fun m => m.thread.stack.back?) hm
  have hrel := (optionRel_iff_map_eq Value.unlined).2
    (Array.back?_map.symm.trans (hback.trans Array.back?_map))
  generalize m.thread.stack.back? = top at hrel
  generalize m'.thread.stack.back? = top' at hrel
  cases hrel with
  | none => exact unlines_malformed _
  | some hv =>
    refine ActAlike.bind (unlines_modifyThread fun t t' ht => ?_) fun _ => actAlike_pure hv
    obtain ⟨hframes, hstack, hrest⟩ := Thread.unlined_eq_iff.1 ht
    refine Thread.unlined_eq_iff.2 ⟨hframes, ?_, hrest⟩
    simp only [Array.map_pop, hstack]

theorem unlines_popMany (n : Nat) : Unlines SameValues (popMany n) (popMany n) := by
  refine actAlike_get.bind fun {m m'} hm => ?_
  have hstack : m.thread.stack.map Value.unlined = m'.thread.stack.map Value.unlined :=
    congrArg (fun m => m.thread.stack) hm
  have hsize : m.thread.stack.size = m'.thread.stack.size := by
    simpa using congrArg Array.size hstack
  simp only [hsize]
  split
  · exact unlines_malformed _
  · refine actAlike_get.bind fun {m m'} hm => ?_
    have hstack : m.thread.stack.map Value.unlined = m'.thread.stack.map Value.unlined :=
      congrArg (fun m => m.thread.stack) hm
    refine ActAlike.bind (unlines_modifyThread fun t t' ht => ?_) fun _ => actAlike_pure ?_
    · obtain ⟨hframes, hstack, hrest⟩ := Thread.unlined_eq_iff.1 ht
      refine Thread.unlined_eq_iff.2 ⟨hframes, ?_, hrest⟩
      simp only [map_shrink, hstack]
    · simp only [SameValues, ← Array.toList_map, Array.map_extract, hstack]

theorem frames_size {m m' : Machine} (hm : m.unlined = m'.unlined) :
    m.thread.frames.size = m'.thread.frames.size := by
  simpa [Machine.unlined, Thread.unlined] using
    congrArg (fun m => m.thread.frames.size) hm

/-- The frames on top are equal without their lines. -/
theorem top_frames {m m' : Machine} (hm : m.unlined = m'.unlined) :
    Option.Rel (fun f f' => f.unlined = f'.unlined) m.thread.frames.back?
      m'.thread.frames.back? := by
  have hback := congrArg (fun m => m.thread.frames.back?) hm
  exact (optionRel_iff_map_eq Frame.unlined).2
    (Array.back?_map.symm.trans (hback.trans Array.back?_map))

theorem unlines_topFrame : Unlines (fun f f' => f.unlined = f'.unlined) topFrame topFrame := by
  refine actAlike_get.bind fun {m m'} hm => ?_
  have hrel := top_frames hm
  generalize m.thread.frames.back? = top at hrel
  generalize m'.thread.frames.back? = top' at hrel
  cases hrel with
  | none => exact unlines_malformed _
  | some hf => exact actAlike_pure hf

theorem unlines_modifyFrame {f g : Frame Value → Frame Value}
    (hstep : ∀ x y, x.unlined = y.unlined → (f x).unlined = (g y).unlined) :
    Unlines (fun _ _ => True) (modifyFrame f) (modifyFrame g) := by
  refine unlines_modifyThread fun t t' ht => ?_
  obtain ⟨hframes, hrest⟩ := Thread.unlined_eq_iff.1 ht
  have hsize : t.frames.size = t'.frames.size := by simpa using congrArg Array.size hframes
  refine Thread.unlined_eq_iff.2 ⟨?_, hrest⟩
  rw [hsize]
  exact map_modify_congr hframes hstep _

theorem unlines_baseDepth : Unlines Eq baseDepth baseDepth := by
  refine actAlike_get.bind fun {m m'} hm => ?_
  have hlevels : m.thread.levels.map Level.unlined = m'.thread.levels.map Level.unlined :=
    congrArg (fun m => m.thread.levels) hm
  cases hl : m.thread.levels with
  | nil =>
    cases hl' : m'.thread.levels with
    | nil => exact actAlike_pure rfl
    | cons level' levels' => rw [hl, hl'] at hlevels; cases hlevels
  | cons level levels =>
    cases hl' : m'.thread.levels with
    | nil => rw [hl, hl'] at hlevels; cases hlevels
    | cons level' levels' =>
      rw [hl, hl', List.map_cons, List.map_cons, List.cons.injEq] at hlevels
      have hdepth : level.unlined.depth = level'.unlined.depth := congrArg Level.depth hlevels.1
      exact actAlike_pure hdepth

theorem unlines_beginCall {args args' : List Value} (hcallee : SameValue v v')
    (hargs : SameValues args args') (line line' : Nat) (purpose : Purpose) :
    Unlines (fun _ _ => True) (beginCall v args line purpose)
      (beginCall v' args' line' purpose) := by
  refine unlines_modifyThread fun t t' ht => ?_
  obtain ⟨hframes, hstack, hhandlers, hlabel, hlimits, hlevels⟩ := Thread.unlined_eq_iff.1 ht
  refine Thread.unlined_eq_iff.2 ⟨hframes, hstack, hhandlers, hlabel, hlimits, ?_⟩
  have hdepth : t.frames.size = t'.frames.size := by simpa using congrArg Array.size hframes
  have hheight : t.stack.size = t'.stack.size := by simpa using congrArg Array.size hstack
  have hcount : t.handlers.size = t'.handlers.size := by
    simpa using congrArg Array.size hhandlers
  simp only [List.map_cons, Level.unlined, Phase.unlined, hdepth, hheight, hcount, hlevels, hcallee,
    hargs]

theorem unlines_beginTask (hcallee : SameValue v v') :
    Unlines (fun _ _ => True) (beginTask v) (beginTask v') := by
  refine actAlike_modify fun {m m'} hm => ?_
  obtain ⟨hworld, hthread, hwaiting⟩ := Machine.unlined_eq_iff.1 hm
  obtain ⟨hglobals, hcells, hsupply, htasks, hmore⟩ := World.unlined_eq_iff.1 hworld
  have hcount : m.world.tasks.count = m'.world.tasks.count :=
    congrArg (fun m => m.world.tasks.count) hm
  have hlimits : m.thread.limits = m'.thread.limits := congrArg (fun m => m.thread.limits) hm
  refine Machine.unlined_eq_iff.2 ⟨World.unlined_eq_iff.2
    ⟨hglobals, hcells, hsupply, ?_, hmore⟩, ?_, ?_⟩
  · simp only [Tasks.draw, Tasks.unlined, hcount, Tasks.mk.injEq, true_and]
    exact congrArg (fun m => m.world.tasks.results) hm
  · simp only [Thread.unlined, Level.unlined, Phase.unlined, List.map_cons, List.map_nil, hcallee,
      hlimits]
  · simp only [List.map_cons, hwaiting, hthread, Tasks.draw, hcount]

end Exec

end Resumable
