import Resumable.Proofs.Machine.Primitive

/-!
Entering, leaving and replacing activations.
-/

namespace Resumable

theorem shrink_toArray {α : Type} (as : List α) (n : Nat) :
    as.toArray.shrink n = (as.take n).toArray := by
  simp

/-- The activation of a function that has just been called. -/
def Activation.enter (closure : Value) (code : Code Value) (env : List (Symbol × Value))
    (args : List Value) (handler : Option (List (Effect × Value) × Nat)) : Activation :=
  { code, env, locals := (Frame.enter closure code env args 0 false).locals, handler }

/-- A call whose positions are those of the activations below it. -/
structure Level.Above (level : Level) (below : List Activation) : Prop where
  depth : level.depth = below.length
  height : level.height = heightOf below
  handlers : level.handlers = (handlersFrom 0 0 below).length

namespace Thread

/-- There is no room for another frame. -/
def Full (t : Thread) : Prop :=
  t.limits.maxDepth ≤ t.frames.size ∨ t.limits.maxStack ≤ t.stack.size

/-- A thread still has all of the given activations, whatever else there is. -/
def Extends (t : Thread) (acts : List Activation) : Prop :=
  ∃ frames stack handlers, t.frames = (framesFrom 0 acts ++ frames).toArray ∧
    t.stack = (stackOf acts ++ stack).toArray ∧
    t.handlers = (handlersFrom 0 0 acts ++ handlers).toArray

theorem extends_showing (t : Thread) (acts acts' : List Activation) (extra : List Value) :
    (t.showing (acts ++ acts') extra).Extends acts := by
  refine ⟨framesFrom (0 + heightOf acts) acts', stackOf acts' ++ extra,
    handlersFrom (0 + acts.length) (0 + heightOf acts) acts', ?_, ?_, ?_⟩
  · simp
  · simp
  · simp

theorem Extends.prefix {t : Thread} {acts acts' : List Activation}
    (hextends : t.Extends (acts ++ acts')) : t.Extends acts := by
  obtain ⟨frames, stack, handlers, hframes, hstack, hhandlers⟩ := hextends
  rw [framesFrom_append, List.append_assoc] at hframes
  rw [stackOf_append, List.append_assoc] at hstack
  rw [handlersFrom_append, List.append_assoc] at hhandlers
  exact ⟨_, _, _, hframes, hstack, hhandlers⟩

/-- Ending a call leaves what was there before it. -/
theorem leave_eq_showing {t : Thread} {below : List Activation} {level : Level}
    (hextends : t.Extends below) (habove : level.Above below) :
    t.leave level = t.showing below [] := by
  obtain ⟨frames, stack, handlers, hframes, hstack, hhandlers⟩ := hextends
  have hdepth : level.depth = (framesFrom 0 below).length := by rw [habove.depth]; simp
  simp only [leave, showing, hframes, hstack, hhandlers, hdepth, habove.height, habove.handlers]
  simp

end Thread

namespace Exec

variable (m : Machine) (acts pre : List Activation) (a : Activation) (extra : List Value)
  (closure : Value) (code : Code Value) (env : List (Symbol × Value)) (args : List Value)

/-- A new frame is put on top unless there are too many frames or values. -/
theorem pushFrame_run (boundary : Bool) :
    (m.thread.Full ∧ ∃ detail, pushFrame closure code env args boundary m =
        .error (.error (.stackOverflow detail)) m) ∨
      ¬ m.thread.Full ∧ pushFrame closure code env args boundary m =
        .ok () { m with thread := { m.thread with
          frames := m.thread.frames.push
            (.enter closure code env args m.thread.stack.size boundary) } } := by
  simp only [pushFrame, bind_get_run]
  rw [ite_run]
  split
  next hdepth => exact Or.inl ⟨Or.inl hdepth, _, rfl⟩
  next hdepth =>
    rw [bind_get_run, ite_run]
    split
    next hstack => exact Or.inl ⟨Or.inr hstack, _, rfl⟩
    next hstack => exact Or.inr ⟨fun hfull => hfull.elim hdepth hstack, rfl⟩

theorem pushFrame_showing :
    ((m.thread.showing acts []).Full ∧ ∃ detail,
        pushFrame closure code env args false (m.showing acts []) =
          .error (.error (.stackOverflow detail)) (m.showing acts [])) ∨
      ¬ (m.thread.showing acts []).Full ∧
        pushFrame closure code env args false (m.showing acts []) =
          .ok () (m.showing (acts ++ [.enter closure code env args none]) []) := by
  obtain herror | ⟨hroom, hok⟩ := pushFrame_run (m.showing acts []) closure code env args false
  · exact Or.inl herror
  · refine Or.inr ⟨hroom, hok.trans ?_⟩
    simp [Machine.showing, Thread.showing, Activation.enter, Activation.frame, Activation.segment,
      Activation.mark, Activation.installed, Frame.enter]

/-- A tail call takes the place of the activation on top and keeps its handler. -/
theorem replaceFrame_showing :
    replaceFrame closure code env args (m.showing (pre ++ [a]) extra) =
      .ok () (m.showing (pre ++ [.enter closure code env args a.handler]) []) := by
  have htop : (m.showing (pre ++ [a]) extra).thread.frames.back? = some (a.frame (heightOf pre)) := by
    simp
  have hstack : (stackOf (pre ++ [a]) ++ extra).toArray.shrink (a.frame (heightOf pre)).base =
      (stackOf (pre ++ [Activation.enter closure code env args a.handler]) ++ []).toArray := by
    rw [shrink_toArray, Activation.frame, take_base]
    simp [Activation.enter, Activation.segment, Activation.mark]
  have hframes : (framesFrom 0 (pre ++ [a])).toArray.pop.push
      (Frame.enter closure code env args (a.frame (heightOf pre)).base
        (a.frame (heightOf pre)).boundary) =
      (framesFrom 0 (pre ++ [Activation.enter closure code env args a.handler])).toArray := by
    simp [Activation.enter, Activation.frame, Activation.mark, Frame.enter]
  have hhandlers : handlersFrom 0 0 (pre ++ [a]) =
      handlersFrom 0 0 (pre ++ [Activation.enter closure code env args a.handler]) := by
    simp [Activation.installed, Activation.enter]
  simp only [replaceFrame, bind_get_run, htop, modifyThread_run]
  simp only [Machine.showing, Thread.showing, hstack, hframes, hhandlers]

/-- The thread without the frame on top and its operands. -/
theorem dropTop_showing (t : Thread) :
    { t.showing (pre ++ [a]) extra with
      frames := (t.showing (pre ++ [a]) extra).frames.pop
      stack := (t.showing (pre ++ [a]) extra).stack.shrink (a.frame (heightOf pre)).base } =
    { t.showing pre a.mark with handlers := (handlersFrom 0 0 (pre ++ [a])).toArray } := by
  have hstack : (stackOf (pre ++ [a]) ++ extra).toArray.shrink (a.frame (heightOf pre)).base =
      (stackOf pre ++ a.mark).toArray := by
    rw [shrink_toArray, Activation.frame, take_base]
  have hframes : (framesFrom 0 (pre ++ [a])).toArray.pop = (framesFrom 0 pre).toArray := by simp
  simp only [Thread.showing, hstack, hframes]

/-- A boundary that has returned takes its handler and its label with it. -/
theorem uninstall_showing (clauses : List (Effect × Value)) (label : Nat) :
    uninstall { m with thread :=
        { m.thread.showing pre [.label label] with
          handlers := (handlersFrom 0 0 pre ++
            [Installed.mk clauses pre.length (heightOf pre) label]).toArray } } =
      .ok () (m.showing pre []) := by
  have hstack : (stackOf pre ++ [Value.label label]).toArray.shrink (heightOf pre) =
      (stackOf pre ++ []).toArray := by
    simp
  simp only [uninstall, modifyThread_run, List.back?_toArray, List.getLast?_concat,
    Thread.showing_frames, List.size_toArray, length_framesFrom, if_true, hstack,
    Thread.showing_stack, List.pop_toArray, List.dropLast_concat]
  rfl

/-- The value of a frame that has returned goes to the activation below, or to the call in progress
if there is none of its own left. -/
theorem deliver_showing (v : Value) :
    (do
      let base ← baseDepth
      if (← get).thread.frames.size ≤ base then return some v
      else
        push v
        return none : Exec (Option Value)) (m.showing pre []) =
      if pre.length ≤ baseOf m.thread.levels then .ok (some v) (m.showing pre [])
      else .ok none (m.showing pre [v]) := by
  have hsize : (m.showing pre []).thread.frames.size = pre.length := by simp
  rw [bind_of_ok (baseDepth_run _), bind_get_run, ite_run, hsize,
    bind_of_ok (push_showing m pre [] v)]
  rfl

/-- A return leaves the activations below. -/
theorem returnValue_showing (v : Value) :
    returnValue (m.showing (pre ++ [a]) (extra ++ [v])) =
      if pre.length ≤ baseOf m.thread.levels then .ok (some v) (m.showing pre [])
      else .ok none (m.showing pre [v]) := by
  have htop : (m.showing (pre ++ [a]) extra).thread.frames.back? = some (a.frame (heightOf pre)) := by
    simp
  rw [returnValue, bind_of_ok (pop_showing m (pre ++ [a]) extra v)]
  simp only [bind_get_run, htop]
  rw [bind_of_ok (modifyThread_run _ _)]
  simp only [Machine.showing_thread, dropTop_showing]
  cases hhandler : a.handler with
  | none =>
    rw [if_neg (by simp [Activation.frame, hhandler])]
    have hplain : a.mark = [] ∧ handlersFrom 0 0 (pre ++ [a]) = handlersFrom 0 0 pre := by
      simp [Activation.mark, Activation.installed, hhandler]
    rw [hplain.1, hplain.2]
    exact deliver_showing m pre v
  | some bound =>
    obtain ⟨clauses, label⟩ := bound
    rw [if_pos (by simp [Activation.frame, hhandler])]
    have hbound : a.mark = [.label label] ∧ handlersFrom 0 0 (pre ++ [a]) =
        handlersFrom 0 0 pre ++ [Installed.mk clauses pre.length (heightOf pre) label] := by
      simp [Activation.mark, Activation.installed, hhandler]
    rw [hbound.1, hbound.2]
    have hremoved := uninstall_showing m pre clauses label
    exact (bind_of_ok hremoved).trans (deliver_showing m pre v)

end Exec

end Resumable
