import Resumable.Proofs.Machine.Frames

/-!
Installing a handler, cutting a thread at one and putting the part back. The part that is cut off
shows the same activations as before, wherever it is put.
-/

namespace Resumable

theorem extract_toArray_append {α : Type} (as bs : List α) {n k : Nat} (hn : n = as.length)
    (hk : k = as.length + bs.length) : (as ++ bs).toArray.extract n k = bs.toArray := by
  subst hn hk
  simp

/-- The machine after a label has been drawn. -/
def Machine.relabeled (m : Machine) : Machine :=
  { m with thread := { m.thread with lastLabel := m.thread.lastLabel + 1 } }

/-- An activation with another label for its handler. -/
def Activation.relabel (a : Activation) (label : Nat) : Activation :=
  { a with handler := a.handler.map fun bound => (bound.1, label) }

/-- What is left of a machine that has stopped: the calls in progress, the threads that wait, and at
least the given activations. -/
structure Machine.Retains (m m' : Machine) (acts : List Activation) : Prop where
  waiting : m'.waiting = m.waiting
  levels : m'.thread.levels = m.thread.levels
  «extends» : m'.thread.Extends acts

theorem Machine.retains_showing (m : Machine) (acts acts' : List Activation) (extra : List Value) :
    m.Retains (m.showing (acts ++ acts') extra) acts :=
  ⟨rfl, rfl, m.thread.extends_showing acts acts' extra⟩

/-- Every handler in force belongs to an activation. -/
theorem handlersFrom_locate {depth height i : Nat} {acts : List Activation} {h : Installed Value}
    (hget : (handlersFrom depth height acts)[i]? = some h) :
    ∃ below b above, acts = below ++ b :: above ∧ b.handler = some (h.clauses, h.label) ∧
      h.depth = depth + below.length ∧ h.height = height + heightOf below ∧
      i = (handlersFrom depth height below).length := by
  induction acts generalizing depth height i with
  | nil => cases hget
  | cons a acts ih =>
    have hfurther : ∀ j, (handlersFrom (depth + 1) (height + a.segment.length) acts)[j]? = some h →
        i = (a.installed depth height).length + j →
        ∃ below b above, a :: acts = below ++ b :: above ∧ b.handler = some (h.clauses, h.label) ∧
          h.depth = depth + below.length ∧ h.height = height + heightOf below ∧
          i = (handlersFrom depth height below).length := by
      intro j hj hi
      obtain ⟨below, b, above, rfl, hb, hdepth, hheight, hindex⟩ := ih hj
      refine ⟨a :: below, b, above, rfl, hb, ?_, ?_, ?_⟩
      · simp only [List.length_cons]
        omega
      · simp only [heightOf_cons]
        omega
      · simp only [handlersFrom_cons, List.length_append]
        omega
    cases hhandler : a.handler with
    | none =>
      have hinstalled : a.installed depth height = [] := by simp [Activation.installed, hhandler]
      rw [handlersFrom_cons, hinstalled, List.nil_append] at hget
      exact hfurther i hget (by simp [hinstalled])
    | some bound =>
      obtain ⟨clauses, label⟩ := bound
      have hinstalled : a.installed depth height = [⟨clauses, depth, height, label⟩] := by
        simp [Activation.installed, hhandler]
      rw [handlersFrom_cons, hinstalled] at hget
      cases i with
      | zero =>
        cases hget
        exact ⟨[], a, acts, rfl, hhandler, rfl, rfl, rfl⟩
      | succ i => exact hfurther i hget (by simp [hinstalled]; omega)

/-- What the search for a handler finds. -/
theorem findHandler_eq_some {handlers : Array (Installed Value)} {base : Nat} {effect : Effect}
    {n index : Nat} {h : Installed Value} {clause : Value}
    (hfind : findHandler handlers base effect n = some (index, h, clause)) :
    handlers[index]? = some h ∧ base ≤ h.depth ∧ Clauses.find? h.clauses effect = some clause := by
  induction n with
  | zero => cases hfind
  | succ n ih =>
    rw [findHandler] at hfind
    split at hfind
    next => exact ih hfind
    next h' hget =>
      split at hfind
      next => exact ih hfind
      next hbase =>
        split at hfind
        next clause' hclause =>
          cases hfind
          exact ⟨hget, by omega, hclause⟩
        next => exact ih hfind

/-- A handler that is found bounds an activation that is not below the call in progress. -/
theorem findHandler_locate {acts : List Activation} {base : Nat} {effect : Effect} {n index : Nat}
    {h : Installed Value} {clause : Value}
    (hfind : findHandler (handlersFrom 0 0 acts).toArray base effect n = some (index, h, clause)) :
    ∃ below b above, acts = below ++ b :: above ∧ b.handler = some (h.clauses, h.label) ∧
      h = ⟨h.clauses, below.length, heightOf below, h.label⟩ ∧
      index = (handlersFrom 0 0 below).length ∧ base ≤ below.length ∧
      Clauses.find? h.clauses effect = some clause := by
  obtain ⟨hget, hbase, hclause⟩ := findHandler_eq_some hfind
  rw [List.getElem?_toArray] at hget
  obtain ⟨below, b, above, hacts, hb, hdepth, hheight, hindex⟩ := handlersFrom_locate hget
  rw [Nat.zero_add] at hdepth hheight
  refine ⟨below, b, above, hacts, hb, ?_, hindex, by omega, hclause⟩
  rw [← hdepth, ← hheight]

namespace Exec

variable (m : Machine) (acts below above : List Activation) (b : Activation)
  (clauses : List (Effect × Value)) (label : Nat)

/-- Positions that have been moved up can be moved back. -/
theorem relative_placed (depth height : Nat) :
    Continuation.relative
      { frames := (framesFrom height acts).toArray
        stack := (stackOf acts).tail.toArray
        handlers := (handlersFrom depth height acts).toArray } depth height =
      Continuation.ofActs acts := by
  have hframes := framesFrom_add 0 height acts
  have hhandlers := handlersFrom_add 0 0 depth height acts
  rw [Nat.zero_add] at hframes
  rw [Nat.zero_add, Nat.zero_add] at hhandlers
  simp only [Continuation.relative, Continuation.ofActs, hframes, hhandlers]
  simp [Function.comp_def]

theorem fits_placed (depth height : Nat) (stack : Array Value) :
    Continuation.fits
      { frames := (framesFrom height acts).toArray
        stack
        handlers := (handlersFrom depth height acts).toArray } depth height = true := by
  have hframes := framesFrom_add 0 height acts
  have hhandlers := handlersFrom_add 0 0 depth height acts
  rw [Nat.zero_add] at hframes
  rw [Nat.zero_add, Nat.zero_add] at hhandlers
  simp [Continuation.fits, hframes, hhandlers]

/-- The part of a thread from a boundary on. -/
theorem partAbove_showing (t : Thread) (hb : b.handler = some (clauses, label)) :
    (t.showing (below ++ b :: above) []).partAbove (handlersFrom 0 0 below).length
        ⟨clauses, below.length, heightOf below, label⟩ =
      { frames := (framesFrom (heightOf below) (b :: above)).toArray
        stack := (stackOf (b :: above)).tail.toArray
        handlers := (handlersFrom below.length (heightOf below) (b :: above)).toArray } := by
  have hstack : stackOf (below ++ b :: above) ++ [] =
      (stackOf below ++ [.label label]) ++ (stackOf (b :: above)).tail := by
    simp [Activation.segment, Activation.mark, hb]
  simp only [Thread.partAbove, Thread.showing_frames, Thread.showing_stack, Thread.showing_handlers]
  congr 1
  · rw [framesFrom_append, Nat.zero_add]
    exact extract_toArray_append _ _ (by simp) (by simp)
  · rw [hstack]
    exact extract_toArray_append _ _ (by simp) (by simp; omega)
  · rw [handlersFrom_append, Nat.zero_add, Nat.zero_add]
    exact extract_toArray_append _ _ (by simp) (by simp)

/-- The thread below a boundary. -/
theorem cutAt_showing (t : Thread) :
    (t.showing (below ++ b :: above) []).cutAt (handlersFrom 0 0 below).length
        ⟨clauses, below.length, heightOf below, label⟩ = t.showing below [] := by
  have hframes : (framesFrom 0 (below ++ b :: above)).take below.length = framesFrom 0 below := by
    rw [framesFrom_append, List.take_left' (length_framesFrom 0 below)]
  have hstack : (stackOf (below ++ b :: above) ++ []).take (heightOf below) = stackOf below ++ [] := by
    rw [stackOf_append, List.append_assoc, take_stackOf, List.append_nil]
  have hhandlers : (handlersFrom 0 0 (below ++ b :: above)).take (handlersFrom 0 0 below).length =
      handlersFrom 0 0 below := by
    rw [handlersFrom_append, List.take_left]
  simp only [Thread.cutAt, Thread.showing_frames, Thread.showing_stack, Thread.showing_handlers,
    shrink_toArray, hframes, hstack, hhandlers]
  rfl

/-- Cutting a thread at a handler gives the activations from its boundary on. -/
theorem capture_showing (hb : b.handler = some (clauses, label)) :
    capture (handlersFrom 0 0 below).length ⟨clauses, below.length, heightOf below, label⟩
        (m.showing (below ++ b :: above) []) =
      .ok (Continuation.ofActs (b :: above)) (m.showing below []) := by
  have hthread : thread (m.showing (below ++ b :: above) []) =
      .ok (m.thread.showing (below ++ b :: above) []) (m.showing (below ++ b :: above) []) := rfl
  have hmark : 0 < b.segment.length := by simp [Activation.segment, Activation.mark, hb]
  rw [capture, bind_of_ok hthread]
  simp only [partAbove_showing below above b clauses label m.thread hb]
  rw [if_pos, bind_of_ok (modifyThread_run _ _), pure_run]
  · simp only [Machine.showing_thread, cutAt_showing, relative_placed]
    rfl
  · refine ⟨by simp, ?_, fits_placed (b :: above) below.length (heightOf below) _⟩
    simp
    omega

/-- Putting activations on top of a thread. -/
theorem extend_showing (t : Thread) (hb : b.handler = some (clauses, label)) (label' : Nat) :
    (t.showing acts []).extend (Continuation.ofActs (b :: above)) label' =
      t.showing (acts ++ b.relabel label' :: above) [] := by
  have hrelabel : (b.relabel label').handler = some (clauses, label') := by
    simp [Activation.relabel, hb]
  have hsegment : b.segment = .label label :: b.operands := by
    simp [Activation.segment, Activation.mark_eq hb]
  have hsegment' : (b.relabel label').segment = .label label' :: b.operands := by
    rw [Activation.segment, Activation.mark_eq hrelabel]
    rfl
  have hframe : ∀ n, (b.relabel label').frame n = b.frame n := by
    intro n
    rw [Activation.frame, Activation.frame, Activation.mark_eq hrelabel, Activation.mark_eq hb,
      hrelabel, hb]
    rfl
  have hframes : framesFrom (heightOf acts) (b.relabel label' :: above) =
      (framesFrom 0 (b :: above)).map fun f => { f with base := f.base + heightOf acts } := by
    rw [← framesFrom_add, Nat.zero_add, framesFrom_cons, framesFrom_cons, hframe, hsegment, hsegment']
    rfl
  have hhandlers : handlersFrom acts.length (heightOf acts) (b.relabel label' :: above) =
      ((handlersFrom 0 0 (b :: above)).map fun h =>
        { h with depth := h.depth + acts.length, height := h.height + heightOf acts }).modify 0
          fun h => { h with label := label' } := by
    rw [← handlersFrom_add, Nat.zero_add, Nat.zero_add, handlersFrom_cons, handlersFrom_cons,
      Activation.installed_eq hrelabel, Activation.installed_eq hb, hsegment, hsegment']
    rfl
  have hsizes : (t.showing acts []).frames.size = acts.length ∧
      (t.showing acts []).stack.size = heightOf acts := by
    simp
  simp only [Thread.extend, Continuation.placed, Continuation.ofActs, hsizes.1, hsizes.2]
  simp only [Thread.showing, framesFrom_append, handlersFrom_append, Nat.zero_add, hframes, hhandlers]
  simp [hsegment, hsegment']

/-- A suspended computation goes on on top of whatever runs, unless there are too many frames. -/
theorem resume_showing (hb : b.handler = some (clauses, label)) (v : Value) :
    (m.thread.limits.maxDepth < acts.length + (b :: above).length ∧ ∃ detail,
        resume (.ofActs (b :: above)) v (m.showing acts []) =
          .error (.error (.stackOverflow detail)) (m.showing acts [])) ∨
      ¬ m.thread.limits.maxDepth < acts.length + (b :: above).length ∧
        resume (.ofActs (b :: above)) v (m.showing acts []) =
          .ok () (m.relabeled.showing (acts ++ b.relabel (m.thread.lastLabel + 1) :: above) [v]) := by
  have hsize : (m.showing acts []).thread.frames.size +
      (Continuation.ofActs (b :: above)).frames.size = acts.length + (b :: above).length := by
    simp [Continuation.ofActs]
  simp only [resume, bind_get_run, hsize]
  rw [ite_run]
  split
  next hdeep => exact Or.inl ⟨hdeep, _, rfl⟩
  next hdeep =>
  refine Or.inr ⟨hdeep, ?_⟩
  have hdraw : drawLabel (m.showing acts []) =
      .ok (m.thread.lastLabel + 1) (m.relabeled.showing acts []) := rfl
  have hput : modifyThread (fun t => t.extend (.ofActs (b :: above)) (m.thread.lastLabel + 1))
      (m.relabeled.showing acts []) =
      .ok () (m.relabeled.showing (acts ++ b.relabel (m.thread.lastLabel + 1) :: above) []) := by
    rw [modifyThread_run, Machine.showing_thread, extend_showing acts above b clauses label _ hb]
    rfl
  rw [bind_of_ok hdraw, bind_of_ok hput, push_showing]
  rfl

/-- A finished frame goes before a resumption in tail position, unless it is a boundary or the first
of its call. -/
theorem dropFinished_showing (pre : List Activation) (a : Activation) (extra : List Value)
    (tail : Bool) :
    dropFinished tail (m.showing (pre ++ [a]) extra) =
      if tail = true ∧ a.handler = none ∧ baseOf m.thread.levels < pre.length then
        .ok () (m.showing pre [])
      else .ok () (m.showing (pre ++ [a]) extra) := by
  have hbase : baseDepth (m.showing (pre ++ [a]) extra) =
      .ok (baseOf m.thread.levels) (m.showing (pre ++ [a]) extra) := baseDepth_run _
  have htop : (m.showing (pre ++ [a]) extra).thread.frames.back? = some (a.frame (heightOf pre)) := by
    simp
  have hcond : (tail && !(a.frame (heightOf pre)).boundary &&
      decide (baseOf m.thread.levels + 1 < (m.thread.showing (pre ++ [a]) extra).frames.size)) = true ↔
      tail = true ∧ a.handler = none ∧ baseOf m.thread.levels < pre.length := by
    simp [Activation.frame, and_assoc]
  rw [dropFinished, bind_of_ok hbase, bind_get_run, htop]
  simp only [bind_get_run]
  rw [ite_run, modifyThread_run, Machine.showing_thread, dropTop_showing]
  by_cases hdrop : tail = true ∧ a.handler = none ∧ baseOf m.thread.levels < pre.length
  · have hplain : a.mark = [] ∧ handlersFrom 0 0 (pre ++ [a]) = handlersFrom 0 0 pre := by
      simp [Activation.mark, Activation.installed, hdrop.2.1]
    rw [if_pos (hcond.2 hdrop), if_pos hdrop, hplain.1, hplain.2]
    rfl
  · rw [if_neg (fun h => hdrop (hcond.1 h)), if_neg hdrop]
    rfl

theorem dropFinished_false : dropFinished false m = .ok () m := by
  rw [dropFinished, bind_of_ok (baseDepth_run m), bind_get_run]
  cases m.thread.frames.back? <;> rfl

/-- A handler is installed below the activation of the body, unless there are too many frames. -/
theorem install_showing (id : Nat) (code : Code Value) (env : List (Symbol × Value))
    (harity : code.arity = 0) :
    ((m.thread.showing acts [.label (m.thread.lastLabel + 1)]).Full ∧ ∃ detail m',
        install clauses (.closure id code env) (m.showing acts []) =
          .error (.error (.stackOverflow detail)) m' ∧ m'.world = m.world ∧ m.Retains m' acts) ∨
      ¬ (m.thread.showing acts [.label (m.thread.lastLabel + 1)]).Full ∧
        install clauses (.closure id code env) (m.showing acts []) =
          .ok () (m.relabeled.showing
            (acts ++ [.enter (.closure id code env) code env []
              (some (clauses, m.thread.lastLabel + 1))]) []) := by
  have hdraw : drawLabel (m.showing acts []) =
      .ok (m.thread.lastLabel + 1) (m.relabeled.showing acts []) := rfl
  simp only [install, if_pos harity]
  rw [bind_of_ok hdraw, bind_of_ok (modifyThread_run _ _)]
  have hroom : ∀ handlers label, Thread.Full { m.thread.showing acts [] with
      stack := (m.thread.showing acts []).stack.push (.label (m.thread.lastLabel + 1))
      lastLabel := label
      handlers } ↔ (m.thread.showing acts [.label (m.thread.lastLabel + 1)]).Full := by
    simp [Thread.Full]
  obtain ⟨hfull, detail, herror⟩ | ⟨hfull, hok⟩ :=
    pushFrame_run _ (.closure id code env) code env [] true
  · refine Or.inl ⟨(hroom _ _).1 hfull, detail, _, herror, rfl, rfl, rfl, [],
      [.label (m.thread.lastLabel + 1)],
      [⟨clauses, acts.length, heightOf acts, m.thread.lastLabel + 1⟩], ?_, ?_, ?_⟩ <;> simp
  · refine Or.inr ⟨fun h => hfull ((hroom _ _).2 h), hok.trans ?_⟩
    simp [Machine.showing, Thread.showing, Activation.enter, Activation.frame, Activation.segment,
      Activation.mark, Activation.installed, Frame.enter]

end Exec

end Resumable
