import Resumable.Proofs.Machine.Positions
import Resumable.Proofs.Machine.Progress

/-!
Suspending a computation and going on with it. A thread whose positions fit is cut at a handler
without loss: what remains is the thread below the boundary, and putting the part back on any thread
puts it there as it was, but for the positions, which follow the thread, and for one new label.
-/

namespace Resumable

/-- The frame with its operands moved from one height to another. -/
def Frame.moved (f : Frame Value) (height height' : Nat) : Frame Value :=
  { f with base := f.base - height + height' }

/-- The record of a handler moved together with its boundary frame and its label. -/
def Installed.moved (h : Installed Value) (depth height depth' height' : Nat) : Installed Value :=
  { h with depth := h.depth - depth + depth', height := h.height - height + height' }

namespace Thread

/-- The handler at index `j` is the innermost one of the call in progress that has a clause for an
effect. -/
structure Answers (t : Thread) (effect : Effect) (j : Nat) (h : Installed Value) (clause : Value) :
    Prop where
  entry : t.handlers[j]? = some h
  visible : Exec.baseOf t.levels ≤ h.depth
  clause : Clauses.find? h.clauses effect = some clause
  innermost : ∀ (i : Nat) (h' : Installed Value), j < i → t.handlers[i]? = some h' →
    Exec.baseOf t.levels ≤ h'.depth → Clauses.find? h'.clauses effect = none

/-- What is left of a thread below a handler: the frames below its boundary, the values below its
label, and the handlers before it. -/
def below (t : Thread) (j : Nat) (h : Installed Value) : Thread :=
  { t with
    frames := t.frames.take h.depth
    stack := t.stack.take h.height
    handlers := t.handlers.take j }

/-- A thread followed by what thread `s` has from handler `j` on: its frames, its label, the values
above the label and the handlers. Positions are moved from those of `h` to the top of `t`, and the
label of the handler is a new one. -/
def followedBy (t s : Thread) (j : Nat) (h : Installed Value) (label : Nat) : Thread :=
  { t with
    frames := t.frames ++
      (s.frames.drop h.depth).map fun f => f.moved h.height t.stack.size
    stack := t.stack ++ #[.label label] ++ s.stack.drop (h.height + 1)
    handlers := t.handlers ++ #[{ h with depth := t.frames.size, height := t.stack.size, label }] ++
      (s.handlers.drop (j + 1)).map fun h' =>
        h'.moved h.depth h.height t.frames.size t.stack.size }

/-- The thread with another label for handler `j`. -/
def relabeled (t : Thread) (j : Nat) (h : Installed Value) (label : Nat) : Thread :=
  { t with
    stack := t.stack.setIfInBounds h.height (.label label)
    handlers := t.handlers.setIfInBounds j { h with label } }

/-- The thread after a label has been drawn. -/
def labelDrawn (t : Thread) : Thread :=
  { t with lastLabel := t.lastLabel + 1 }

/-- A handler with its boundary frame and its label in place, and all positions from it on not below
its own, so that none is lost when they are moved. -/
structure Stands (t : Thread) (j : Nat) (h : Installed Value) : Prop where
  entry : t.handlers[j]? = some h
  boundary : ∃ f, t.frames[h.depth]? = some f ∧ f.boundary = true
  label : t.stack[h.height]? = some (.label h.label)
  frames : ∀ (i : Nat) (f : Frame Value), h.depth ≤ i → t.frames[i]? = some f → h.height < f.base
  handlers : ∀ (i : Nat) (h' : Installed Value), j < i → t.handlers[i]? = some h' →
    h.depth < h'.depth ∧ h.height ≤ h'.height

end Thread

/-- Where positions fit, every handler stands. -/
theorem PositionsFit.stands {t : Thread} (hfit : PositionsFit t.frames t.stack t.handlers) {j : Nat}
    {h : Installed Value} (hentry : t.handlers[j]? = some h) : t.Stands j h := by
  obtain ⟨f, hf, hboundary, hbase, hlabel⟩ := hfit.boundary j h hentry
  refine ⟨hentry, ⟨f, hf, hboundary⟩, hlabel, ?_, ?_⟩
  · intro i f' hi hf'
    have hle := hfit.ordered h.depth i f f' hi hf hf'
    omega
  · intro i h' hi hh'
    have hdepth := hfit.increasing j i h h' hi hentry hh'
    obtain ⟨f', hf', _, hbase', _⟩ := hfit.boundary i h' hh'
    have hle := hfit.ordered h.depth h'.depth f f' (by omega) hf hf'
    exact ⟨hdepth, by omega⟩

/-- The search for a handler goes from the innermost one outwards. -/
theorem findHandler_of_answers {t : Thread} {effect : Effect} {j : Nat} {h : Installed Value}
    {clause : Value} (hanswers : t.Answers effect j h clause) :
    findHandler t.handlers (Exec.baseOf t.levels) effect t.handlers.size = some (j, h, clause) := by
  have hj : j < t.handlers.size := by
    by_contra hnot
    have hnone := hanswers.entry
    rw [Array.getElem?_eq_none (by omega)] at hnone
    cases hnone
  have hsearch : ∀ n, j < n → n ≤ t.handlers.size →
      findHandler t.handlers (Exec.baseOf t.levels) effect n = some (j, h, clause) := by
    intro n
    induction n with
    | zero => omega
    | succ n ih =>
      intro hlt hle
      rw [findHandler]
      obtain rfl | hless : j = n ∨ j < n := by omega
      · have hvisible := hanswers.visible
        simp only [hanswers.entry, if_neg (show ¬ h.depth < Exec.baseOf t.levels by omega),
          hanswers.clause]
      · have hget := Array.getElem?_eq_getElem (show n < t.handlers.size by omega)
        simp only [hget]
        split
        next => exact ih hless (by omega)
        next hvisible =>
          rw [hanswers.innermost n _ hless hget (by omega)]
          exact ih hless (by omega)
  exact hsearch t.handlers.size hj (Nat.le_refl _)

/-- What the search finds is the innermost handler with a clause. -/
theorem answers_of_findHandler {t : Thread} {effect : Effect} {j : Nat} {h : Installed Value}
    {clause : Value}
    (hfind : findHandler t.handlers (Exec.baseOf t.levels) effect t.handlers.size =
      some (j, h, clause)) : t.Answers effect j h clause := by
  obtain ⟨hentry, hvisible, hclause⟩ := findHandler_eq_some hfind
  refine ⟨hentry, hvisible, hclause, ?_⟩
  have hsearch : ∀ n, findHandler t.handlers (Exec.baseOf t.levels) effect n = some (j, h, clause) →
      ∀ (i : Nat) (h' : Installed Value), j < i → i < n → t.handlers[i]? = some h' →
        Exec.baseOf t.levels ≤ h'.depth → Clauses.find? h'.clauses effect = none := by
    intro n
    induction n with
    | zero => exact nofun
    | succ n ih =>
      intro hfind i h' hlt hless hget hbase
      rw [findHandler] at hfind
      obtain rfl | hinner : i = n ∨ i < n := by omega
      · simp only [hget, if_neg (show ¬ h'.depth < Exec.baseOf t.levels by omega)] at hfind
        split at hfind
        next =>
          cases hfind
          omega
        next hnone => exact hnone
      · refine ih ?_ i h' hlt hinner hget hbase
        split at hfind
        next => exact hfind
        next =>
          split at hfind
          next => exact hfind
          next =>
            split at hfind
            next =>
              cases hfind
              omega
            next => exact hfind
  intro i h' hlt hget hbase
  have hless := (Array.getElem?_eq_some_iff.1 hget).1
  exact hsearch t.handlers.size hfind i h' hlt hless hget hbase

namespace Thread

variable {t s : Thread} {j : Nat} {h : Installed Value}

theorem cutAt_eq_below : t.cutAt j h = t.below j h := by
  simp [cutAt, below]

/-- The part of a thread from a handler on that stands. -/
theorem Stands.part_fits (hstands : t.Stands j h) :
    h.depth ≤ t.frames.size ∧ h.height < t.stack.size ∧
      (t.partAbove j h).fits h.depth h.height = true := by
  obtain ⟨f, hf, _⟩ := hstands.boundary
  have hdepth := (Array.getElem?_eq_some_iff.1 hf).1
  have hheight := (Array.getElem?_eq_some_iff.1 hstands.label).1
  refine ⟨by omega, hheight, ?_⟩
  simp only [Continuation.fits, partAbove, Bool.and_eq_true, Array.all_eq_true, decide_eq_true_eq]
  refine ⟨?_, ?_⟩
  · intro i hi
    simp only [Array.size_extract] at hi
    have hlt := hstands.frames (h.depth + i) _ (by omega)
      (Array.getElem?_eq_getElem (show h.depth + i < t.frames.size by omega))
    simp only [Array.getElem_extract]
    omega
  · intro i hi
    simp only [Array.size_extract] at hi
    have hget := Array.getElem?_eq_getElem (show j + i < t.handlers.size by omega)
    simp only [Array.getElem_extract]
    obtain rfl | hpos : i = 0 ∨ 0 < i := by omega
    · have hentry := hstands.entry
      obtain ⟨hj, hself⟩ := Array.getElem?_eq_some_iff.1 hentry
      simp only [Nat.add_zero, hself, Nat.le_refl, and_self]
    · have hle := hstands.handlers (j + i) _ (by omega) hget
      omega

theorem Stands.handlers_split (hstands : t.Stands j h) :
    t.handlers.extract j t.handlers.size = #[h] ++ t.handlers.drop (j + 1) := by
  obtain ⟨hj, hself⟩ := Array.getElem?_eq_some_iff.1 hstands.entry
  apply Array.toList_inj.1
  have hdrop := List.drop_eq_getElem_cons (l := t.handlers.toList) (i := j) (by simpa using hj)
  rw [Array.getElem_toList, hself] at hdrop
  simp only [Array.toList_extract, Array.toList_append, List.extract_eq_take_drop, hdrop,
    List.cons_append, List.nil_append]
  rw [List.take_of_length_le (by simp; omega), List.take_of_length_le (by simp)]

/-- The part that is cut off, put on top of a thread. -/
theorem Stands.extend_relative (hstands : s.Stands j h) (t : Thread) (label : Nat) :
    t.extend ((s.partAbove j h).relative h.depth h.height) label = t.followedBy s j h label := by
  simp only [extend, Continuation.placed, Continuation.relative, partAbove, followedBy,
    hstands.handlers_split]
  congr 1
  · simp [Frame.moved, Function.comp_def]
  · apply Array.toList_inj.1
    simp [Installed.moved, Function.comp_def]

theorem toList_drop {α : Type} (xs : Array α) (n : Nat) : (xs.drop n).toList = xs.toList.drop n := by
  rw [Array.drop_eq_extract, Array.toList_extract, List.extract_eq_take_drop]
  exact List.take_of_length_le (by simp)

theorem moved_drop {α : Type} {xs : Array α} {n : Nat} {f : α → α}
    (hsame : ∀ i x, n ≤ i → xs[i]? = some x → f x = x) : (xs.drop n).map f = xs.drop n := by
  apply Array.ext_getElem?
  intro i
  rw [Array.getElem?_map, Array.drop_eq_extract, Array.getElem?_extract]
  split
  next hi =>
    cases hget : xs[n + i]? with
    | none => rfl
    | some x => rw [Option.map_some, hsame (n + i) x (by omega) hget]
  next => rfl

/-- A part that is put back where it was cut off. -/
theorem Stands.below_followedBy (hstands : t.Stands j h) (label : Nat) :
    (t.below j h).followedBy t j h label = t.relabeled j h label := by
  obtain ⟨f, hf, _⟩ := hstands.boundary
  obtain ⟨hheight, hlabel⟩ := Array.getElem?_eq_some_iff.1 hstands.label
  obtain ⟨hj, hself⟩ := Array.getElem?_eq_some_iff.1 hstands.entry
  have hdepth := (Array.getElem?_eq_some_iff.1 hf).1
  have hsizes : (t.below j h).frames.size = h.depth ∧ (t.below j h).stack.size = h.height := by
    simp [below]
    omega
  have hframes : (t.frames.drop h.depth).map (fun f => f.moved h.height h.height) =
      t.frames.drop h.depth := by
    refine moved_drop fun i f hi hget => ?_
    have hbase := hstands.frames i f hi hget
    simp only [Frame.moved, Nat.sub_add_cancel (Nat.le_of_lt hbase)]
  have hhandlers : (t.handlers.drop (j + 1)).map
      (fun h' => h'.moved h.depth h.height h.depth h.height) = t.handlers.drop (j + 1) := by
    refine moved_drop fun i h' hi hget => ?_
    obtain ⟨hdeeper, hhigher⟩ := hstands.handlers i h' (by omega) hget
    simp only [Installed.moved, Nat.sub_add_cancel hhigher, Nat.sub_add_cancel (Nat.le_of_lt hdeeper)]
  rw [followedBy, hsizes.1, hsizes.2, hframes, hhandlers]
  simp only [below, relabeled]
  congr 1
  · apply Array.toList_inj.1
    rw [Array.toList_append, toList_drop]
    simp
  · apply Array.toList_inj.1
    rw [Array.toList_append, toList_drop, Array.toList_setIfInBounds,
      List.set_eq_take_append_cons_drop, if_pos (by simpa using hheight)]
    simp
  · apply Array.toList_inj.1
    rw [Array.toList_append, toList_drop, Array.toList_setIfInBounds,
      List.set_eq_take_append_cons_drop, if_pos (by simpa using hj)]
    simp

end Thread

/-- The suspended computation with another label for its first handler. -/
def Continuation.relabeled (k : Continuation Value) (label : Nat) : Continuation Value :=
  { k with handlers := k.handlers.modify 0 fun h => { h with label } }

namespace Exec

variable {m : Machine} {j : Nat} {h : Installed Value}

/-- Cutting at a handler that stands leaves what is below it. -/
theorem capture_of_stands (hstands : m.thread.Stands j h) :
    capture j h m = .ok ((m.thread.partAbove j h).relative h.depth h.height)
      { m with thread := m.thread.below j h } := by
  have hthread : thread m = .ok m.thread m := rfl
  rw [capture, bind_of_ok hthread]
  simp only [if_pos hstands.part_fits]
  rw [bind_of_ok (modifyThread_run _ _), pure_run, Thread.cutAt_eq_below]

/-- Going on is refused if there would be too many frames; otherwise the suspended computation is put
on top under a new label, with the value that it waits for. -/
theorem resume_run (k : Continuation Value) (v : Value) (m : Machine) :
    resume k v m =
      if m.thread.limits.maxDepth < m.thread.frames.size + k.frames.size then
        .error (.error (.stackOverflow
          ("maximum recursion depth " ++ toString m.thread.limits.maxDepth ++ " exceeded"))) m
      else
        .ok () { m with thread :=
          (m.thread.labelDrawn.extend k (m.thread.lastLabel + 1)).push v } := by
  simp only [resume, bind_get_run]
  rw [ite_run]
  rfl

theorem extract_append_right {α : Type} (xs ys : Array α) {n k : Nat} (hn : n = xs.size)
    (hk : k = xs.size + ys.size) : (xs ++ ys).extract n k = ys := by
  subst hn hk
  simp

/-- A suspended computation that has been put on a thread is cut off again as it was, but for its
label, with whatever values have come to lie on top of it. -/
theorem capture_extend {k : Continuation Value} {first : Installed Value} (m : Machine)
    (label : Nat) (vs : Array Value) :
    capture m.thread.handlers.size
        { first with depth := m.thread.frames.size, height := m.thread.stack.size, label }
        { m with thread := { m.thread.extend k label with
          stack := (m.thread.extend k label).stack ++ vs } } =
      .ok { k.relabeled label with stack := k.stack ++ vs } m := by
  have hthread : ∀ m : Machine, thread m = .ok m.thread m := fun _ => rfl
  have hpart : Thread.partAbove { m.thread.extend k label with
      stack := (m.thread.extend k label).stack ++ vs } m.thread.handlers.size
        { first with depth := m.thread.frames.size, height := m.thread.stack.size, label } =
      { k.placed m.thread.frames.size m.thread.stack.size label with stack := k.stack ++ vs } := by
    simp only [Thread.partAbove, Thread.extend, Array.append_assoc]
    congr 1
    · exact extract_append_right _ _ rfl (by simp)
    · exact extract_append_right _ _ (by simp) (by simp [Continuation.placed])
    · exact extract_append_right _ _ rfl (by simp)
  have hfits : Continuation.fits { k.placed m.thread.frames.size m.thread.stack.size label with
      stack := k.stack ++ vs } m.thread.frames.size m.thread.stack.size = true := by
    simp only [Continuation.fits, Continuation.placed, Bool.and_eq_true, Array.all_eq_true,
      decide_eq_true_eq, Array.getElem_map, Array.getElem_modify]
    refine ⟨fun _ _ => Nat.le_add_left _ _, fun i hi => ?_⟩
    split <;> exact ⟨Nat.le_add_left _ _, Nat.le_add_left _ _⟩
  have hrelative : Continuation.relative { k.placed m.thread.frames.size m.thread.stack.size label with
      stack := k.stack ++ vs } m.thread.frames.size m.thread.stack.size =
      { k.relabeled label with stack := k.stack ++ vs } := by
    simp only [Continuation.relative, Continuation.placed, Continuation.relabeled]
    congr 1
    · simp [Function.comp_def]
    · apply Array.ext_getElem?
      intro i
      simp only [Array.getElem?_map, Array.getElem?_modify]
      split <;> simp [Function.comp_def]
  have hcut : Thread.cutAt { m.thread.extend k label with
      stack := (m.thread.extend k label).stack ++ vs } m.thread.handlers.size
        { first with depth := m.thread.frames.size, height := m.thread.stack.size, label } =
      m.thread := by
    simp [Thread.cutAt, Thread.extend]
  rw [capture, bind_of_ok (hthread _)]
  simp only [hpart]
  rw [if_pos, bind_of_ok (modifyThread_run _ _), pure_run, hrelative, hcut]
  refine ⟨?_, ?_, hfits⟩
  · simp [Thread.extend]
  · simp [Thread.extend]
    omega

/-- Only the shared state is different after an action that has come to a result. -/
def WorldOnly {α : Type} (x : Exec α) : Prop :=
  ∀ m a m', x m = .ok a m' → ∃ w, m' = { m with world := w }

theorem WorldOnly.bind {α β : Type} {x : Exec α} {f : α → Exec β} (hx : WorldOnly x)
    (hf : ∀ a, WorldOnly (f a)) : WorldOnly (x >>= f) := by
  intro m b m' hrun
  obtain ⟨a, m₁, hfirst, hrest⟩ := bind_eq_ok.1 hrun
  obtain ⟨w, rfl⟩ := hx m a m₁ hfirst
  obtain ⟨w', rfl⟩ := hf a _ b m' hrest
  exact ⟨w', rfl⟩

theorem WorldOnly.ret {α : Type} (a : α) : WorldOnly (pure a) := by
  intro m b m' hrun
  cases hrun
  exact ⟨m.world, rfl⟩

theorem WorldOnly.fail {α : Type} (e : RuntimeError) : WorldOnly (Exec.fail e : Exec α) := by
  intro m a m' hrun
  cases hrun

theorem WorldOnly.act {α : Type} (action : Act α) : WorldOnly (Exec.act action) := by
  intro m a m' hrun
  rw [act_run] at hrun
  cases haction : action m.world with
  | ok x w =>
    rw [haction] at hrun
    cases hrun
    exact ⟨w, rfl⟩
  | error e w =>
    rw [haction] at hrun
    cases hrun

theorem WorldOnly.withArity {callee : Value} {name : String} {arity : Nat} {args : List Value}
    {full : Exec Transfer} (hfull : WorldOnly full) :
    WorldOnly (Exec.withArity callee name arity args full) := by
  unfold Exec.withArity
  split
  · intro m t m' hrun
    cases hrun
    exact ⟨_, rfl⟩
  · split
    · exact .fail _
    · exact hfull

/-- Applying a value leaves the thread alone. -/
theorem apply_worldOnly (callee : Value) (args : List Value) : WorldOnly (apply callee args) := by
  unfold apply
  generalize callee.unapply args = applied
  obtain ⟨f, args⟩ := applied
  cases f with
  | closure => exact .withArity (.ret _)
  | native id name arity function =>
    refine .withArity (.bind (.act _) fun reply => ?_)
    cases reply <;> exact .ret _
  | effect e =>
    match args with
    | [payload] => exact .ret _
    | [] => exact .withArity (.ret _)
    | _ :: _ :: _ => exact .withArity (.ret _)
  | continuation id k =>
    match args with
    | [v] => exact .ret _
    | [] => exact .withArity (.ret _)
    | _ :: _ :: _ => exact .withArity (.ret _)
  | _ => exact .fail _

theorem findHandler_lt {handlers : Array (Installed Value)} {base : Nat} {effect : Effect}
    {n index : Nat} {h : Installed Value} {clause : Value}
    (hfind : findHandler handlers base effect n = some (index, h, clause)) :
    index < handlers.size :=
  (Array.getElem?_eq_some_iff.1 (findHandler_eq_some hfind).1).1

theorem capture_eq_ok {k : Continuation Value} {m' : Machine} (hcapture : capture j h m = .ok k m') :
    m' = { m with thread := m.thread.cutAt j h } := by
  have hthread : thread m = .ok m.thread m := rfl
  rw [capture, bind_of_ok hthread] at hcapture
  simp only [ite_run] at hcapture
  split at hcapture
  · cases hcapture
    rfl
  · cases hcapture

/-- The arguments of a clause: one that takes a single argument is not given the continuation. -/
def clauseArgs (clause payload k : Value) : List Value :=
  if clause.arity? = some 1 then [payload] else [payload, k]

/-- Raising an effect: the thread is cut at the handler that is found, and its clause is called. -/
theorem raiseWithin_succ (line bound : Nat) (effect : Effect) (payload : Value) (m : Machine) :
    raiseWithin line (bound + 1) effect payload m =
      match findHandler m.thread.handlers (baseOf m.thread.levels) effect m.thread.handlers.size with
      | none => .error (.error (.unhandledEffect effect.name)) m
      | some (index, h, clause) =>
        (do
          let k ← capture index h
          let id ← draw
          let t ← apply clause (clauseArgs clause payload (.continuation id k))
          transferWith (raiseWithin line bound) line false t : Exec Unit) m := by
  rw [raiseWithin, bind_of_ok (baseDepth_run m), bind_get_run]
  cases findHandler m.thread.handlers (baseOf m.thread.levels) effect m.thread.handlers.size with
  | none => rfl
  | some found => rfl

/-- Without handlers no effect is answered. -/
theorem raiseWithin_of_no_handler (hnone : m.thread.handlers.size = 0) (line bound : Nat)
    (effect : Effect) (payload : Value) :
    raiseWithin line bound effect payload m =
      .error (.error (.unhandledEffect effect.name)) m := by
  cases bound with
  | zero => rfl
  | succ bound =>
    rw [raiseWithin_succ, hnone]
    rfl

/-- How effects are raised matters to a call only on the thread on which it is made. -/
theorem apply_transferWith_congr {raise raise' : Effect → Value → Exec Unit} {line : Nat}
    {tail : Bool} {callee : Value} {args : List Value}
    (hraise : ∀ w effect payload,
      raise effect payload { m with world := w } = raise' effect payload { m with world := w }) :
    (apply callee args >>= transferWith raise line tail) m =
      (apply callee args >>= transferWith raise' line tail) m := by
  cases happly : apply callee args m with
  | error stop m' => rw [bind_of_error happly, bind_of_error happly]
  | ok t m' =>
    obtain ⟨w, rfl⟩ := apply_worldOnly callee args m t m' happly
    rw [bind_of_ok happly, bind_of_ok happly]
    cases t with
    | raise effect payload => exact hraise w effect payload
    | _ => rfl

/-- The bound on the number of handlers does not matter as long as it is one. -/
theorem raiseWithin_congr {line bound bound' : Nat} {effect : Effect} {payload : Value}
    (hbound : m.thread.handlers.size ≤ bound) (hbound' : m.thread.handlers.size ≤ bound') :
    raiseWithin line bound effect payload m = raiseWithin line bound' effect payload m := by
  induction bound generalizing m bound' effect payload with
  | zero => rw [raiseWithin_of_no_handler (by omega), raiseWithin_of_no_handler (by omega)]
  | succ bound ih =>
    cases bound' with
    | zero => rw [raiseWithin_of_no_handler (by omega), raiseWithin_of_no_handler (by omega)]
    | succ bound' =>
      rw [raiseWithin_succ, raiseWithin_succ]
      split
      next => rfl
      next index h clause hfind =>
        cases hcapture : capture index h m with
        | error stop m₁ => rw [bind_of_error hcapture, bind_of_error hcapture]
        | ok k m₁ =>
          -- the clause runs with the handlers before the one that was found
          have hindex := findHandler_lt hfind
          have hsize : m₁.thread.handlers.size ≤ index := by
            rw [capture_eq_ok hcapture]
            simp only [Thread.cutAt, Array.size_shrink]
            omega
          rw [bind_of_ok hcapture, bind_of_ok hcapture, bind_of_ok (draw_run _),
            bind_of_ok (draw_run _)]
          refine apply_transferWith_congr fun w effect payload => ih ?_ ?_
          · simp only
            omega
          · simp only
            omega

/-- Raising an effect that a handler answers is to call its clause on what is left below the
handler. -/
theorem raise_of_answers {effect : Effect} {clause : Value}
    (hanswers : m.thread.Answers effect j h clause) (hstands : m.thread.Stands j h) (line : Nat)
    (payload : Value) :
    raise line effect payload m =
      call clause (clauseArgs clause payload (.continuation m.world.draw.1
          ((m.thread.partAbove j h).relative h.depth h.height))) line false
        { m with world := m.world.draw.2, thread := m.thread.below j h } := by
  have hj := (Array.getElem?_eq_some_iff.1 hanswers.entry).1
  obtain ⟨bound, hsize⟩ : ∃ bound, m.thread.handlers.size = bound + 1 :=
    ⟨m.thread.handlers.size - 1, by omega⟩
  rw [raise, bind_get_run, hsize, raiseWithin_succ, findHandler_of_answers hanswers]
  simp only []
  rw [bind_of_ok (capture_of_stands hstands), bind_of_ok (draw_run _)]
  refine apply_transferWith_congr fun w effect payload => ?_
  rw [raise, bind_get_run]
  refine raiseWithin_congr ?_ (Nat.le_refl _)
  simp only [Thread.below, Array.take_eq_extract, Array.size_extract]
  omega

end Exec

/-- What a call made by an instruction at `line` leads to. -/
def Progress.ofCall (line : Nat) : EStateM.Result Stop Machine Unit → Progress
  | .ok _ m => .more m
  | .error s m => m.stop line s

namespace Machine

/-- The states in which the next move of a machine raises an effect. The effect is called, or it stands
in the place of the clause for an effect that is raised. -/
inductive Raises (m : Machine) : Machine → Effect → Value → Prop
  | made {level : Level} {levels : List Level} {callee : Value} {args : List Value} {s : Machine}
    {effect : Effect} {payload : Value} (hlevels : m.thread.levels = level :: levels)
    (hphase : level.phase = .made callee args)
    (happly : Exec.apply callee args (m.setPhase .opening) = .ok (.raise effect payload) s) :
    Raises m s effect payload
  | instruction {level : Level} {levels : List Level} {i : Fetched} {callee : Value}
    {args : List Value} {m₁ m₂ m₃ s : Machine} {effect : Effect} {payload : Value}
    (hlevels : m.thread.levels = level :: levels) (hphase : level.phase = .running)
    (hfetch : Exec.fetch m = .ok i m₁) (hop : i.op = .call ∨ i.op = .tailCall)
    (hcallee : Exec.pop m₁ = .ok callee m₂) (hargs : Exec.popMany i.operand m₂ = .ok args m₃)
    (happly : Exec.apply callee args m₃ = .ok (.raise effect payload) s) :
    Raises m s effect payload
  | clause {s s₁ s₂ : Machine} {effect effect' : Effect} {payload payload' clause : Value} {j : Nat}
    {h : Installed Value} {k : Continuation Value} (hraises : Raises m s effect payload)
    (hanswers : s.thread.Answers effect j h clause) (hcapture : Exec.capture j h s = .ok k s₁)
    (happly : Exec.apply clause
        (Exec.clauseArgs clause payload (.continuation s₁.world.draw.1 k))
        { s₁ with world := s₁.world.draw.2 } = .ok (.raise effect' payload') s₂) :
    Raises m s₂ effect' payload'

/-- The state in which the next move executes a call that raises an effect, with that effect and its
payload. -/
def raising? (m : Machine) : Option (Machine × Effect × Value) :=
  match m.thread.levels with
  | { phase := .running, .. } :: _ =>
    match Exec.fetch m with
    | .ok i m =>
      if i.op = .call ∨ i.op = .tailCall then
        match (do
          let callee ← Exec.pop
          let args ← Exec.popMany i.operand
          Exec.apply callee args : Exec Transfer) m with
        | .ok (.raise effect payload) s => some (s, effect, payload)
        | _ => none
      else none
    | .error _ _ => none
  | _ => none

variable {κ : Kind} {m s : Machine} {effect : Effect} {payload : Value}

theorem raises_of_raising? (hraising : m.raising? = some (s, effect, payload)) :
    m.Raises s effect payload := by
  unfold raising? at hraising
  split at hraising
  next hlevels =>
    split at hraising
    next i m₁ hfetch =>
      split at hraising
      next hop =>
        split at hraising
        next hcall =>
          cases hraising
          obtain ⟨callee, m₂, hcallee, hcall⟩ := bind_eq_ok.1 hcall
          obtain ⟨args, m₃, hargs, happly⟩ := bind_eq_ok.1 hcall
          exact .instruction hlevels rfl hfetch hop hcallee hargs happly
        next => cases hraising
      next => cases hraising
    next => cases hraising
  next => cases hraising

/-- A call comes to a raised effect. -/
theorem call_of_apply {callee : Value} {args : List Value} (line : Nat) (tail : Bool)
    (happly : Exec.apply callee args m = .ok (.raise effect payload) s) :
    Exec.call callee args line tail m = Exec.raise line effect payload s := by
  rw [Exec.call, bind_of_ok happly]
  rfl

/-- The operands of a call are on the stack of the last activation. -/
theorem call_operands {below pre : List Activation} {a : Activation} {i : Fetched} {callee : Value}
    {args : List Value} {m₁ m₂ m₃ : Machine} (ha : a.Sound κ [])
    (hfetch : Exec.fetch (m.showing (below ++ (pre ++ [a])) []) = .ok i m₁)
    (hop : i.op = .call ∨ i.op = .tailCall) (hcallee : Exec.pop m₁ = .ok callee m₂)
    (hargs : Exec.popMany i.operand m₂ = .ok args m₃) :
    ∃ a', a'.handler = a.handler ∧ a'.Sound κ [.value] ∧
      m₃ = m.showing (below ++ (pre ++ [a'])) [] := by
  rw [← List.append_assoc] at hfetch
  cases ha.next with
  | ret hat => simp [(Exec.fetched_inv hfetch hat).1] at hop
  | jump hat => simp [(Exec.fetched_inv hfetch hat).1] at hop
  | branch hat => simp [(Exec.fetched_inv hfetch hat).1] at hop
  | @straight op operand line takes leaves ops vs hat hstraight _ hoperands hfits hnext =>
    obtain ⟨rfl, rfl⟩ := Exec.fetched_inv hfetch hat
    obtain ⟨rfl, rfl⟩ : takes = List.replicate operand .value ++ [.value] ∧ leaves = [.value] := by
      obtain rfl | rfl := hop <;> cases hstraight <;> exact ⟨rfl, rfl⟩
    obtain ⟨args', callee', rfl, hargs', _⟩ := forall₂_concat_left hfits
    rw [showing_fetched _ hoperands, Exec.pop_showing] at hcallee
    cases hcallee
    have hmany := Exec.popMany_showing m (below ++ pre ++ [{ a with
      ip := a.ip + 1 + op.width, operands := ops }]) [] (fits_replicate hargs')
    rw [List.nil_append] at hmany
    rw [hmany] at hargs
    cases hargs
    exact ⟨{ a with ip := a.ip + 1 + op.width, operands := ops }, rfl, hnext,
      by rw [List.append_assoc]⟩

/-- What the thread of a sound machine shows when the machine raises an effect. The innermost call is
still the same, and starts with the same activation, if with any. -/
theorem Raises.shows (hraises : m.Raises s effect payload) (hsound : m.Sound κ) :
    ∃ below above, s.thread = s.thread.showing (below ++ above) [] ∧
      Exec.baseOf s.thread.levels = Exec.baseOf m.thread.levels ∧
      Exec.baseOf m.thread.levels = below.length ∧ Grounded κ above := by
  obtain ⟨below, above, extra, level, levels, hready, hunderway, hshows⟩ := hsound.ready
  have hlength : Exec.baseOf m.thread.levels = below.length := by
    rw [hready.calls, Exec.baseOf, hready.above.depth]
  induction hraises with
  | @made level' levels' callee args s effect payload hlevels hphase happly =>
    rw [hready.calls] at hlevels
    cases hlevels
    rw [hphase] at hunderway
    cases hunderway with
    | made =>
      obtain ⟨w, rfl⟩ := Exec.apply_worldOnly _ _ _ _ _ happly
      refine ⟨below, [], congrArg Machine.thread (setPhase_showing hshows .opening), ?_, hlength,
        by simp [Grounded]⟩
      rw [(hready.setPhase .opening).calls, hready.calls]
      rfl
    | entered hentered => simp at hentered
  | @instruction level' levels' i callee args m₁ m₂ m₃ s effect payload hlevels hphase hfetch hop
      hcallee hargs happly =>
    rw [hready.calls] at hlevels
    cases hlevels
    generalize hphase' : level.phase = phase at hunderway
    cases hunderway with
    | @entered _ pre a _ _ ha hground =>
      rw [hshows] at hfetch
      obtain ⟨a', hhandler, _, rfl⟩ := call_operands ha hfetch hop hcallee hargs
      obtain ⟨w, rfl⟩ := Exec.apply_worldOnly _ _ _ _ _ happly
      exact ⟨below, pre ++ [a'], rfl, rfl, hlength, hground.replaceLast hhandler⟩
    | _ => rw [hphase] at hphase'; cases hphase'
  | @clause s s₁ s₂ effect effect' payload payload' clause j h k _ hanswers hcapture happly ih =>
    obtain ⟨first, rest, hacts, hbase, hfirst, hground⟩ := ih
    have hfind := findHandler_of_answers hanswers
    rw [hacts] at hfind
    obtain ⟨below', b, above', hsplit, hb, hplace, hindex, hvisible, _⟩ := findHandler_locate hfind
    rw [Thread.showing_levels, hbase, hfirst] at hvisible
    obtain ⟨pre, rfl, rfl⟩ := split_in_second hsplit hvisible
    rw [hsplit] at hacts
    have hcut := Exec.capture_showing s (first ++ pre) above' b h.clauses h.label hb
    rw [← hplace, ← hindex, showing, ← hacts, hcapture] at hcut
    cases hcut
    obtain ⟨w, rfl⟩ := Exec.apply_worldOnly _ _ _ _ _ happly
    refine ⟨first, pre, rfl, hbase, hfirst, fun hκ a ha => ?_⟩
    cases pre with
    | nil => cases ha
    | cons => exact hground hκ a ha

/-- The handler that answers an effect raised by a sound machine stands. -/
theorem Raises.stands {j : Nat} {h : Installed Value} {clause : Value}
    (hraises : m.Raises s effect payload) (hsound : m.Sound κ)
    (hanswers : s.thread.Answers effect j h clause) : s.thread.Stands j h := by
  obtain ⟨below, above, hshows, _⟩ := hraises.shows hsound
  have hfit := positionsFit_showing (below ++ above) []
  refine PositionsFit.stands ?_ hanswers.entry
  rw [hshows]
  exact hfit

/-- The next move executes a call. -/
theorem advance_callTop {level : Level} {levels : List Level} {i : Fetched} {m₁ : Machine}
    (hlevels : m.thread.levels = level :: levels) (hphase : level.phase = .running)
    (hfetch : Exec.fetch m = .ok i m₁) {tail : Bool} (hop : i.op = if tail then .tailCall else .call) :
    m.advance = .ofCall i.line (Exec.callTop i.operand i.line tail m₁) := by
  have hexecute : Exec.execute i m₁ =
      (do Exec.callTop i.operand i.line tail; return none : Exec (Option Value)) m₁ := by
    obtain ⟨op, operand, start, line⟩ := i
    obtain rfl : op = if tail then .tailCall else .call := hop
    cases tail <;> rfl
  rw [Machine.advance, hlevels]
  simp only [hphase]
  rw [runInstruction, hfetch]
  simp only [hexecute]
  cases hcall : Exec.callTop i.operand i.line tail m₁ with
  | ok u m' =>
    rw [bind_of_ok hcall]
    rfl
  | error stop m' =>
    rw [bind_of_error hcall]
    rfl

/-- The next move does what raising the effect comes to. -/
theorem Raises.advance (hraises : m.Raises s effect payload) (hsound : m.Sound κ) :
    ∃ line, m.advance = .ofCall line (Exec.raise line effect payload s) := by
  induction hraises with
  | @made level levels callee args s effect payload hlevels hphase happly =>
    refine ⟨0, ?_⟩
    rw [Machine.advance, hlevels]
    simp only [hphase]
    rw [openCall, ← call_of_apply 0 false happly]
    rfl
  | @instruction level levels i callee args m₁ m₂ m₃ s effect payload hlevels hphase hfetch hop hcallee
      hargs happly =>
    obtain ⟨tail, htail⟩ : ∃ tail : Bool, i.op = if tail then .tailCall else .call := by
      obtain hop | hop := hop
      · exact ⟨false, hop⟩
      · exact ⟨true, hop⟩
    refine ⟨i.line, ?_⟩
    rw [advance_callTop hlevels hphase hfetch htail, Exec.callTop, bind_of_ok hcallee, bind_of_ok hargs,
      call_of_apply i.line tail happly]
  | @clause s s₁ s₂ effect effect' payload payload' clause j h k hraises hanswers hcapture happly ih =>
    obtain ⟨line, hadvance⟩ := ih
    have hstands := hraises.stands hsound hanswers
    rw [Exec.capture_of_stands hstands] at hcapture
    cases hcapture
    refine ⟨line, ?_⟩
    rw [hadvance, Exec.raise_of_answers hanswers hstands, call_of_apply line false happly]

end Machine

end Resumable
