import Mathlib.Logic.Relation
import Resumable.Proofs.Machine.Depth
import Resumable.Proofs.Machine.Pending

/-!
Resuming in tail position. A clause that gives a value to the suspended computation as the last thing
that it does leaves nothing of itself behind: the thread is what it was when the effect was raised, with
the value on top. So a computation that raises effects one after another, all of them answered in this
way, needs no more room than it needs for one of them.
-/

namespace Resumable

/-- A value without the number of its label, if it is one. -/
def Value.unlabeled : Value → Value
  | .label _ => .label 0
  | v => v

/-- A thread without the numbers of its labels. -/
def Thread.unlabeled (t : Thread) : Thread :=
  { t with
    stack := t.stack.map Value.unlabeled
    handlers := t.handlers.map fun h => { h with label := 0 }
    lastLabel := 0 }

/-- An activation without the number of its label. -/
def Activation.unlabeled (a : Activation) : Activation :=
  a.relabel 0

section

variable {acts acts' : List Activation} {a : Activation}

theorem Activation.relabel_unlabeled (a : Activation) (label : Nat) :
    (a.relabel label).unlabeled = a.unlabeled := by
  unfold unlabeled relabel
  cases a.handler <;> rfl

theorem Activation.frame_unlabeled (a : Activation) (height : Nat) :
    a.unlabeled.frame height = a.frame height := by
  unfold unlabeled relabel frame mark
  cases a.handler <;> rfl

theorem Activation.segment_unlabeled (a : Activation) :
    a.unlabeled.segment.map Value.unlabeled = a.segment.map Value.unlabeled := by
  unfold unlabeled relabel segment mark
  cases a.handler <;> rfl

theorem Activation.installed_unlabeled (a : Activation) (depth height : Nat) :
    a.unlabeled.installed depth height =
      (a.installed depth height).map fun h => { h with label := 0 } := by
  unfold unlabeled relabel installed
  cases a.handler <;> rfl

theorem Activation.length_segment_unlabeled (a : Activation) :
    a.unlabeled.segment.length = a.segment.length := by
  have hlength := congrArg List.length a.segment_unlabeled
  simpa only [List.length_map] using hlength

theorem framesFrom_unlabeled (height : Nat) (acts : List Activation) :
    framesFrom height (acts.map Activation.unlabeled) = framesFrom height acts := by
  induction acts generalizing height with
  | nil => rfl
  | cons a acts ih =>
    rw [List.map_cons, framesFrom_cons, framesFrom_cons, ih, a.frame_unlabeled,
      a.length_segment_unlabeled]

theorem stackOf_unlabeled (acts : List Activation) :
    (stackOf (acts.map Activation.unlabeled)).map Value.unlabeled =
      (stackOf acts).map Value.unlabeled := by
  induction acts with
  | nil => rfl
  | cons a acts ih =>
    rw [List.map_cons, stackOf_cons, stackOf_cons, List.map_append, List.map_append, ih,
      a.segment_unlabeled]

theorem handlersFrom_unlabeled (depth height : Nat) (acts : List Activation) :
    handlersFrom depth height (acts.map Activation.unlabeled) =
      (handlersFrom depth height acts).map fun h => { h with label := 0 } := by
  induction acts generalizing depth height with
  | nil => rfl
  | cons a acts ih =>
    rw [List.map_cons, handlersFrom_cons, handlersFrom_cons, List.map_append, ih,
      a.installed_unlabeled, a.length_segment_unlabeled]

/-- Threads that show the same activations up to labels are the same up to labels. -/
theorem Thread.unlabeled_showing (t : Thread) (extra : List Value)
    (hsame : acts.map Activation.unlabeled = acts'.map Activation.unlabeled) :
    (t.showing acts extra).unlabeled = (t.showing acts' extra).unlabeled := by
  have hframes := congrArg (framesFrom 0) hsame
  have hstack := congrArg (fun l => (stackOf l).map Value.unlabeled) hsame
  have hhandlers := congrArg (handlersFrom 0 0) hsame
  simp only [framesFrom_unlabeled] at hframes
  simp only [stackOf_unlabeled] at hstack
  simp only [handlersFrom_unlabeled] at hhandlers
  simp only [unlabeled, showing, List.map_toArray, List.map_append, hframes, hstack, hhandlers]

end

namespace Machine

/-- As long as so many threads wait, the one that runs has an activation at a depth that is not a
boundary. Otherwise more threads wait. -/
def Pends (waiting depth : Nat) (m : Machine) : Prop :=
  waiting < m.waiting.length ∨ m.waiting.length = waiting ∧ m.thread.PlainAt depth

instance (waiting depth : Nat) (m : Machine) : Decidable (m.Pends waiting depth) :=
  inferInstanceAs (Decidable (_ ∨ _))

/-- The next move calls, in tail position, a value that stands for a suspended computation and gives it
the value that it waits for. -/
inductive TailResumes (m : Machine) (k : Continuation Value) (v : Value) : Prop
  | intro {level : Level} {levels : List Level} {i : Fetched} {callee : Value} {args : List Value}
    {m₁ m₂ m₃ s : Machine} (hlevels : m.thread.levels = level :: levels)
    (hphase : level.phase = .running) (hfetch : Exec.fetch m = .ok i m₁) (hop : i.op = .tailCall)
    (hcallee : Exec.pop m₁ = .ok callee m₂) (hargs : Exec.popMany i.operand m₂ = .ok args m₃)
    (happly : Exec.apply callee args m₃ = .ok (.resume k v) s)

/-- The next move of `m` raises an effect, in the state `s`, and leads to `m'`. The handler `h` answers
it and suspends `k`. -/
inductive Suspending (m s : Machine) (h : Installed Value) (k : Continuation Value) (m' : Machine) :
    Prop
  | intro {effect : Effect} {payload clause : Value} {j : Nat} (hraises : m.Raises s effect payload)
    (hanswers : s.thread.Answers effect j h clause)
    (hcapture : Exec.capture j h s = .ok k { s with thread := s.thread.below j h })
    (hmove : m.advance = .more m')

/-- The activation on top, when so many threads wait, is at the given depth and resumes in tail
position. This leads to `m'`. -/
structure Resuming (m : Machine) (waiting depth : Nat) (k : Continuation Value) (v : Value)
    (m' : Machine) : Prop where
  resumes : m.TailResumes k v
  waiting : m.waiting.length = waiting
  top : m.thread.frames.size = depth + 1
  move : m.advance = .more m'

/-- A clause is at work, from its call on. Its activation, or that of a function that it calls in tail
position, is at the given depth all the time. If an effect raised on the way suspends it, then the
clause for that effect resumes it in tail position, and its handler is not that of the first activation
of the call in progress. -/
inductive Works (waiting : Nat) : Nat → Machine → Machine → Prop
  | start {depth : Nat} {m : Machine} (hpends : m.Pends waiting depth) : Works waiting depth m m
  | move {depth : Nat} {m m' m'' : Machine} (hbefore : Works waiting depth m m')
    (hmove : m'.advance = .more m'') (hpends : m''.Pends waiting depth) : Works waiting depth m m''
  | suspended {depth : Nat} {m m' m₁ m₂ m'' s : Machine} {h : Installed Value}
    {k : Continuation Value} {v : Value} (hbefore : Works waiting depth m m')
    (hwaiting : m'.waiting.length = waiting) (hsuspends : m'.Suspending s h k m₁)
    (hbase : Exec.baseOf s.thread.levels < h.depth) (houter : h.depth < depth)
    (hclause : Works waiting h.depth m₁ m₂) (hresumes : m₂.Resuming waiting h.depth k v m'') :
    Works waiting depth m m''

/-- An effect is raised, in the state `s`, and the clause that answers it resumes in tail position. Its
handler is not that of the first activation of the call in progress. -/
inductive Round (m s m' : Machine) : Prop
  | intro {h : Installed Value} {k : Continuation Value} {v : Value} {m₁ m₂ : Machine}
    (hsuspends : m.Suspending s h k m₁) (hbase : Exec.baseOf s.thread.levels < h.depth)
    (hworks : Works m.waiting.length h.depth m₁ m₂)
    (hresumes : m₂.Resuming m.waiting.length h.depth k v m')

/-- The machines from one to another, move by move, all with a property. -/
inductive Passes (P : Machine → Prop) (m : Machine) : Machine → Prop
  | start (hm : P m) : Passes P m m
  | move {m' m'' : Machine} (hbefore : Passes P m m') (hmove : m'.advance = .more m'') (hm'' : P m'') :
    Passes P m m''

/-- The running thread has at most so many frames and values. -/
structure Within (frames values : Nat) (m : Machine) : Prop where
  frames : m.thread.frames.size ≤ frames
  values : m.thread.stack.size ≤ values

/-- A number of rounds one after another, the first of them for an effect raised in the state `s`. Each
round needs so many frames and values more than there are at its raise, and so does what comes between
two rounds, counted from the end of the first. No round starts on more than the one before has left. -/
inductive Rounds (frames values : Nat) : Nat → Machine → Machine → Machine → Prop
  | one {m s m' : Machine} (hround : m.Round s m')
    (hneeds : Passes (Within (s.thread.frames.size + frames) (s.thread.stack.size + values)) m m') :
    Rounds frames values 1 m s m'
  | more {n : Nat} {m s m₁ m₂ s₂ m' : Machine} (hround : m.Round s m₁)
    (hneeds : Passes (Within (s.thread.frames.size + frames) (s.thread.stack.size + values)) m m₁)
    (hbetween : Passes (Within (m₁.thread.frames.size + frames) (m₁.thread.stack.size + values)) m₁ m₂)
    (hframes : s₂.thread.frames.size ≤ m₁.thread.frames.size)
    (hvalues : s₂.thread.stack.size < m₁.thread.stack.size)
    (hrest : Rounds frames values n m₂ s₂ m') : Rounds frames values (n + 1) m s m'

end Machine

/-- An instruction that only moves values between the slots and the operands of an activation. -/
inductive Activation.Shuffles (line : Nat) (a : Activation) : Activation → Prop
  | load {slot : Nat} {v : Value} (hat : a.code.At a.ip .loadLocal slot line)
    (hv : a.locals[slot]? = some v) :
    Shuffles line a { a with ip := a.ip + 2, operands := a.operands ++ [v] }
  | store {slot : Nat} {v : Value} {ops : List Value} (hat : a.code.At a.ip .storeLocal slot line)
    (hops : a.operands = ops ++ [v]) :
    Shuffles line a { a with ip := a.ip + 2, locals := setSlot a.locals slot v, operands := ops }
  | fill (hat : a.code.At a.ip .pushNone 0 line) :
    Shuffles line a { a with ip := a.ip + 1, operands := a.operands ++ [.none] }
  | drop {v : Value} {ops : List Value} (hat : a.code.At a.ip .pop 0 line)
    (hops : a.operands = ops ++ [v]) : Shuffles line a { a with ip := a.ip + 1, operands := ops }

namespace Code

instance {κ : Type} (code : Code κ) (offset : Nat) (op : Op) (operand line : Nat) :
    Decidable (code.At offset op operand line) :=
  decidable_of_iff (code.bytes[offset]? = some op.toByte ∧
      code.operandAt? op offset = some operand ∧ code.lines[offset]? = some line)
    ⟨fun h => ⟨h.1, h.2.1, h.2.2⟩, fun h => ⟨h.opcode, h.operand, h.line⟩⟩

/-- What the code of a clause is that does no more than to resume with its payload: it binds its two
parameters to variables and calls one with the other. -/
def resumption : List (Nat × Op × Nat) :=
  [(0, .loadLocal, 0), (2, .storeLocal, 2), (4, .pushNone, 0), (5, .pop, 0), (6, .loadLocal, 1),
    (8, .storeLocal, 3), (10, .pushNone, 0), (11, .pop, 0), (12, .loadLocal, 2), (14, .loadLocal, 3),
    (16, .tailCall, 1)]

/-- Code of a clause that resumes at once. -/
structure ResumesAtOnce (code : Code Value) (line : Nat) : Prop where
  unnamed : code.selfName = none
  slots : code.localCount = 4
  instructions : ∀ i ∈ resumption, code.At i.1 i.2.1 i.2.2 line

instance (code : Code Value) (line : Nat) : Decidable (code.ResumesAtOnce line) :=
  decidable_of_iff (code.selfName.isNone = true ∧ code.localCount = 4 ∧
      ∀ i ∈ resumption, code.At i.1 i.2.1 i.2.2 line)
    ⟨fun h => ⟨Option.isNone_iff_eq_none.1 h.1, h.2.1, h.2.2⟩,
      fun h => ⟨Option.isNone_iff_eq_none.2 h.unnamed, h.slots, h.instructions⟩⟩

end Code

namespace Machine

section

variable {m s m' : Machine} {below above low : List Activation} {level : Level} {levels : List Level}
  {extra : List Value} {effect : Effect} {payload : Value} {h : Installed Value}
  {k : Continuation Value} {v : Value}

/-- A machine in which an effect has suspended what is there from the boundary `b` on. -/
structure Parted (s : Machine) (k : Continuation Value) (low : List Activation) (b : Activation)
    (above : List Activation) (level : Level) (levels : List Level) : Prop where
  calls : s.thread.levels = level :: levels
  running : level.phase = .running
  base : level.depth ≤ low.length
  bound : b.handler.isSome = true
  part : k = .ofActs (b :: above)
  shows : s.thread = s.thread.showing (low ++ b :: above) []

/-- An effect that `m` has raised, in the state `s`, is answered: its clause has been entered where the
boundary was, with the payload and what has been suspended, and everything below has stayed. -/
structure Answered (m s : Machine) (h : Installed Value) (k : Continuation Value)
    (clause payload : Value) (low : List Activation) (b : Activation) (above : List Activation)
    (level : Level) (levels : List Level) (m' : Machine) : Prop where
  length : low.length = h.depth
  parted : s.Parted k low b above level levels
  frames : s.thread.frames.size = m.thread.frames.size
  limits : s.thread.limits = m.thread.limits
  keeps : ∀ low' outer, m.thread.Pending low' outer → s.thread.Pending low' outer
  entered : ∃ (n : Machine) (id kid : Nat) (code : Code Value) (env : List (Symbol × Value)),
    n.waiting = m.waiting ∧ n.thread.levels = level :: levels ∧ clause = .closure id code env ∧
      m' = n.showing (low ++ [.enter clause code env [payload, .continuation kid k] none]) []

/-- Where no call starts with a boundary, the handler that answers an effect is above the first
activation of the call in progress. -/
theorem Raises.base_lt {κ : Kind} {clause : Value} {j : Nat} (hraises : m.Raises s effect payload)
    (hsound : m.Sound κ) (hκ : κ ≠ .clause) (hanswers : s.thread.Answers effect j h clause) :
    Exec.baseOf s.thread.levels < h.depth := by
  obtain ⟨first, rest, hshows, hbase, hlength, hground⟩ := hraises.shows hsound
  have hfind := findHandler_of_answers hanswers
  rw [hshows] at hfind
  obtain ⟨low, b, up, hsplit, hb, hplace, _, hvisible, _⟩ := findHandler_locate hfind
  rw [Thread.showing_levels, hbase, hlength] at hvisible
  obtain ⟨pre, rfl, rfl⟩ := split_in_second hsplit hvisible
  have hdepth : h.depth = (first ++ pre).length := congrArg Installed.depth hplace
  rw [hbase, hlength, hdepth, List.length_append]
  cases pre with
  | nil =>
    have hnone := hground hκ b rfl
    rw [hb] at hnone
    cases hnone
  | cons => simp

/-- What a machine shows when it raises an effect: the call in progress has just been made, or the last
of its activations has called the effect. -/
theorem Raises.place (hraises : m.Raises s effect payload)
    (hready : m.Ready .clause below level levels) (hunderway : Underway .clause level.phase above extra)
    (hshows : m = m.showing (below ++ above) extra) :
    (∃ w, s = { m.setPhase .opening with world := w }.showing below []) ∨
      level.phase = .running ∧ ∃ pre a a' w, above = pre ++ [a] ∧ a'.handler = a.handler ∧
        (∀ b ∈ pre ++ [a'], b.Sound .clause [.value]) ∧
        s = { m with world := w }.showing (below ++ (pre ++ [a'])) [] := by
  induction hraises with
  | @made level' levels' callee args s effect payload hlevels hphase happly =>
    rw [hready.calls] at hlevels
    cases hlevels
    rw [hphase] at hunderway
    cases hunderway with
    | made =>
      obtain ⟨w, rfl⟩ := Exec.apply_worldOnly _ _ _ _ _ happly
      refine Or.inl ⟨w, ?_⟩
      have hplace := setPhase_showing hshows .opening
      rw [List.append_nil] at hplace
      exact congrArg (fun n => { n with world := w }) hplace
    | entered hentered => simp at hentered
  | @instruction level' levels' i callee args m₁ m₂ m₃ s effect payload hlevels hphase hfetch hop
      hcallee hargs happly =>
    rw [hready.calls] at hlevels
    cases hlevels
    generalize hphase' : level.phase = phase at hunderway
    cases hunderway with
    | @entered _ pre a _ hpre ha =>
      rw [hshows] at hfetch
      obtain ⟨a', hhandler, ha', rfl⟩ := call_operands ha hfetch hop hcallee hargs
      obtain ⟨w, rfl⟩ := Exec.apply_worldOnly _ _ _ _ _ happly
      refine Or.inr ⟨hphase'.symm.trans hphase, pre, a, a', w, rfl, hhandler, ?_, rfl⟩
      exact List.forall_mem_append.2 ⟨hpre, by simpa using ha'⟩
    | _ => rw [hphase] at hphase'; cases hphase'
  | @clause s s₁ s₂ effect effect' payload payload' clause j h k _ hanswers hcapture happly ih =>
    have hfind := findHandler_of_answers hanswers
    obtain ⟨w, rfl⟩ | ⟨hrunning, pre, a, a', w, rfl, hhandler, hsound, rfl⟩ := ih
    · -- all handlers are below the call in progress
      rw [showing_thread, Thread.showing_handlers, Thread.showing_levels] at hfind
      obtain ⟨below', b, above', hacts, _, _, _, hbase, _⟩ := findHandler_locate hfind
      have hsplit : below ++ [] = below' ++ b :: above' := (List.append_nil below).trans hacts
      obtain ⟨pre, _, hnil⟩ := (hready.setPhase .opening).split hsplit hbase
      simp at hnil
    · rw [showing_thread, Thread.showing_handlers, Thread.showing_levels] at hfind
      obtain ⟨below', b, above', hacts, hb, _, _, hbase, hclause⟩ := findHandler_locate hfind
      obtain ⟨pre', _, habove⟩ := hready.split hacts hbase
      obtain ⟨⟨id, code, env, rfl, harity⟩, _⟩ :=
        (hsound b (habove ▸ List.mem_append_right _ List.mem_cons_self)).clause hb hclause
      simp only [Exec.clauseArgs, Value.arity?, harity] at happly
      rw [if_neg (by simp), Exec.apply_clause _ harity] at happly
      cases happly

theorem Parted.size {b : Activation} (hparted : s.Parted k low b above level levels) :
    s.thread.frames.size = low.length + (b :: above).length := by
  rw [hparted.shows]
  simp

theorem Pends.not_few {waiting depth : Nat} (hpends : m'.Pends waiting depth)
    (hwaiting : m.waiting.length = waiting) : ¬ Few depth m m' := by
  rintro (hshorter | ⟨hsame, hsize⟩)
  · obtain hmore | ⟨hmore, _⟩ := hpends <;> omega
  · obtain hmore | ⟨_, hplain⟩ := hpends
    · rw [hsame] at hmore
      omega
    · exact absurd hplain.lt (by omega)

/-- The clause for an effect is entered. -/
theorem call_clause {id : Nat} {code : Code Value} {env : List (Symbol × Value)}
    (harity : code.arity = 2) (payload k : Value) (line : Nat) (m : Machine) :
    Exec.call (.closure id code env) (Exec.clauseArgs (.closure id code env) payload k) line false m =
      Exec.pushFrame (.closure id code env) code env [payload, k] false m := by
  simp only [Exec.clauseArgs, Value.arity?, harity]
  rw [if_neg (by simp), Exec.call, bind_of_ok (Exec.apply_clause _ harity payload k)]
  rfl

/-- A function is entered above the activations that are left, or there is no room for it. -/
theorem enters_or_few {closure : Value} {code : Code Value} {env : List (Symbol × Value)}
    {args : List Value} {line : Nat}
    (hmove : Progress.ofCall line (Exec.pushFrame closure code env args false (m.showing low [])) =
      .more m') :
    m' = m.showing (low ++ [.enter closure code env args none]) [] ∨ Few low.length m m' := by
  obtain ⟨_, detail, herror⟩ | ⟨_, hok⟩ := Exec.pushFrame_showing m low closure code env args
  · rw [herror] at hmove
    have hfew : Few low.length (m.showing low []) m' :=
      unwind_few (Or.inl (by simp)) hmove
    exact Or.inr hfew
  · rw [hok] at hmove
    cases hmove
    exact Or.inl rfl

theorem Raises.answered {clause : Value} {j : Nat} (hraises : m.Raises s effect payload)
    (hsound : m.Sound .clause) (hanswers : s.thread.Answers effect j h clause)
    (hcapture : Exec.capture j h s = .ok k { s with thread := s.thread.below j h })
    (hmove : m.advance = .more m') (hpends : m'.Pends m.waiting.length h.depth) :
    ∃ low b above level levels, m.Answered s h k clause payload low b above level levels m' := by
  obtain ⟨line, hadvance⟩ := hraises.advance hsound
  rw [Exec.raise_of_answers hanswers (hraises.stands hsound hanswers)] at hadvance
  have hfind := findHandler_of_answers hanswers
  obtain ⟨below, above, extra, level, levels, hready, hunderway, hshows⟩ := hsound.ready
  obtain ⟨w, hs⟩ | ⟨hrunning, pre, a, a', w, rfl, hhandler, hacts, hs⟩ :=
    hraises.place hready hunderway hshows
  · rw [hs, showing_thread, Thread.showing_handlers, Thread.showing_levels] at hfind
    obtain ⟨below', b, above', hacts, _, _, _, hbase', _⟩ := findHandler_locate hfind
    have hsplit : below ++ [] = below' ++ b :: above' := (List.append_nil below).trans hacts
    obtain ⟨pre, _, hnil⟩ := (hready.setPhase .opening).split hsplit hbase'
    simp at hnil
  · rw [hs, showing_thread, Thread.showing_handlers, Thread.showing_levels] at hfind
    obtain ⟨low, b, up, hsplit, hb, hplace, hindex, hbase, hclause⟩ := findHandler_locate hfind
    have hdepth : low.length = h.depth := (congrArg Installed.depth hplace).symm
    obtain ⟨pre', _, habove⟩ := hready.split hsplit hbase
    obtain ⟨⟨id, code, env, rfl, harity⟩, _⟩ :=
      (hacts b (habove ▸ List.mem_append_right _ List.mem_cons_self)).clause hb hclause
    have hcut := Exec.capture_showing { m with world := w } low up b h.clauses h.label hb
    rw [← hplace, ← hindex, ← hsplit, ← hs, hcapture] at hcut
    injection hcut with hk hleft
    have hpart := Exec.capture_of_stands (hraises.stands hsound hanswers)
    rw [hcapture] at hpart
    injection hpart with hpart _
    -- the clause is called on what is left
    have hbelow : s.thread.below j h = m.thread.showing low [] := congrArg Machine.thread hleft
    rw [call_clause harity, hbelow, ← hpart, hs] at hadvance
    obtain rfl | hfew := enters_or_few (m := { m with world := w.draw.2 }) (hadvance.symm.trans hmove)
    · refine ⟨low, b, up, level, levels, hdepth, ⟨?_, hrunning, ?_, ?_, hk, ?_⟩, ?_, ?_, ?_,
        { m with world := w.draw.2 }, id, _, code, env, rfl, hready.calls, rfl, rfl⟩
      · rw [hs]
        exact hready.calls
      · simpa [hready.calls, Exec.baseOf] using hbase
      · rw [hb]
        rfl
      · rw [hs, hsplit]
        rfl
      · rw [hs, hshows]
        simp
      · rw [hs]
        rfl
      · intro low' outer hpending
        obtain ⟨x, rest, hacts', hnone⟩ := hpending.split (congrArg Machine.thread hshows)
        rw [← List.append_assoc] at hacts'
        obtain ⟨y, rest', hacts'', hy⟩ := plain_of_grows hacts' hnone hhandler []
        rw [hs, ← List.append_assoc, hacts'']
        exact Thread.pending_showing m.thread hpending.calls hy []
    · rw [hdepth] at hfew
      exact absurd hfew (hpends.not_few rfl)

theorem Suspending.answered (hsuspends : m.Suspending s h k m') (hsound : m.Sound .clause)
    (hpends : m'.Pends m.waiting.length h.depth) :
    ∃ clause payload low b above level levels,
      m.Answered s h k clause payload low b above level levels m' := by
  obtain @⟨_, payload, clause, _, hraises, hanswers, hcapture, hmove⟩ := hsuspends
  exact ⟨clause, payload, hraises.answered hsound hanswers hcapture hmove hpends⟩

theorem Answered.pending {clause : Value} {b : Activation}
    (hanswered : m.Answered s h k clause payload low b above level levels m') :
    m'.waiting = m.waiting ∧ m'.thread.Pending low (level :: levels) := by
  obtain ⟨n, id, kid, code, env, hwaiting, hlevels, _, rfl⟩ := hanswered.entered
  exact ⟨hwaiting, Thread.pending_showing n.thread ⟨[], hlevels, nofun⟩ rfl []⟩

/-- Where a thread has a pending activation on top, that one belongs to the innermost call. -/
theorem Ready.pending_top {a : Activation} {first : Level} {rest : List Level}
    (hready : m.Ready .clause below level levels) (hshows : m = m.showing (below ++ (above ++ [a])) extra)
    (hpending : m.thread.Pending low (first :: rest)) (htop : m.thread.frames.size = low.length + 1) :
    level = first ∧ levels = rest ∧ below ++ above = low ∧ a.handler = none := by
  obtain ⟨x, up, hacts, hnone⟩ := hpending.split (congrArg Machine.thread hshows)
  have hsize : below.length + above.length = low.length := by
    rw [hshows] at htop
    simpa [← Nat.add_assoc] using htop
  obtain ⟨inner, hlevels, hinner⟩ := hpending.calls
  rw [hready.calls] at hlevels
  rw [← List.append_assoc] at hacts
  obtain ⟨rfl, hup⟩ := List.append_inj hacts (by simpa using hsize)
  cases hup
  cases inner with
  | nil =>
    cases hlevels
    exact ⟨rfl, rfl, rfl, hnone⟩
  | cons level' inner =>
    obtain ⟨rfl, _⟩ : level = level' ∧ levels = inner ++ first :: rest := by simpa using hlevels
    have hdeeper := hinner level List.mem_cons_self
    rw [hready.above.depth] at hdeeper
    omega

/-- The next move resumes in tail position: the last activation is dropped if it may be, and what was
suspended comes on top. -/
theorem TailResumes.advance {first : Level} {rest : List Level} (hresumes : m.TailResumes k v)
    (hsound : m.Sound .clause) (hpending : m.thread.Pending low (first :: rest))
    (htop : m.thread.frames.size = low.length + 1) :
    m.thread.levels = first :: rest ∧ ∃ line w a, a.handler = none ∧
      m.advance = .ofCall line ((do Exec.dropFinished true; Exec.resume k v : Exec Unit)
        ({ m with world := w }.showing (low ++ [a]) [])) := by
  obtain ⟨below, above, extra, level, levels, hready, hunderway, hshows⟩ := hsound.ready
  obtain @⟨_, _, i, callee, args, m₁, m₂, m₃, s, hlevels, hphase, hfetch, hop, hcallee, hargs,
    happly⟩ := hresumes
  rw [hready.calls] at hlevels
  cases hlevels
  generalize hphase' : level.phase = phase at hunderway
  cases hunderway with
  | @entered _ pre a _ _ ha =>
    obtain ⟨rfl, rfl, rfl, hnone⟩ := hready.pending_top hshows hpending htop
    rw [hshows] at hfetch
    obtain ⟨a', hhandler, _, rfl⟩ := call_operands ha hfetch (Or.inr hop) hcallee hargs
    obtain ⟨w, rfl⟩ := Exec.apply_worldOnly _ _ _ _ _ happly
    refine ⟨hready.calls, i.line, w, a', hhandler.trans hnone, ?_⟩
    have hfetch' : Exec.fetch m = .ok i m₁ := by
      rw [hshows]
      exact hfetch
    have htail : i.op = if true then .tailCall else .call := hop
    rw [advance_callTop hready.calls hphase hfetch' htail, Exec.callTop, bind_of_ok hcallee,
      bind_of_ok hargs, Exec.call, bind_of_ok happly, Exec.transferWith, List.append_assoc]
    rfl
  | _ => rw [hphase] at hphase'; cases hphase'

theorem length_of_unlabeled {low' : List Activation}
    (hsame : low'.map Activation.unlabeled = low.map Activation.unlabeled) :
    low'.length = low.length := by
  simpa using congrArg List.length hsame

section

variable {b : Activation} {up low' : List Activation} {first : Level} {rest : List Level}

/-- What resuming in tail position the computation suspended at a raise gives: the activations that
there were then, up to labels, with the value on top. -/
theorem Parted.resumed (hparted : s.Parted k low b up first rest) (hsound : m.Sound .clause)
    (hpending : m.thread.Pending low' (first :: rest))
    (hsame : low'.map Activation.unlabeled = low.map Activation.unlabeled)
    (htop : m.thread.frames.size = low.length + 1) (hresumes : m.TailResumes k v)
    (hbase : Exec.baseOf s.thread.levels < low.length)
    (hroom : s.thread.frames.size ≤ m.thread.limits.maxDepth) :
    ∃ m' label, m.advance = .more m' ∧ m'.waiting = m.waiting ∧ m'.thread.levels = first :: rest ∧
      m'.thread.limits = m.thread.limits ∧
      m'.thread = m'.thread.showing (low' ++ b.relabel label :: up) [v] := by
  have hlength := length_of_unlabeled hsame
  obtain ⟨hcalls, line, w, a, hnone, hadvance⟩ :=
    hresumes.advance hsound hpending (hlength.symm ▸ htop)
  have hlast : Exec.baseOf m.thread.levels < low'.length := by
    rw [hlength, hcalls, ← hparted.calls]
    exact hbase
  have hdrop := Exec.dropFinished_showing { m with world := w } low' a [] true
  rw [if_pos ⟨rfl, hnone, hlast⟩] at hdrop
  obtain ⟨⟨clauses, label⟩, hb⟩ := Option.isSome_iff_exists.1 hparted.bound
  rw [bind_of_ok hdrop, hparted.part] at hadvance
  obtain ⟨hdeep, _⟩ | ⟨_, hok⟩ :=
    Exec.resume_showing { m with world := w } low' up b clauses label hb v
  · rw [hlength, ← hparted.size] at hdeep
    exact absurd hroom (Nat.not_le.2 hdeep)
  · rw [hok] at hadvance
    exact ⟨_, m.thread.lastLabel + 1, hadvance, rfl, hcalls, rfl, rfl⟩

/-- The first activation of a call stays below what it resumes in tail position. -/
theorem Parted.resumed_above (hparted : s.Parted k low b up first rest) (hsound : m.Sound .clause)
    (hpending : m.thread.Pending low' (first :: rest))
    (hsame : low'.map Activation.unlabeled = low.map Activation.unlabeled)
    (htop : m.thread.frames.size = low.length + 1) (hresumes : m.TailResumes k v)
    (hbase : Exec.baseOf s.thread.levels = low.length)
    (hroom : s.thread.frames.size < m.thread.limits.maxDepth) :
    ∃ m', m.advance = .more m' ∧ m'.thread.frames.size = s.thread.frames.size + 1 := by
  have hlength := length_of_unlabeled hsame
  obtain ⟨hcalls, line, w, a, hnone, hadvance⟩ :=
    hresumes.advance hsound hpending (hlength.symm ▸ htop)
  have hfirst : ¬ Exec.baseOf m.thread.levels < low'.length := by
    rw [hlength, hcalls, ← hparted.calls, hbase]
    exact Nat.lt_irrefl _
  have hdrop := Exec.dropFinished_showing { m with world := w } low' a [] true
  rw [if_neg (fun hfinished => hfirst hfinished.2.2)] at hdrop
  obtain ⟨⟨clauses, label⟩, hb⟩ := Option.isSome_iff_exists.1 hparted.bound
  rw [bind_of_ok hdrop, hparted.part] at hadvance
  rw [hparted.size] at hroom ⊢
  obtain ⟨hdeep, _⟩ | ⟨_, hok⟩ :=
    Exec.resume_showing { m with world := w } (low' ++ [a]) up b clauses label hb v
  · simp only [List.length_append, List.length_singleton, hlength] at hdeep
    omega
  · rw [hok] at hadvance
    refine ⟨_, hadvance, ?_⟩
    simp only [showing_thread, Thread.showing_frames, List.size_toArray, length_framesFrom,
      List.length_append, List.length_cons, List.length_nil, hlength]
    omega

end

/-- An activation is pending above `low`, up to labels: on the thread that runs when only the given
threads wait, or on the next one that waits. -/
inductive HasPending (waiting : List (Int × Thread)) (low : List Activation) (outer : List Level)
    (m : Machine) : Prop
  | running {low' : List Activation} (hwaiting : m.waiting = waiting)
    (hsame : low'.map Activation.unlabeled = low.map Activation.unlabeled)
    (hpending : m.thread.Pending low' outer)
  | waiting {low' : List Activation} {tasks : List (Int × Thread)} {id : Int} {t : Thread}
    (hwaiting : m.waiting = tasks ++ (id, t) :: waiting)
    (hsame : low'.map Activation.unlabeled = low.map Activation.unlabeled)
    (hpending : t.Pending low' outer)

theorem HasPending.of_length {waiting : List (Int × Thread)} {outer : List Level}
    (hpending : m.HasPending waiting low outer) (hlength : m.waiting.length = waiting.length) :
    m.waiting = waiting ∧ ∃ low', low'.map Activation.unlabeled = low.map Activation.unlabeled ∧
      m.thread.Pending low' outer := by
  cases hpending with
  | running hwaiting hsame hpending => exact ⟨hwaiting, _, hsame, hpending⟩
  | waiting hwaiting =>
    rw [hwaiting, List.length_append, List.length_cons] at hlength
    omega

/-- A pending activation stays where it is with a move after which it must still be there. -/
theorem HasPending.advance {waiting : List (Int × Thread)} {first : Level} {rest : List Level}
    (hpending : m.HasPending waiting low (first :: rest)) (hsound : m.Sound .clause)
    (hphase : first.phase = .running) (hdepth : first.depth ≤ low.length)
    (hmove : m.advance = .more m') (hpends : m'.Pends waiting.length low.length) :
    m'.HasPending waiting low (first :: rest) := by
  cases hpending with
  | @running low' hwaiting hsame hpending =>
    have hlength := length_of_unlabeled hsame
    cases hsound.advance_pending hpending hphase (hlength ▸ hdepth) hmove with
    | ends hshorter =>
      rw [hwaiting] at hshorter
      obtain hmore | ⟨hmore, _⟩ := hpends <;> omega
    | runs hwaiting' hstill =>
      obtain hmore | ⟨_, hplain⟩ := hpends
      · rw [hwaiting', hwaiting] at hmore
        omega
      · exact .running (hwaiting'.trans hwaiting) hsame (hstill (hlength ▸ hplain))
    | waits hwaiting' hstill =>
      rw [hwaiting, ← List.nil_append (_ :: waiting)] at hwaiting'
      exact .waiting hwaiting' hsame hstill
  | @waiting low' tasks id t hwaiting hsame hpending =>
    have hwaits := hsound.waitsOn hwaiting
    rw [hmove] at hwaits
    cases hwaits with
    | waits hwaiting' => exact .waiting hwaiting' hsame hpending
    | goesOn _ hwaiting' hthread =>
      refine .running hwaiting' hsame ?_
      rw [hthread]
      exact hpending.push _

theorem Works.start_pends {waiting depth : Nat} (hworks : Works waiting depth m m') :
    m.Pends waiting depth := by
  induction hworks with
  | start hpends => exact hpends
  | move _ _ _ ih => exact ih
  | suspended _ _ _ _ _ _ _ ih => exact ih

/-- Sound machines within given limits, where all clauses are functions of two parameters. -/
structure Steady (limits : Limits) (m : Machine) : Prop where
  sound : m.Sound .clause
  withinLimit : m.WithinLimit limits

theorem Steady.advance {limits : Limits} (hm : m.Steady limits) (hmove : m.advance = .more m') :
    m'.Steady limits := by
  have hsound := hm.sound.advance
  have hlimit := advance_withinLimit hm.withinLimit
  rw [hmove] at hsound hlimit
  cases hsound with
  | more hsound => exact ⟨hsound, hlimit⟩

theorem Suspending.move (hsuspends : m.Suspending s h k m') : m.advance = .more m' := by
  cases hsuspends with
  | intro _ _ _ hmove => exact hmove

/-- What was pending at a raise below the handler's boundary and what was pending above it are pending
again after the round. -/
theorem Parted.pending_again {b : Activation} {up low' low₀ : List Activation} {label : Nat}
    {first : Level} {rest outer : List Level} (hparted : s.Parted k low b up first rest)
    (hpending : s.thread.Pending low₀ outer) (hdepth : low.length < low₀.length)
    (hsame : low'.map Activation.unlabeled = low.map Activation.unlabeled)
    (hlevels : m.thread.levels = first :: rest)
    (hshows : m.thread = m.thread.showing (low' ++ b.relabel label :: up) extra) :
    ∃ low₁, low₁.map Activation.unlabeled = low₀.map Activation.unlabeled ∧
      m.thread.Pending low₁ outer := by
  obtain ⟨a, rest', hacts, hnone⟩ := hpending.split hparted.shows
  obtain ⟨mid, rfl, rfl⟩ := split_in_first hacts.symm hdepth
  have hsame₁ : (low' ++ b.relabel label :: mid).map Activation.unlabeled =
      (low ++ b :: mid).map Activation.unlabeled := by
    simp only [List.map_append, List.map_cons, hsame, Activation.relabel_unlabeled]
  refine ⟨low' ++ b.relabel label :: mid, hsame₁, ?_⟩
  obtain ⟨inner, hinner, hdeeper⟩ := hpending.calls
  have hagain : low' ++ b.relabel label :: (mid ++ a :: rest') =
      low' ++ b.relabel label :: mid ++ a :: rest' := by
    simp
  rw [hagain] at hshows
  rw [hshows]
  refine Thread.pending_showing m.thread ⟨inner, ?_, fun l hl => ?_⟩ hnone extra
  · rw [hlevels, ← hparted.calls, hinner]
  · rw [length_of_unlabeled hsame₁]
    exact hdeeper l hl

/-- The activation of a clause that is at work is pending all the time, and where it was suspended on
the way it is pending again. -/
theorem Works.hasPending {limits : Limits} {waiting : List (Int × Thread)} {depth : Nat}
    {first : Level} {rest : List Level} (hworks : Works waiting.length depth m m') (hm : m.Steady limits) (hlength : low.length = depth)
    (hphase : first.phase = .running) (hdepth : first.depth ≤ low.length)
    (hpending : m.HasPending waiting low (first :: rest)) :
    m'.Steady limits ∧ m'.HasPending waiting low (first :: rest) := by
  induction hworks generalizing low first rest with
  | start => exact ⟨hm, hpending⟩
  | move _ hmove hpends ih =>
    obtain ⟨hm', hpending'⟩ := ih hm hlength hphase hdepth hpending
    exact ⟨hm'.advance hmove,
      hpending'.advance hm'.sound hphase hdepth hmove (hlength.symm ▸ hpends)⟩
  | @suspended depth m m' m₁ m₂ m'' s h k v _ hwaiting hsuspends hbase houter hclause hresumes ih
    ihclause =>
    obtain ⟨hm', hpending'⟩ := ih hm hlength hphase hdepth hpending
    obtain ⟨hsameWaiting, low₀, hsame₀, hpending₀⟩ := hpending'.of_length hwaiting
    obtain ⟨_, _, lowₕ, b, up, level, levels, hanswered⟩ :=
      hsuspends.answered hm'.sound (hwaiting ▸ hclause.start_pends)
    have hparted := hanswered.parted
    have hlengthₕ := hanswered.length
    obtain ⟨hwaiting₁, hpending₁⟩ := hanswered.pending
    obtain ⟨hm₂, hpending₂⟩ := ihclause (hm'.advance hsuspends.move) hlengthₕ hparted.running
      hparted.base (.running (hwaiting₁.trans hsameWaiting) rfl hpending₁)
    obtain ⟨hwaiting₂, low', hsame, hpending₂⟩ := hpending₂.of_length hresumes.waiting
    have hroom : s.thread.frames.size ≤ m₂.thread.limits.maxDepth := by
      rw [hanswered.frames, hm₂.withinLimit.thread.1]
      exact hm'.withinLimit.thread.2
    obtain ⟨m₃, label, hmove, hwaiting₃, hlevels, _, hshows⟩ := hparted.resumed hm₂.sound hpending₂
      hsame (hlengthₕ.symm ▸ hresumes.top) hresumes.resumes (hlengthₕ ▸ hbase) hroom
    obtain rfl : m₃ = m'' := by
      have hboth := hmove.symm.trans hresumes.move
      injection hboth
    obtain ⟨low₁, hsame₁, hpending₃⟩ := hparted.pending_again
      (hanswered.keeps _ _ hpending₀)
      (by rw [hlengthₕ, length_of_unlabeled hsame₀, hlength]; exact houter) hsame hlevels hshows
    exact ⟨hm₂.advance hmove,
      .running (hwaiting₃.trans hwaiting₂) (hsame₁.trans hsame₀) hpending₃⟩

theorem unlabeled_showing_congr {t t' : Thread} (acts : List Activation) (extra : List Value)
    (hlevels : t.levels = t'.levels) (hlimits : t.limits = t'.limits) :
    (t.showing acts extra).unlabeled = (t'.showing acts extra).unlabeled := by
  simp only [Thread.unlabeled, Thread.showing, hlevels, hlimits]

variable {limits : Limits} {P Q : Machine → Prop} {m₁ m₂ : Machine}

/-- Where a clause has come to when it resumes: below it is what was there at the raise, up to labels. -/
theorem Steady.works_to (hm : m.Steady limits) (hsuspends : m.Suspending s h k m₁)
    (hworks : Works m.waiting.length h.depth m₁ m₂) (hwaiting : m₂.waiting.length = m.waiting.length) :
    ∃ low b up level levels low', low.length = h.depth ∧ s.Parted k low b up level levels ∧
      s.thread.frames.size ≤ limits.maxDepth ∧ s.thread.limits = limits ∧ m₂.Steady limits ∧
      m₂.waiting = m.waiting ∧ low'.map Activation.unlabeled = low.map Activation.unlabeled ∧
      m₂.thread.Pending low' (level :: levels) := by
  obtain ⟨_, _, low, b, up, level, levels, hanswered⟩ :=
    hsuspends.answered hm.sound hworks.start_pends
  have hparted := hanswered.parted
  obtain ⟨hwaiting₁, hpending⟩ := hanswered.pending
  obtain ⟨hm₂, hpending₂⟩ := hworks.hasPending (hm.advance hsuspends.move) hanswered.length
    hparted.running hparted.base (.running hwaiting₁ rfl hpending)
  obtain ⟨hwaiting₂, low', hsame, hpending'⟩ := hpending₂.of_length hwaiting
  refine ⟨low, b, up, level, levels, low', hanswered.length, hparted, ?_, ?_, hm₂, hwaiting₂, hsame,
    hpending'⟩
  · rw [hanswered.frames]
    exact hm.withinLimit.thread.2
  · rw [hanswered.limits, hm.withinLimit.thread.1]

/-- Resuming in tail position gives back the thread at the raise, up to labels, with the value on
top. -/
theorem Steady.resumed_in_tail (hm : m.Steady limits) (hsuspends : m.Suspending s h k m₁)
    (hbase : Exec.baseOf s.thread.levels < h.depth) (hworks : Works m.waiting.length h.depth m₁ m₂)
    (hresumes : m₂.TailResumes k v) (hwaiting : m₂.waiting.length = m.waiting.length)
    (htop : m₂.thread.frames.size = h.depth + 1) :
    ∃ m', m₂.advance = .more m' ∧ m'.thread.unlabeled = (s.thread.push v).unlabeled := by
  obtain ⟨low, b, up, level, levels, low', hlength, hparted, hroom, hlimits, hm₂, _, hsame, hpending⟩ :=
    hm.works_to hsuspends hworks hwaiting
  have hlimits₂ := hm₂.withinLimit.thread.1
  obtain ⟨m', label, hmove, _, hlevels, hlimits', hshows⟩ := hparted.resumed hm₂.sound hpending hsame
    (hlength.symm ▸ htop) hresumes (hlength ▸ hbase) (hlimits₂ ▸ hroom)
  have hacts : (low' ++ b.relabel label :: up).map Activation.unlabeled =
      (low ++ b :: up).map Activation.unlabeled := by
    simp only [List.map_append, List.map_cons, hsame, Activation.relabel_unlabeled]
  refine ⟨m', hmove, ?_⟩
  rw [hshows, hparted.shows, Thread.showing_push, Thread.unlabeled_showing _ _ hacts]
  exact unlabeled_showing_congr _ _ (hlevels.trans hparted.calls.symm)
    (hlimits'.trans (hlimits₂.trans hlimits.symm))

/-- The first activation of a call stays when it resumes in tail position, so that there is one frame
more than at the raise. -/
theorem Steady.resumed_at_base (hm : m.Steady limits) (hsuspends : m.Suspending s h k m₁)
    (hbase : Exec.baseOf s.thread.levels = h.depth) (hworks : Works m.waiting.length h.depth m₁ m₂)
    (hresumes : m₂.TailResumes k v) (hwaiting : m₂.waiting.length = m.waiting.length)
    (htop : m₂.thread.frames.size = h.depth + 1)
    (hroom : s.thread.frames.size < s.thread.limits.maxDepth) :
    ∃ m', m₂.advance = .more m' ∧ m'.thread.frames.size = s.thread.frames.size + 1 := by
  obtain ⟨low, b, up, level, levels, low', hlength, hparted, _, hlimits, hm₂, _, hsame, hpending⟩ :=
    hm.works_to hsuspends hworks hwaiting
  have hlimits₂ := hlimits.trans hm₂.withinLimit.thread.1.symm
  exact hparted.resumed_above hm₂.sound hpending hsame (hlength.symm ▸ htop) hresumes
    (hlength ▸ hbase) (hlimits₂ ▸ hroom)

/-- After a round there are as many frames as before, and one more value. -/
theorem Steady.round_sizes (hm : m.Steady limits) (hround : m.Round s m') :
    m'.thread.frames.size = s.thread.frames.size ∧
      m'.thread.stack.size = s.thread.stack.size + 1 := by
  obtain ⟨hsuspends, hbase, hworks, hresumes⟩ := hround
  obtain ⟨m'', hmove, hsame⟩ := hm.resumed_in_tail hsuspends hbase hworks hresumes.resumes
    hresumes.waiting hresumes.top
  obtain rfl : m'' = m' := by
    have hboth := hmove.symm.trans hresumes.move
    injection hboth
  have hframes := congrArg (fun t => t.frames.size) hsame
  have hstack := congrArg (fun t => t.stack.size) hsame
  simp only [Thread.unlabeled, Thread.push, Array.size_map, Array.size_push] at hframes hstack
  exact ⟨hframes, hstack⟩

theorem Passes.mono (hpasses : Passes P m m') (hPQ : ∀ n, P n → Q n) : Passes Q m m' := by
  induction hpasses with
  | start hm => exact .start (hPQ _ hm)
  | move _ hmove hm'' ih => exact .move ih hmove (hPQ _ hm'')

theorem Passes.trans (hpasses : Passes P m m₁) (hrest : Passes P m₁ m') : Passes P m m' := by
  induction hrest with
  | start => exact hpasses
  | move _ hmove hm'' ih => exact .move ih hmove hm''

theorem Passes.steady (hpasses : Passes P m m') (hm : m.Steady limits) : m'.Steady limits := by
  induction hpasses with
  | start => exact hm
  | move _ hmove _ ih => exact ih.advance hmove

theorem Within.mono {frames values frames' values' : Nat} (hm : m.Within frames values)
    (hframes : frames ≤ frames') (hvalues : values ≤ values') : m.Within frames' values' :=
  ⟨Nat.le_trans hm.frames hframes, Nat.le_trans hm.values hvalues⟩

/-- Any number of rounds one after another need no more room than one. -/
theorem Rounds.passes {frames values n : Nat} (hrounds : Rounds frames values n m s m')
    (hm : m.Steady limits) :
    Passes (Within (s.thread.frames.size + frames) (s.thread.stack.size + 1 + values)) m m' := by
  induction hrounds with
  | one _ hneeds => exact hneeds.mono fun _ hn => hn.mono (Nat.le_refl _) (by omega)
  | more hround hneeds hbetween hframes hvalues _ ih =>
    obtain ⟨hsizeFrames, hsizeStack⟩ := hm.round_sizes hround
    rw [hsizeFrames] at hframes
    rw [hsizeStack] at hvalues
    rw [hsizeFrames, hsizeStack] at hbetween
    have hrest := ih (hbetween.steady (hneeds.steady hm))
    have hfirst := hneeds.mono fun _ hn => hn.mono (Nat.le_refl _)
      (Nat.add_le_add_right (Nat.le_succ _) _)
    refine hfirst.trans (hbetween.trans (hrest.mono fun _ hn => hn.mono ?_ ?_))
    · exact Nat.add_le_add_right hframes _
    · omega

/-- The next move executes an instruction that ends neither the call nor the thread. -/
theorem advance_of_execute {i : Fetched} (hlevels : m.thread.levels = level :: levels)
    (hphase : level.phase = .running) (hfetch : Exec.fetch m = .ok i m₁)
    (hexecute : Exec.execute i m₁ = .ok none m₂) : m.advance = .more m₂ := by
  rw [Machine.advance, hlevels]
  simp only [hphase]
  rw [runInstruction, hfetch]
  simp only [hexecute]

theorem advance_of_shuffles {a a' : Activation} {line : Nat} (hshuffles : a.Shuffles line a')
    (hlevels : m.thread.levels = level :: levels) (hphase : level.phase = .running) :
    (m.showing (low ++ [a]) []).advance = .more (m.showing (low ++ [a']) []) := by
  have hshows : ∀ (b : Activation) (ops : List Value),
      m.showing (low ++ [{ b with operands := ops }]) [] =
        m.showing (low ++ [{ b with operands := [] }]) ops :=
    fun _ _ => showing_operands rfl
  have hfetch : ∀ {op : Op} {operand ip : Nat}, a.code.At a.ip op operand line →
      a.ip + 1 + op.width = ip →
      Exec.fetch (m.showing (low ++ [a]) []) = .ok { op, operand, start := a.ip, line }
        (m.showing (low ++ [{ a with ip, operands := [] }]) a.operands) := by
    rintro op operand _ hat rfl
    rw [hshows a a.operands]
    exact Exec.fetch_showing m low { a with operands := [] } a.operands hat
  cases hshuffles with
  | @load slot v hat hv =>
    refine advance_of_execute hlevels hphase (hfetch hat rfl) ?_
    rw [hshows { a with ip := a.ip + 2 }]
    exact Exec.execute_loadLocal m low _ a.operands a.ip line hv
  | @store slot v ops hat hops =>
    refine advance_of_execute hlevels hphase (hfetch hat rfl) ?_
    rw [hops, hshows { a with ip := a.ip + 2, locals := setSlot a.locals slot v }]
    exact Exec.execute_storeLocal m low { a with ip := a.ip + 2, operands := [] } ops a.ip line slot v
  | fill hat =>
    refine advance_of_execute hlevels hphase (hfetch hat rfl) ?_
    rw [hshows { a with ip := a.ip + 1 }]
    exact Exec.execute_pushNone m _ a.operands a.ip line 0
  | @drop v ops hat hops =>
    refine advance_of_execute hlevels hphase (hfetch hat rfl) ?_
    rw [hops, hshows { a with ip := a.ip + 1 }]
    exact Exec.execute_pop m _ ops a.ip line 0 v

theorem handler_of_shuffles {a a' : Activation} {line : Nat} (hshuffles : a.Shuffles line a') :
    a'.handler = a.handler := by
  cases hshuffles <;> rfl

/-- A clause that resumes at once moves its parameters to other slots, and from there to where they are
called. -/
theorem shuffles_of_resumesAtOnce {code : Code Value} {line : Nat} (honce : code.ResumesAtOnce line)
    (closure payload k : Value) (env : List (Symbol × Value)) :
    ∃ locals, Relation.ReflTransGen (Activation.Shuffles line)
      (.enter closure code env [payload, k] none)
      { code, env, locals, ip := 16, operands := [payload, k] } := by
  have hat := honce.instructions
  simp only [Code.resumption, List.forall_mem_cons, List.not_mem_nil] at hat
  obtain ⟨h₀, h₂, h₄, h₅, h₆, h₈, h₁₀, h₁₁, h₁₂, h₁₄, _⟩ := hat
  have hstart : Activation.enter closure code env [payload, k] none =
      { code, env, locals := #[payload, k, .none, .none] } := by
    simp [Activation.enter, Frame.enter, honce.unnamed, honce.slots]
  rw [hstart]
  -- each parameter is bound to a variable, and then both variables are loaded
  have hbound : Relation.ReflTransGen (Activation.Shuffles line)
      { code, env, locals := #[payload, k, .none, .none] }
      { code, env, locals := #[payload, k, payload, .none], ip := 6 } :=
    (((Relation.ReflTransGen.single (.load h₀ rfl)).tail (.store h₂ (List.nil_append _).symm)).tail
      (.fill h₄)).tail (.drop h₅ (List.nil_append _).symm)
  have hbound' : Relation.ReflTransGen (Activation.Shuffles line)
      { code, env, locals := #[payload, k, payload, .none], ip := 6 }
      { code, env, locals := #[payload, k, payload, k], ip := 12 } :=
    (((Relation.ReflTransGen.single (.load h₆ rfl)).tail (.store h₈ (List.nil_append _).symm)).tail
      (.fill h₁₀)).tail (.drop h₁₁ (List.nil_append _).symm)
  exact ⟨_, (hbound.trans hbound').trans
    ((Relation.ReflTransGen.single (.load h₁₂ rfl)).tail (.load h₁₄ rfl))⟩

/-- A clause that resumes at once is at work until it does so. -/
theorem Answered.works_at_once {b : Activation} {id line : Nat} {code : Code Value}
    {env : List (Symbol × Value)}
    (hanswered : m.Answered s h k (.closure id code env) payload low b above level levels m')
    (honce : code.ResumesAtOnce line) :
    ∃ m₂, Works m.waiting.length h.depth m' m₂ ∧ m₂.TailResumes k payload ∧
      m₂.waiting.length = m.waiting.length ∧ m₂.thread.frames.size = h.depth + 1 := by
  obtain ⟨n, id', kid, code', env', hwaiting, hlevels, hclause, rfl⟩ := hanswered.entered
  cases hclause
  have hrunning := hanswered.parted.running
  obtain ⟨locals, hshuffles⟩ := shuffles_of_resumesAtOnce honce (.closure id code env) payload
    (.continuation kid k) env
  have hpends : ∀ {a : Activation}, a.handler = none →
      (n.showing (low ++ [a]) []).Pends m.waiting.length h.depth := by
    intro a hnone
    have hpending : (n.showing (low ++ [a]) []).thread.Pending low (level :: levels) :=
      Thread.pending_showing n.thread ⟨[], hlevels, nofun⟩ hnone []
    exact Or.inr ⟨congrArg List.length hwaiting, hanswered.length ▸ hpending.plainAt⟩
  have hworks : ∀ {a : Activation}, Relation.ReflTransGen (Activation.Shuffles line)
      (.enter (.closure id code env) code env [payload, .continuation kid k] none) a →
      a.handler = none ∧ Works m.waiting.length h.depth (n.showing (low ++ [.enter (.closure id code env)
        code env [payload, .continuation kid k] none]) []) (n.showing (low ++ [a]) []) := by
    intro a hreach
    induction hreach with
    | refl => exact ⟨rfl, .start (hpends rfl)⟩
    | tail _ hstep ih =>
      have hnone := (handler_of_shuffles hstep).trans ih.1
      exact ⟨hnone, ih.2.move (advance_of_shuffles hstep hlevels hrunning) (hpends hnone)⟩
  refine ⟨_, (hworks hshuffles).2, ?_, congrArg List.length hwaiting, by simp [hanswered.length]⟩
  have hat : code.At 16 .tailCall 1 line := honce.instructions (16, .tailCall, 1) (by simp [Code.resumption])
  have hshows : n.showing
      (low ++ [{ code, env, locals, ip := 16, operands := [payload, .continuation kid k] }]) [] =
      n.showing (low ++ [{ code, env, locals, ip := 16 }]) ([payload] ++ [.continuation kid k]) :=
    showing_operands rfl
  rw [hshows]
  exact .intro hlevels hrunning
    (Exec.fetch_showing n low { code, env, locals, ip := 16 } [payload, .continuation kid k] hat) rfl
    (Exec.pop_showing n _ [payload] (.continuation kid k))
    (Exec.popMany_showing n _ [] (show [payload].length = 1 from rfl)) rfl

/-- The state in which the next move raises an effect that a handler answers, with that handler, the
code of its clause, and the machine after that move. -/
def suspension? (m : Machine) : Option (Machine × Installed Value × Code Value × Machine) :=
  match m.raising?, m.advance with
  | some (s, effect, _), .more m' =>
    match findHandler s.thread.handlers (Exec.baseOf s.thread.levels) effect s.thread.handlers.size with
    | some (_, h, .closure _ code _) => some (s, h, code, m')
    | _ => none
  | _, _ => none

theorem Steady.suspends_at_once {code : Code Value} {line : Nat} (hm : m.Steady limits)
    (hsuspension : m.suspension? = some (s, h, code, m')) (honce : code.ResumesAtOnce line)
    (hpends : m'.Pends m.waiting.length h.depth) :
    ∃ k v m₂, m.Suspending s h k m' ∧ Works m.waiting.length h.depth m' m₂ ∧ m₂.TailResumes k v ∧
      m₂.waiting.length = m.waiting.length ∧ m₂.thread.frames.size = h.depth + 1 := by
  unfold suspension? at hsuspension
  split at hsuspension
  next s effect payload m' hraising hmove =>
    split at hsuspension
    next j h id code env hfind =>
      cases hsuspension
      have hraises := raises_of_raising? hraising
      have hanswers := answers_of_findHandler hfind
      have hcapture := Exec.capture_of_stands (hraises.stands hm.sound hanswers)
      obtain ⟨low, b, up, level, levels, hanswered⟩ :=
        hraises.answered hm.sound hanswers hcapture hmove hpends
      obtain ⟨m₂, hworks, hresumes, hwaiting, htop⟩ := hanswered.works_at_once honce
      exact ⟨_, payload, m₂, ⟨hraises, hanswers, hcapture, hmove⟩, hworks, hresumes, hwaiting, htop⟩
    next => cases hsuspension
  next => cases hsuspension

end

end Machine

end Resumable
