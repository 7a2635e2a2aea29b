import Resumable.Proofs.Machine.Partial
import Resumable.Proofs.Machine.TailRun

/-!
What calls come to. A call leaves its value to the activation that has made it; in tail position it
leaves an activation that is about to return the value. On the way there are never more frames than a
given number.
-/

namespace Resumable

namespace Machine

/-- The machine with another shared state and another latest label. -/
def later (m : Machine) (w : World) (label : Nat) : Machine :=
  { m with world := w, thread := { m.thread with lastLabel := label } }

/-- Moves lead from one machine to another, with at most `depth` frames on the way. -/
inductive LeadsWithin (depth : Nat) : Machine → Machine → Prop
  | rest {m : Machine} (hdepth : m.thread.frames.size ≤ depth) : LeadsWithin depth m m
  | move {m m₁ m₂ : Machine} (hdepth : m.thread.frames.size ≤ depth) (hmove : m.advance = .more m₁)
    (hrest : LeadsWithin depth m₁ m₂) : LeadsWithin depth m m₂

/-- Above the activations `acts`, a call that is not in tail position gives the value `v`. It takes the
shared state from `w` to `w'`. -/
def Calls (m : Machine) (acts : List Activation) (depth : Nat) (callee : Value) (args : List Value)
    (w : World) (v : Value) (w' : World) : Prop :=
  ∀ label line, ∃ m₁ label',
    Exec.call callee args line false ((m.later w label).showing acts []) = .ok () m₁ ∧
      LeadsWithin depth m₁ ((m.later w' label').showing acts [v])

/-- The machine `start` comes to an activation above `pre`, with the handler `bound`, that is about to
return the value `v`. -/
def Finishes (m : Machine) (pre : List Activation) (bound : Option (List (Effect × Value) × Nat))
    (depth : Nat) (start : Machine) (v : Value) (w' : World) : Prop :=
  ∃ b label, b.handler = bound ∧ b.code.Returns b.ip ∧
    LeadsWithin depth start ((m.later w' label).showing (pre ++ [b]) [v])

/-- Above the activations `pre`, a call in tail position finishes with the value `v`, whichever
activation with the handler `bound` it replaces. -/
def TailCalls (m : Machine) (pre : List Activation) (bound : Option (List (Effect × Value) × Nat))
    (depth : Nat) (callee : Value) (args : List Value) (w : World) (v : Value) (w' : World) : Prop :=
  ∀ label line b, b.handler = bound → b.code.Returns b.ip → ∃ m₁,
    Exec.call callee args line true ((m.later w label).showing (pre ++ [b]) []) = .ok () m₁ ∧
      m.Finishes pre bound depth m₁ v w'

variable {m m₁ m₂ start : Machine} {acts pre : List Activation} {depth : Nat}
  {bound : Option (List (Effect × Value) × Nat)} {args given : List Value} {v u : Value}
  {w w' w'' : World} {label n : Nat}

@[simp]
theorem later_thread_limits : (m.later w label).thread.limits = m.thread.limits :=
  rfl

@[simp]
theorem later_thread_levels : (m.later w label).thread.levels = m.thread.levels :=
  rfl

theorem later_running (hm : m.thread.Running) (w : World) (label : Nat) :
    (m.later w label).thread.Running :=
  hm

theorem size_frames_showing (m : Machine) (acts : List Activation) (extra : List Value) :
    (m.showing acts extra).thread.frames.size = acts.length := by
  simp

namespace LeadsWithin

theorem trans (h : LeadsWithin depth m m₁) (h' : LeadsWithin depth m₁ m₂) : LeadsWithin depth m m₂ := by
  induction h with
  | rest => exact h'
  | move hdepth hmove _ ih => exact .move hdepth hmove (ih h')

/-- A single move. -/
theorem single (hmove : m.advance = .more m₁) (hdepth : m.thread.frames.size ≤ depth)
    (hdepth' : m₁.thread.frames.size ≤ depth) : LeadsWithin depth m m₁ :=
  .move hdepth hmove (.rest hdepth')

theorem depth_right (h : LeadsWithin depth m m₁) : m₁.thread.frames.size ≤ depth := by
  induction h with
  | rest hdepth => exact hdepth
  | move _ _ _ ih => exact ih

theorem leads (h : LeadsWithin depth m m₁) : Progress.Leads (.more m) (.more m₁) := by
  induction h with
  | rest => exact .refl _
  | move _ hmove _ ih => exact .move (hmove ▸ ih)

end LeadsWithin

/-- An activation that is about to return a value gives it to the activation below. -/
theorem leadsWithin_of_returns {b : Activation} (hm : m.thread.Running)
    (hbase : Exec.baseOf m.thread.levels < pre.length) (hdepth : pre.length + 1 ≤ depth)
    (hreturns : b.code.Returns b.ip) :
    LeadsWithin depth (m.showing (pre ++ [b]) [v]) (m.showing pre [v]) := by
  obtain ⟨code, hcode⟩ : ∃ code, b.code = code := ⟨_, rfl⟩
  obtain ⟨ip, hip⟩ : ∃ ip, b.ip = ip := ⟨_, rfl⟩
  rw [hcode, hip] at hreturns
  have hsize : ∀ b, (m.showing (pre ++ [b]) [v]).thread.frames.size ≤ depth := by
    intro b
    rw [size_frames_showing]
    simpa using hdepth
  induction hreturns generalizing b with
  | ret hat =>
    rw [← hcode, ← hip] at hat
    refine .single ?_ (hsize b) ?_
    · rw [hm.advance_over hat, show Op.ret.narrow = .ret from rfl, Exec.execute_ret]
      have hreturn := Exec.returnValue_showing m pre { b with ip := b.ip + 1 + Op.ret.width } [] v
      rw [List.nil_append] at hreturn
      rw [hreturn, if_neg (by omega)]
      rfl
    · rw [size_frames_showing]
      omega
  | jump hat _ ih =>
    rw [← hcode, ← hip] at hat
    exact .move (hsize b) (hm.advance_jump hat [v]) (ih hcode (by rw [hip]))

theorem Finishes.of_leadsWithin (h : m.Finishes pre bound depth m₂ v w')
    (hwithin : LeadsWithin depth m₁ m₂) : m.Finishes pre bound depth m₁ v w' := by
  obtain ⟨b, label, hbound, hreturns, hrest⟩ := h
  exact ⟨b, label, hbound, hreturns, hwithin.trans hrest⟩

/-- What finishes above some activations gives its value to them. -/
theorem Finishes.delivers (h : m.Finishes pre bound depth start v w') (hm : m.thread.Running)
    (hbase : Exec.baseOf m.thread.levels < pre.length) :
    ∃ label, LeadsWithin depth start ((m.later w' label).showing pre [v]) := by
  obtain ⟨b, label, _, hreturns, hwithin⟩ := h
  have hdepth := hwithin.depth_right
  rw [size_frames_showing, List.length_append, List.length_singleton] at hdepth
  exact ⟨label, hwithin.trans (leadsWithin_of_returns (later_running hm w' label) hbase hdepth hreturns)⟩

/-! What a function of the library or a partial application comes to at once is the value of the call,
in tail position or not. -/

/-- A call comes to a value at once. -/
def Replies (callee : Value) (args : List Value) (w : World) (v : Value) (w' : World) : Prop :=
  ∀ (m : Machine) (label : Nat), Exec.apply callee args (m.later w label) =
    .ok (.returned v) (m.later w' label)

theorem Replies.call (h : Replies u args w v w') (line : Nat) (tail : Bool) :
    Exec.call u args line tail ((m.later w label).showing acts []) =
      .ok () ((m.later w' label).showing acts [v]) := by
  have happly := h (m.showing acts []) label
  rw [Exec.call, bind_of_ok (show Exec.apply u args ((m.later w label).showing acts []) =
    .ok (.returned v) ((m.later w' label).showing acts []) from happly)]
  exact Exec.push_showing _ acts [] v

theorem Replies.calls (h : Replies u args w v w') (hdepth : acts.length ≤ depth) :
    m.Calls acts depth u args w v w' := by
  intro label line
  refine ⟨_, label, h.call line false, .rest ?_⟩
  rwa [size_frames_showing]

theorem Replies.tailCalls (h : Replies u args w v w') (hdepth : pre.length + 1 ≤ depth) :
    m.TailCalls pre bound depth u args w v w' := by
  intro label line b hbound hreturns
  refine ⟨_, h.call line true, b, label, hbound, hreturns, .rest ?_⟩
  rw [size_frames_showing]
  simpa using hdepth

/-- A function of the library with as many arguments as it takes. -/
theorem replies_native {id arity : Nat} {name : String} {function : Native}
    (hlength : args.length = arity) (hinvoke : function.invoke name args w = .ok (.value v) w') :
    Replies (.native id name arity function) args w v w' := by
  intro m label
  have htakes : (Value.native id name arity function).Takes (.native id name arity function) []
      arity := ⟨fun _ => rfl, by simp [Value.arity?]⟩
  have hrun : Exec.act (function.invoke name args) (m.later w label) =
      .ok (Reply.value v) (m.later w' label) := by
    rw [Exec.act_run, show (m.later w label).world = w from rfl, hinvoke]
    rfl
  rw [Exec.apply_takes htakes, if_neg (by omega), if_neg (by omega), List.nil_append, Exec.enterWith,
    bind_of_ok hrun]
  rfl

/-- A callable value with fewer arguments than it takes. -/
theorem replies_partial (htakes : v.Takes u given n) (hfew : args.length < n) :
    Replies v args w (.applied w.draw.1 u (given ++ args)) w.draw.2 := by
  intro m label
  rw [Exec.apply_takes htakes, if_pos hfew]
  rfl

/-! A function with as many arguments as it takes is entered. -/

section Closure

variable {id : Nat} {code : Code Value} {env : List (Symbol × Value)}

theorem call_closure (hlength : args.length = code.arity) (line : Nat) (tail : Bool) :
    Exec.call (.closure id code env) args line tail m =
      if tail then Exec.replaceFrame (.closure id code env) code env args m
      else Exec.pushFrame (.closure id code env) code env args false m := by
  have happly : Exec.apply (.closure id code env) args m =
      .ok (.enter (.closure id code env) code env args) m := by
    rw [Exec.apply_closure, Exec.withArity, if_neg (by omega), if_neg (by omega)]
    rfl
  rw [Exec.call, bind_of_ok happly]
  cases tail <;> rfl

/-- Where there is room for a frame. -/
theorem call_closure_of_room (hlength : args.length = code.arity)
    (hframes : acts.length < m.thread.limits.maxDepth)
    (hvalues : heightOf acts < m.thread.limits.maxStack) (line : Nat) :
    Exec.call (.closure id code env) args line false ((m.later w label).showing acts []) =
      .ok () ((m.later w label).showing
        (acts ++ [.enter (.closure id code env) code env args none]) []) := by
  rw [call_closure hlength, if_neg Bool.false_ne_true]
  obtain ⟨hfull, _⟩ | ⟨_, hok⟩ :=
    Exec.pushFrame_showing (m.later w label) acts (.closure id code env) code env args
  · simp only [Thread.Full, Thread.showing_limits, later_thread_limits, Thread.showing_frames,
      Thread.showing_stack, List.size_toArray, length_framesFrom, List.append_nil, length_stackOf] at hfull
    omega
  · exact hok

theorem calls_closure (hm : m.thread.Running) (hbase : Exec.baseOf m.thread.levels < acts.length)
    (hlength : args.length = code.arity) (hframes : acts.length < m.thread.limits.maxDepth)
    (hvalues : heightOf acts < m.thread.limits.maxStack)
    (hbody : ∀ label, m.Finishes acts none depth
      ((m.later w label).showing (acts ++ [.enter (.closure id code env) code env args none]) []) v w') :
    m.Calls acts depth (.closure id code env) args w v w' := by
  intro label line
  obtain ⟨label', hwithin⟩ := (hbody label).delivers hm hbase
  exact ⟨_, label', call_closure_of_room hlength hframes hvalues line, hwithin⟩

theorem tailCalls_closure (hlength : args.length = code.arity)
    (hbody : ∀ label, m.Finishes pre bound depth
      ((m.later w label).showing (pre ++ [.enter (.closure id code env) code env args bound]) []) v w') :
    m.TailCalls pre bound depth (.closure id code env) args w v w' := by
  intro label line b hbound _
  refine ⟨_, ?_, hbody label⟩
  rw [call_closure hlength, if_pos rfl, Exec.replaceFrame_showing, hbound]

end Closure

end Machine

end Resumable
