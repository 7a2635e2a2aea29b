import Resumable.Proofs.Machine.Positions
import Resumable.Proofs.Machine.Suspension

/-!
No thread ever has more frames than its limit allows, whatever code it runs and whatever values it
calls. Frames are added in three places: by a call, by the installation of a handler and by a
resumption. Each refuses to add frames only where these would not fit.
-/

namespace Resumable

namespace RuntimeError

/-- The failure of a thread with too many frames. -/
def tooDeep (limit : Nat) : RuntimeError :=
  .stackOverflow ("maximum recursion depth " ++ toString limit ++ " exceeded")

/-- Whether a failure is for lack of room. -/
def isOverflow : RuntimeError → Bool
  | stackOverflow _ => true
  | located _ e => e.isOverflow
  | _ => false

theorem isOverflow_root (e : RuntimeError) : e.root.isOverflow = e.isOverflow := by
  induction e with
  | located line e ih => exact ih
  | _ => rfl

theorem isOverflow_of_isPlain {e : RuntimeError} (hplain : e.isPlain = true) :
    e.isOverflow = false := by
  induction e with
  | located line e ih => exact ih hplain
  | stackOverflow _ => cases hplain
  | _ => rfl

/-- Too many frames are not the same failure as too many values. -/
theorem tooDeep_ne_full (limit limit' : Nat) :
    tooDeep limit ≠ .stackOverflow ("value stack limit " ++ toString limit' ++ " exceeded") := by
  intro hsame
  have htexts := RuntimeError.stackOverflow.inj hsame
  have hheads := congrArg (fun text => text.toList.head?) htexts
  simp [String.toList_append] at hheads

end RuntimeError

/-- Threads with the given limits and no more frames than these allow. -/
def Thread.WithinLimit (limits : Limits) (t : Thread) : Prop :=
  t.limits = limits ∧ t.frames.size ≤ limits.maxDepth

/-- A machine all of whose threads are within the given limits. -/
def Machine.WithinLimit (limits : Limits) (m : Machine) : Prop :=
  ∀ t ∈ m.threads, t.WithinLimit limits

namespace Machine.WithinLimit

variable {limits : Limits} {m : Machine}

theorem thread (hm : m.WithinLimit limits) : m.thread.WithinLimit limits :=
  hm _ (.head _)

theorem withThread {t : Thread} (hm : m.WithinLimit limits) (ht : t.WithinLimit limits) :
    { m with thread := t }.WithinLimit limits := by
  intro t' ht'
  obtain rfl | ht' := List.mem_cons.1 ht'
  · exact ht
  · exact hm t' (.tail _ ht')

end Machine.WithinLimit

namespace Exec

variable {α β : Type} {limits : Limits} {m m' : Machine}

/-- What an action comes to in a machine within the given limits: the machine stays so, and if there
are too many frames, then for the given cause. Failures of tasks are handed on. -/
def Bounded (limits : Limits) (cause : Machine → Prop) (m : Machine) :
    EStateM.Result Stop Machine α → Prop
  | .ok _ m' => m'.WithinLimit limits ∧ ∀ e, m'.world.Keeps e → m.world.Keeps e
  | .error s m' => m'.WithinLimit limits ∧
    ∀ e, s = .error e → e.root = .tooDeep limits.maxDepth → m.world.Keeps e ∨ cause m'

/-- An action that keeps every machine within the given limits and never finds too many frames. -/
def KeepsLimit (limits : Limits) (x : Exec α) : Prop :=
  ∀ m, m.WithinLimit limits → Bounded limits (fun _ => False) m (x m)

theorem Bounded.mono {cause cause' : Machine → Prop} {r : EStateM.Result Stop Machine α}
    (hr : Bounded limits cause m r) (himp : ∀ m', cause m' → cause' m') :
    Bounded limits cause' m r := by
  cases r with
  | ok a m' => exact hr
  | error s m' => exact ⟨hr.1, fun e hs he => (hr.2 e hs he).imp_right (himp m')⟩

/-- An action that starts after another one. -/
theorem Bounded.after {cause : Machine → Prop} {r : EStateM.Result Stop Machine α}
    (hr : Bounded limits cause m' r) (hkept : ∀ e, m'.world.Keeps e → m.world.Keeps e) :
    Bounded limits cause m r := by
  cases r with
  | ok a m'' => exact ⟨hr.1, fun e he => hkept e (hr.2 e he)⟩
  | error s m'' => exact ⟨hr.1, fun e hs he => (hr.2 e hs he).imp_left (hkept e)⟩

/-- One action after another, of which the first never finds too many frames. -/
theorem KeepsLimit.before {cause : Machine → Prop} {x : Exec α} {f : α → Exec β}
    (hx : KeepsLimit limits x) (hm : m.WithinLimit limits)
    (hf : ∀ a m', x m = .ok a m' → m'.WithinLimit limits → Bounded limits cause m' (f a m')) :
    Bounded limits cause m ((x >>= f) m) := by
  have hfirst := hx m hm
  cases hrun : x m with
  | ok a m' =>
    rw [hrun] at hfirst
    rw [bind_of_ok hrun]
    exact (hf a m' hrun hfirst.1).after hfirst.2
  | error s m' =>
    rw [hrun] at hfirst
    rw [bind_of_error hrun]
    exact hfirst.mono fun _ h => h.elim

namespace KeepsLimit

theorem bind {x : Exec α} {f : α → Exec β} (hx : KeepsLimit limits x)
    (hf : ∀ a, KeepsLimit limits (f a)) : KeepsLimit limits (x >>= f) :=
  fun _ hm => hx.before hm fun a m' _ hm' => hf a m' hm'

theorem ret (a : α) : KeepsLimit limits (pure a : Exec α) :=
  fun _ hm => ⟨hm, fun _ h => h⟩

theorem fail {e : RuntimeError} (he : e.isOverflow = false) :
    KeepsLimit limits (Exec.fail e : Exec α) := by
  intro m hm
  refine ⟨hm, fun e' hsame hroot => ?_⟩
  cases hsame
  rw [← RuntimeError.isOverflow_root, hroot] at he
  cases he

theorem malformed (detail : String) : KeepsLimit limits (Exec.malformed detail : Exec α) :=
  .fail rfl

theorem get {f : Machine → Exec β} (hf : ∀ s, KeepsLimit limits (f s)) :
    KeepsLimit limits (get >>= f) :=
  fun m hm => hf m m hm

theorem modifyThread {f : Thread → Thread} (hlimits : ∀ t, (f t).limits = t.limits)
    (hframes : ∀ t, (f t).frames.size ≤ t.frames.size) :
    KeepsLimit limits (Exec.modifyThread f) := by
  intro m hm
  have hthread := hm.thread
  refine ⟨hm.withThread ⟨(hlimits _).trans hthread.1, ?_⟩, fun _ h => h⟩
  exact Nat.le_trans (hframes _) hthread.2

theorem modifyFrame (f : Frame Value → Frame Value) : KeepsLimit limits (Exec.modifyFrame f) :=
  .modifyThread (fun _ => rfl) fun _ => by simp

theorem push (v : Value) : KeepsLimit limits (Exec.push v) :=
  .modifyThread (fun _ => rfl) fun _ => Nat.le_refl _

theorem pop : KeepsLimit limits Exec.pop := by
  refine .get fun s => ?_
  split
  · exact .bind (.modifyThread (fun _ => rfl) fun _ => Nat.le_refl _) fun _ => .ret _
  · exact .malformed _

theorem popMany (n : Nat) : KeepsLimit limits (Exec.popMany n) := by
  refine .get fun s => ?_
  by_cases hfew : s.thread.stack.size < n
  · simp only [hfew, if_true]
    exact .malformed _
  · simp only [hfew, if_false]
    refine .get fun s' => ?_
    exact .bind (.modifyThread (fun _ => rfl) fun _ => Nat.le_refl _) fun _ => .ret _

theorem topFrame : KeepsLimit limits Exec.topFrame := by
  refine .get fun s => ?_
  split
  · exact .ret _
  · exact .malformed _

theorem baseDepth : KeepsLimit limits Exec.baseDepth := by
  refine .get fun s => ?_
  split
  · exact .ret _
  · exact .ret _

theorem draw : KeepsLimit limits Exec.draw :=
  fun _ hm => ⟨hm, fun _ h => h⟩

theorem drawLabel : KeepsLimit limits Exec.drawLabel :=
  fun _ hm => ⟨hm.withThread hm.thread, fun _ h => h⟩

/-- A function of the machine fails for lack of room only with the failure of a task. -/
theorem act (name : String) (function : Native) (args : List Value) :
    KeepsLimit limits (Exec.act (function.invoke name args)) := by
  intro m hm
  obtain ⟨d, hd⟩ : ∃ d : Discipline, ∀ v, d.holds v := ⟨⟨fun _ => True, fun _ _ => trivial⟩, fun _ => trivial⟩
  have hall := Value.every_of_forall hd
  have hworld : m.world.Every d := ⟨fun _ v _ => hall v, fun v _ => hall v, fun _ v _ => hall v⟩
  have hsafe : Act.Safe d True m.world (function.invoke name args m.world) :=
    Native.invoke_safe name hworld (fun _ _ => trivial) fun v _ => hall v
  rw [act_run]
  cases hresult : function.invoke name args m.world with
  | ok reply w =>
    rw [hresult] at hsafe
    exact ⟨hm, hsafe.2.2.failures⟩
  | error e w =>
    rw [hresult] at hsafe
    refine ⟨hm, fun e' hsame hroot => hsafe.1.symm.imp ?_ ?_⟩
    · cases hsame
      exact fun h => h
    · cases hsame
      intro hplain
      have hnot := RuntimeError.isOverflow_of_isPlain hplain
      rw [← RuntimeError.isOverflow_root, hroot] at hnot
      cases hnot

theorem beginCall (callee : Value) (args : List Value) (line : Nat) (purpose : Purpose) :
    KeepsLimit limits (Exec.beginCall callee args line purpose) :=
  .modifyThread (fun _ => rfl) fun _ => Nat.le_refl _

/-- A task starts on a thread of its own without frames. -/
theorem beginTask (callee : Value) : KeepsLimit limits (Exec.beginTask callee) := by
  intro m hm
  refine ⟨?_, fun _ h => h⟩
  intro t ht
  obtain rfl | ht := List.mem_cons.1 ht
  · exact ⟨hm.thread.1, Nat.zero_le _⟩
  · exact hm t ht

theorem fetch : KeepsLimit limits Exec.fetch := by
  refine .bind .topFrame fun frame => ?_
  dsimp only
  split
  · exact .malformed _
  · split
    · exact .malformed _
    · split
      · exact .malformed _
      · exact .bind (.modifyFrame _) fun _ => .ret _

theorem constant (index : Nat) : KeepsLimit limits (Exec.constant index) := by
  refine .get fun s => ?_
  dsimp only
  split
  · exact .ret _
  · exact .malformed _

theorem symbolConstant (index : Nat) : KeepsLimit limits (Exec.symbolConstant index) := by
  refine .bind (.constant index) fun v => ?_
  split
  · exact .ret _
  · exact .malformed _

theorem uninstall : KeepsLimit limits Exec.uninstall := by
  refine .modifyThread (fun t => ?_) fun t => ?_
  · split
    · split <;> rfl
    · rfl
  · split
    · split <;> exact Nat.le_refl _
    · exact Nat.le_refl _

theorem returnValue : KeepsLimit limits Exec.returnValue := by
  refine .bind .pop fun v => .get fun s => ?_
  split
  · exact .malformed _
  · refine .bind (.modifyThread (fun _ => rfl) fun t => by simp) fun _ => ?_
    have hdeliver : KeepsLimit limits (do
        let base ← Exec.baseDepth
        if (← MonadState.get).thread.frames.size ≤ base then return some v
        else
          Exec.push v
          return none : Exec (Option Value)) := by
      refine .bind .baseDepth fun base => .get fun s => ?_
      split
      · exact .ret _
      · exact .bind (.push v) fun _ => .ret _
    split
    · exact .bind .uninstall fun _ => hdeliver
    · exact hdeliver

theorem loadLocal (slot : Nat) : KeepsLimit limits (Exec.loadLocal slot) := by
  refine .bind .topFrame fun frame => ?_
  split
  · exact .push _
  · exact .malformed _

theorem storeLocal (slot : Nat) : KeepsLimit limits (Exec.storeLocal slot) :=
  .bind .pop fun _ => .modifyFrame _

theorem loadCaptured (index : Nat) : KeepsLimit limits (Exec.loadCaptured index) := by
  refine .bind (.symbolConstant index) fun name => .bind .topFrame fun frame => ?_
  split
  · exact .push _
  · exact .fail rfl

theorem storeCaptured (index : Nat) : KeepsLimit limits (Exec.storeCaptured index) := by
  refine .bind (.symbolConstant index) fun name => .bind .pop fun v =>
    .bind .topFrame fun frame => ?_
  split
  · exact .modifyFrame _
  · exact .fail rfl

theorem loadGlobal (index : Nat) : KeepsLimit limits (Exec.loadGlobal index) := by
  refine .bind (.symbolConstant index) fun name => .get fun s => ?_
  split
  · exact .push _
  · exact .fail rfl

theorem storeGlobal (index : Nat) : KeepsLimit limits (Exec.storeGlobal index) := by
  refine .bind (.symbolConstant index) fun name => .bind .pop fun v => ?_
  exact fun m hm => ⟨hm, fun _ h => h⟩

theorem capturedBindings (frame : Frame Value) (env : List (Symbol × Value))
    (captures : List Capture) : KeepsLimit limits (Exec.capturedBindings frame env captures) := by
  induction captures generalizing env with
  | nil => exact .ret _
  | cons c captures ih =>
    rw [Exec.capturedBindings]
    split
    · exact ih _
    · exact .malformed _

theorem makeClosure (code : Code Value) : KeepsLimit limits (Exec.makeClosure code) := by
  refine .get fun s => ?_
  split
  · exact .malformed _
  · exact .bind (.capturedBindings _ _ _) fun env => .bind .draw fun id => .ret _

theorem lambda (index : Nat) : KeepsLimit limits (Exec.lambda index) := by
  refine .bind (.constant index) fun v => ?_
  split
  · exact .bind (.makeClosure _) fun f => .push _
  · exact .malformed _

theorem fieldsOf (fields : List (Symbol × Value)) (vs : List Value) :
    KeepsLimit limits (Exec.fieldsOf fields vs) := by
  fun_induction Exec.fieldsOf fields vs with
  | case1 fields name v rest ih => exact ih
  | case2 => exact .malformed _
  | case3 => exact .ret _

theorem buildRecord (count : Nat) : KeepsLimit limits (Exec.buildRecord count) :=
  .bind (.popMany _) fun vs => .bind (.fieldsOf _ vs) fun _ => .push _

theorem getField (index : Nat) : KeepsLimit limits (Exec.getField index) := by
  refine .bind (.symbolConstant index) fun name => .bind .pop fun v => ?_
  split
  · split
    · exact .push _
    · exact .fail rfl
  · exact .fail rfl

theorem clausesOf (done : List (Effect × Value)) (vs : List Value) :
    KeepsLimit limits (Exec.clausesOf done vs) := by
  fun_induction Exec.clausesOf done vs with
  | case1 done e clause rest ih => exact ih
  | case2 => exact .fail rfl
  | case3 => exact .ret _

theorem makeHandler (count : Nat) : KeepsLimit limits (Exec.makeHandler count) :=
  .bind (.popMany _) fun vs => .bind (.clausesOf _ vs) fun _ => .bind .draw fun _ => .push _

/-- A tail call has a frame in the place of the one before. -/
theorem replaceFrame (closure : Value) (code : Code Value) (env : List (Symbol × Value))
    (args : List Value) : KeepsLimit limits (Exec.replaceFrame closure code env args) := by
  intro m hm
  rw [Exec.replaceFrame, bind_get_run]
  cases hback : m.thread.frames.back? with
  | none => exact KeepsLimit.malformed _ m hm
  | some frame =>
    have hsome : 0 < m.thread.frames.size := by
      rw [Array.back?_eq_getElem?] at hback
      have := (Array.getElem?_eq_some_iff.1 hback).1
      omega
    refine ⟨hm.withThread ⟨hm.thread.1, ?_⟩, fun _ h => h⟩
    have hroom := hm.thread.2
    simp only [Array.size_push, Array.size_pop]
    omega

theorem dropFinished (tail : Bool) : KeepsLimit limits (Exec.dropFinished tail) := by
  refine .bind .baseDepth fun base => .get fun s => ?_
  split
  · refine .get fun s' => ?_
    split
    · exact .modifyThread (fun _ => rfl) fun t => by simp
    · exact .ret _
  · exact .ret _

theorem capture (index : Nat) (h : Installed Value) : KeepsLimit limits (Exec.capture index h) := by
  refine .bind (.get fun _ => .ret _) fun t => ?_
  dsimp only
  split
  · refine .bind (.modifyThread (fun _ => rfl) fun t => ?_) fun _ => .ret _
    simp only [Thread.cutAt, Array.size_shrink]
    omega
  · intro m hm
    exact ⟨hm, fun _ h => Stop.noConfusion h⟩

theorem grant (line : Nat) (reply : Reply) : KeepsLimit limits (Exec.grant line reply) := by
  cases reply with
  | value v => exact .push v
  | call mode callee args =>
    cases mode with
    | pass => exact .beginCall _ _ _ _
    | «catch» => exact .get fun s => .beginCall _ _ _ _
  | spawn callee => exact .beginTask callee
  | depth => exact .get fun s => .push _

/-- What a call comes to before the machine acts on it adds no frames. -/
theorem apply (callee : Value) (args : List Value) : KeepsLimit limits (Exec.apply callee args) := by
  have harity : ∀ callee name arity args (full : Exec Transfer), KeepsLimit limits full →
      KeepsLimit limits (Exec.withArity callee name arity args full) := by
    intro callee name arity args full hfull
    unfold Exec.withArity
    split
    · exact .bind .draw fun _ => .ret _
    · split
      · exact .fail rfl
      · exact hfull
  unfold Exec.apply
  generalize callee.unapply args = applied
  obtain ⟨f, args⟩ := applied
  cases f with
  | closure => exact harity _ _ _ _ _ (.ret _)
  | native id name arity function =>
    refine harity _ _ _ _ _ (.bind (.act _ _ _) fun reply => ?_)
    cases reply <;> exact .ret _
  | effect e =>
    dsimp only
    split
    · exact .ret _
    · exact harity _ _ _ _ _ (.ret _)
  | continuation id k =>
    dsimp only
    split
    · exact .ret _
    · exact harity _ _ _ _ _ (.ret _)
  | _ => exact .fail rfl

end KeepsLimit

/-- What a call comes to, in which state, and whether in tail position. If it raises an effect that a
handler answers, then also what the call of the clause comes to. -/
inductive Comes : Value → List Value → Bool → Machine → Transfer → Bool → Machine → Prop
  | here {callee : Value} {args : List Value} {tail : Bool} {m s : Machine} {t : Transfer}
    (happly : apply callee args m = .ok t s) : Comes callee args tail m t tail s
  | clause {callee clause payload : Value} {args : List Value} {tail tail' : Bool}
    {m s s₁ s' : Machine} {effect : Effect} {index : Nat} {h : Installed Value}
    {k : Continuation Value} {t : Transfer}
    (happly : apply callee args m = .ok (.raise effect payload) s)
    (hfind : findHandler s.thread.handlers (baseOf s.thread.levels) effect s.thread.handlers.size =
      some (index, h, clause))
    (hcapture : capture index h s = .ok k s₁)
    (hcomes : Comes clause (clauseArgs clause payload (.continuation s₁.world.draw.1 k)) false
      s₁.drawn t tail' s') : Comes callee args tail m t tail' s'

/-- Frames that a call asks for do not fit: a function is entered on a thread that has all the frames
that it may have, or a suspended computation has too many of them for the thread on which it is
resumed, from which a finished frame has been dropped. -/
inductive Refused (limit : Nat) : Transfer → Bool → Machine → Machine → Prop
  | enter {closure : Value} {code : Code Value} {env : List (Symbol × Value)} {args : List Value}
    {s : Machine} (hfull : s.thread.frames.size = limit) :
    Refused limit (.enter closure code env args) false s s
  | resume {k : Continuation Value} {v : Value} {tail : Bool} {s s' : Machine}
    (hdrop : dropFinished tail s = .ok () s') (hmany : limit < s'.thread.frames.size + k.frames.size) :
    Refused limit (.resume k v) tail s s'

/-- A frame is refused only by a thread that has all the frames that it may have. -/
theorem pushFrame_bounded (hm : m.WithinLimit limits) (closure : Value) (code : Code Value)
    (env : List (Symbol × Value)) (args : List Value) (boundary : Bool) :
    Bounded limits (fun m' => m' = m ∧ m.thread.frames.size = limits.maxDepth) m
      (pushFrame closure code env args boundary m) := by
  obtain ⟨hlimits, hroom⟩ := hm.thread
  rw [pushFrame, bind_get_run, bind_get_run, ite_run, hlimits]
  split
  next hfull =>
    exact ⟨hm, fun e _ _ => Or.inr ⟨rfl, by omega⟩⟩
  next hfree =>
    rw [bind_get_run, ite_run]
    split
    next =>
      refine ⟨hm, fun e hsame hroot => ?_⟩
      cases hsame
      exact absurd hroot.symm (RuntimeError.tooDeep_ne_full _ _)
    next =>
      refine ⟨hm.withThread ⟨hlimits, ?_⟩, fun _ h => h⟩
      simp only [Array.size_push]
      omega

/-- A suspended computation is refused only by a thread for which it has too many frames. -/
theorem resume_bounded (hm : m.WithinLimit limits) (k : Continuation Value) (v : Value) :
    Bounded limits (fun m' => m' = m ∧ limits.maxDepth < m.thread.frames.size + k.frames.size) m
      (resume k v m) := by
  obtain ⟨hlimits, hroom⟩ := hm.thread
  rw [resume, bind_get_run, bind_get_run, ite_run, hlimits]
  split
  next hmany => exact ⟨hm, fun e _ _ => Or.inr ⟨rfl, hmany⟩⟩
  next hfew =>
    refine ⟨?_, fun _ h => h⟩
    refine hm.withThread ⟨hlimits, ?_⟩
    simp only [Thread.extend, Continuation.placed, Array.size_append, Array.size_map]
    omega

/-- What a call comes to is done within the limits, given that raising effects is. -/
theorem transferWith_bounded {raise : Effect → Value → Exec Unit}
    {cause : Effect → Value → Machine → Prop} {t : Transfer} (hm : m.WithinLimit limits)
    (hraise : ∀ effect payload, t = .raise effect payload →
      Bounded limits (cause effect payload) m (raise effect payload m)) (line : Nat) (tail : Bool) :
    Bounded limits (fun m' => Refused limits.maxDepth t tail m m' ∨
      ∃ effect payload, t = .raise effect payload ∧ cause effect payload m') m
        (transferWith raise line tail t m) := by
  cases t with
  | returned v => exact (KeepsLimit.push v m hm).mono fun _ h => h.elim
  | requested reply => exact (KeepsLimit.grant line reply m hm).mono fun _ h => h.elim
  | enter closure code env args =>
    cases tail with
    | true => exact (KeepsLimit.replaceFrame closure code env args m hm).mono fun _ h => h.elim
    | false =>
      refine (pushFrame_bounded hm closure code env args false).mono ?_
      rintro m' ⟨rfl, hfull⟩
      exact Or.inl (.enter hfull)
  | raise effect payload =>
    exact (hraise effect payload rfl).mono fun m' h => Or.inr ⟨effect, payload, rfl, h⟩
  | resume k v =>
    refine (KeepsLimit.dropFinished tail).before hm fun _ m₁ hdrop hm₁ => ?_
    refine (resume_bounded hm₁ k v).mono ?_
    rintro m' ⟨rfl, hmany⟩
    exact Or.inl (.resume hdrop hmany)

/-- The clause that answers an effect asks for frames that do not fit. -/
def ClauseRefused (limit : Nat) (effect : Effect) (payload : Value) (m m' : Machine) : Prop :=
  ∃ index h clause k s₁ t tail s, findHandler m.thread.handlers (baseOf m.thread.levels) effect
      m.thread.handlers.size = some (index, h, clause) ∧ capture index h m = .ok k s₁ ∧
    Comes clause (clauseArgs clause payload (.continuation s₁.world.draw.1 k)) false s₁.drawn t tail
      s ∧ Refused limit t tail s m'

theorem raiseWithin_bounded (hm : m.WithinLimit limits) (line bound : Nat) (effect : Effect)
    (payload : Value) :
    Bounded limits (ClauseRefused limits.maxDepth effect payload m) m
      (raiseWithin line bound effect payload m) := by
  -- the bound falls with every clause that raises an effect itself
  induction bound generalizing m effect payload with
  | zero => exact (KeepsLimit.fail rfl m hm).mono fun _ h => h.elim
  | succ bound ih =>
    rw [raiseWithin_succ]
    split
    next => exact (KeepsLimit.fail rfl m hm).mono fun _ h => h.elim
    next index h clause hfind =>
      refine (KeepsLimit.capture index h).before hm fun k s₁ hcapture hs₁ => ?_
      refine KeepsLimit.draw.before hs₁ fun id s₂ hdraw hs₂ => ?_
      cases hdraw
      refine (KeepsLimit.apply _ _).before hs₂ fun t s happly hs => ?_
      refine (transferWith_bounded hs (fun effect payload _ => ih hs effect payload) line
        false).mono ?_
      rintro m' (hrefused | ⟨effect', payload', rfl, hclause⟩)
      · exact ⟨index, h, clause, k, s₁, t, false, s, hfind, hcapture, .here happly, hrefused⟩
      · obtain ⟨index', h', clause', k', s', t', tail', s'', hfind', hcapture', hcomes, hrefused⟩ :=
          hclause
        exact ⟨index, h, clause, k, s₁, t', tail', s'', hfind, hcapture,
          .clause happly hfind' hcapture' hcomes, hrefused⟩

/-- A call asks for frames that do not fit. -/
def CallRefused (limit : Nat) (callee : Value) (args : List Value) (tail : Bool)
    (m m' : Machine) : Prop :=
  ∃ t tail' s, Comes callee args tail m t tail' s ∧ Refused limit t tail' s m'

theorem call_bounded (hm : m.WithinLimit limits) (callee : Value) (args : List Value) (line : Nat)
    (tail : Bool) :
    Bounded limits (CallRefused limits.maxDepth callee args tail m) m
      (call callee args line tail m) := by
  refine (KeepsLimit.apply callee args).before hm fun t s happly hs => ?_
  have hraise : ∀ effect payload, t = .raise effect payload →
      Bounded limits (ClauseRefused limits.maxDepth effect payload s) s
        (raise line effect payload s) :=
    fun effect payload _ => raiseWithin_bounded hs line _ effect payload
  refine (transferWith_bounded hs hraise line tail).mono ?_
  rintro m' (hrefused | ⟨effect, payload, rfl, hclause⟩)
  · exact ⟨t, tail, s, .here happly, hrefused⟩
  · obtain ⟨index, h, clause, k, s₁, t', tail', s', hfind, hcapture, hcomes, hrefused⟩ := hclause
    exact ⟨t', tail', s', .clause happly hfind hcapture hcomes, hrefused⟩

/-- A handler is not installed only on a thread that has all the frames that it may have. -/
theorem install_bounded (hm : m.WithinLimit limits) (clauses : List (Effect × Value))
    (body : Value) :
    Bounded limits (fun m' => m'.thread.frames.size = limits.maxDepth) m
      (install clauses body m) := by
  have hrefuse : ∀ detail, Bounded limits (fun m' => m'.thread.frames.size = limits.maxDepth) m
      ((fail (.typeError detail) : Exec Unit) m) :=
    fun detail => (KeepsLimit.fail rfl m hm).mono fun _ h => h.elim
  unfold install
  split
  next id code env =>
    rw [ite_run]
    split
    · refine KeepsLimit.drawLabel.before hm fun label m₁ _ hm₁ => ?_
      refine KeepsLimit.before ?_ hm₁ fun _ m₂ _ hm₂ => ?_
      · exact .modifyThread (fun _ => rfl) fun _ => Nat.le_refl _
      refine (pushFrame_bounded hm₂ _ code env [] true).mono ?_
      rintro m' ⟨rfl, hfull⟩
      exact hfull
    · exact hrefuse _
  next => exact hrefuse _

/-- Instructions that neither call a value nor install a handler. -/
theorem KeepsLimit.execute {i : Fetched} (hcall : i.op ≠ .call) (htailCall : i.op ≠ .tailCall)
    (hhandle : i.op ≠ .handle) : KeepsLimit limits (Exec.execute i) := by
  obtain ⟨op, operand, start, line⟩ := i
  cases op with
  | ret => exact .returnValue
  | call => exact absurd rfl hcall
  | tailCall => exact absurd rfl htailCall
  | handle => exact absurd rfl hhandle
  | jump => exact .bind (.modifyFrame _) fun _ => .ret _
  | jumpIfFalse =>
    refine .bind .pop fun test => ?_
    split
    · exact .ret _
    · exact .bind (.modifyFrame _) fun _ => .ret _
  | constant | constantWide =>
    exact .bind (.constant _) fun v => .bind (.push v) fun _ => .ret _
  | pushNone => exact .bind (.push _) fun _ => .ret _
  | pop => exact .bind .pop fun _ => .ret _
  | loadLocal | loadLocalWide => exact .bind (.loadLocal _) fun _ => .ret _
  | storeLocal | storeLocalWide => exact .bind (.storeLocal _) fun _ => .ret _
  | loadCaptured | loadCapturedWide => exact .bind (.loadCaptured _) fun _ => .ret _
  | storeCaptured | storeCapturedWide => exact .bind (.storeCaptured _) fun _ => .ret _
  | loadGlobal | loadGlobalWide => exact .bind (.loadGlobal _) fun _ => .ret _
  | storeGlobal | storeGlobalWide => exact .bind (.storeGlobal _) fun _ => .ret _
  | lambda | lambdaWide => exact .bind (.lambda _) fun _ => .ret _
  | buildList | buildTuple =>
    exact .bind (.popMany _) fun vs => .bind (.push _) fun _ => .ret _
  | buildRecord => exact .bind (.buildRecord _) fun _ => .ret _
  | getField | getFieldWide => exact .bind (.getField _) fun _ => .ret _
  | makeHandler => exact .bind (.makeHandler _) fun _ => .ret _

/-- An instruction asks for frames that do not fit: it calls a value, or it installs a handler on a
thread that has all the frames that it may have. -/
inductive InstructionRefused (limit : Nat) (i : Fetched) (m : Machine) : Machine → Prop
  | call {callee : Value} {args : List Value} {m₁ m₂ m' : Machine} (tail : Bool)
    (hop : i.op = if tail then .tailCall else .call) (hcallee : pop m = .ok callee m₁)
    (hargs : popMany i.operand m₁ = .ok args m₂)
    (hrefused : CallRefused limit callee args tail m₂ m') : InstructionRefused limit i m m'
  | install {body : Value} {id : Nat} {clauses : List (Effect × Value)} {m₁ m₂ m' : Machine}
    {s : Stop} (hop : i.op = .handle) (hbody : pop m = .ok body m₁)
    (hhandler : pop m₁ = .ok (.handler id clauses) m₂)
    (hinstall : Exec.install clauses body m₂ = .error s m')
    (hfull : m'.thread.frames.size = limit) : InstructionRefused limit i m m'

/-- An action that is followed by nothing that fails. -/
theorem Bounded.andThen {cause : Machine → Prop} {x : Exec Unit} (b : β)
    (hx : Bounded limits cause m (x m)) :
    Bounded limits cause m ((do x; return b : Exec β) m) := by
  cases hrun : x m with
  | ok a m' =>
    rw [hrun] at hx
    rw [bind_of_ok hrun]
    exact hx
  | error s m' =>
    rw [hrun] at hx
    rw [bind_of_error hrun]
    exact hx

theorem callTop_bounded (hm : m.WithinLimit limits) {i : Fetched} (tail : Bool)
    (hop : i.op = if tail then .tailCall else .call) :
    Bounded limits (InstructionRefused limits.maxDepth i m) m
      (callTop i.operand i.line tail m) := by
  refine KeepsLimit.pop.before hm fun callee m₁ hcallee hm₁ => ?_
  refine (KeepsLimit.popMany i.operand).before hm₁ fun args m₂ hargs hm₂ => ?_
  exact (call_bounded hm₂ callee args i.line tail).mono fun m' hrefused =>
    .call tail hop hcallee hargs hrefused

theorem handle_bounded (hm : m.WithinLimit limits) {i : Fetched} (hop : i.op = .handle) :
    Bounded limits (InstructionRefused limits.maxDepth i m) m (handle m) := by
  refine KeepsLimit.pop.before hm fun body m₁ hbody hm₁ => ?_
  refine KeepsLimit.pop.before hm₁ fun v m₂ hhandler hm₂ => ?_
  split
  next id clauses =>
    have hinstall := install_bounded hm₂ clauses body
    cases hrun : Exec.install clauses body m₂ with
    | ok a m' =>
      rw [hrun] at hinstall
      exact hinstall
    | error s m' =>
      rw [hrun] at hinstall
      refine ⟨hinstall.1, fun e hsame hroot => ?_⟩
      exact (hinstall.2 e hsame hroot).imp_right fun hfull => .install hop hbody hhandler hrun hfull
  next => exact (KeepsLimit.malformed _ m₂ hm₂).mono fun _ h => h.elim

theorem execute_bounded (hm : m.WithinLimit limits) (i : Fetched) :
    Bounded limits (InstructionRefused limits.maxDepth i m) m (execute i m) := by
  by_cases hcall : i.op = .call
  · have hrun : execute i = (do callTop i.operand i.line false; return none) := by
      rw [execute, hcall]
    rw [hrun]
    exact (callTop_bounded hm false hcall).andThen none
  by_cases htailCall : i.op = .tailCall
  · have hrun : execute i = (do callTop i.operand i.line true; return none) := by
      rw [execute, htailCall]
    rw [hrun]
    exact (callTop_bounded hm true htailCall).andThen none
  by_cases hhandle : i.op = .handle
  · have hrun : execute i = (do handle; return none) := by
      rw [execute, hhandle]
    rw [hrun]
    exact (handle_bounded hm hhandle).andThen none
  exact (KeepsLimit.execute hcall htailCall hhandle m hm).mono fun _ h => h.elim

end Exec

/-- The machine to which a move has led. -/
def Progress.machine : Progress → Machine
  | .more m | .ended _ m => m

namespace Machine

variable {limits : Limits} {m m' : Machine}

theorem finish_withinLimit (hm : m.WithinLimit limits) (result : Except RuntimeError Value) :
    (m.finish result).machine.WithinLimit limits := by
  unfold finish
  split
  · split <;> exact hm
  next id parent waiting hwaiting =>
    have hthreads : ∀ t ∈ parent :: waiting.map Prod.snd, t.WithinLimit limits := by
      intro t ht
      refine hm t (.tail _ ?_)
      rw [hwaiting]
      exact ht
    intro t ht
    obtain rfl | ht := List.mem_cons.1 ht
    · exact hthreads parent (.head _)
    · exact hthreads t (.tail _ ht)

theorem answer_withinLimit (hm : m.WithinLimit limits) (v : Value) :
    (m.answer v).machine.WithinLimit limits := by
  unfold answer
  split
  · exact finish_withinLimit hm _
  next level levels _ =>
    dsimp only
    split
    · exact finish_withinLimit (hm.withThread (t := { m.thread with levels }) hm.thread) _
    · exact hm.withThread hm.thread
    · exact hm.withThread hm.thread

theorem leave_withinLimit {t : Thread} (ht : t.WithinLimit limits) (level : Level) :
    (t.leave level).WithinLimit limits := by
  refine ⟨ht.1, ?_⟩
  have hroom := ht.2
  simp only [Thread.leave, Array.size_shrink]
  omega

theorem unwind_withinLimit (hm : m.WithinLimit limits) (e : RuntimeError) (levels : List Level) :
    (m.unwind e levels).machine.WithinLimit limits := by
  -- each call that ends takes frames away
  induction levels generalizing m e with
  | nil => exact finish_withinLimit (hm.withThread (t := { m.thread with levels := [] }) hm.thread) _
  | cons level levels ih =>
    have hleft := hm.withThread (t := { m.thread.leave level with levels })
      (leave_withinLimit hm.thread level)
    unfold unwind
    dsimp only
    split
    · exact finish_withinLimit hleft _
    · exact ih hleft _
    · exact hm.withThread (leave_withinLimit hm.thread level)

theorem crash_withinLimit (hm : m.WithinLimit limits) : m.crash.machine.WithinLimit limits := by
  unfold crash
  split
  · exact hm
  · exact finish_withinLimit hm _

theorem stop_withinLimit (hm : m.WithinLimit limits) (line : Nat) (s : Stop) :
    (m.stop line s).machine.WithinLimit limits := by
  cases s with
  | error e => exact unwind_withinLimit hm _ _
  | corrupt => exact crash_withinLimit hm

theorem setPhase_withinLimit (hm : m.WithinLimit limits) (phase : Phase) :
    (m.setPhase phase).WithinLimit limits := by
  refine hm.withThread ?_
  unfold Thread.setPhase
  split <;> exact hm.thread

/-- Every move keeps a machine within its limits. -/
theorem advance_withinLimit (hm : m.WithinLimit limits) : m.advance.machine.WithinLimit limits := by
  unfold advance
  split
  · exact finish_withinLimit hm _
  next level levels _ =>
    split
    next callee args _ =>
      have hcall := Exec.call_bounded (setPhase_withinLimit hm .opening) callee args 0 false
      unfold openCall
      unfold setPhase at hcall
      split
      next hrun => rw [hrun] at hcall; exact hcall.1
      next hrun => rw [hrun] at hcall; exact stop_withinLimit hcall.1 _ _
    next =>
      unfold settleCall
      split
      · exact setPhase_withinLimit hm .running
      · have hpop := Exec.KeepsLimit.pop m hm
        split
        next hrun => rw [hrun] at hpop; exact answer_withinLimit hpop.1 _
        next hrun => rw [hrun] at hpop; exact stop_withinLimit hpop.1 _ _
    next =>
      have hfetch := Exec.KeepsLimit.fetch m hm
      unfold runInstruction
      split
      next hrun => rw [hrun] at hfetch; exact stop_withinLimit hfetch.1 _ _
      next i m₁ hrun =>
        rw [hrun] at hfetch
        have hexecute := Exec.execute_bounded hfetch.1 i
        split
        next hrun => rw [hrun] at hexecute; exact hexecute.1
        next hrun => rw [hrun] at hexecute; exact answer_withinLimit hexecute.1 _
        next hrun => rw [hrun] at hexecute; exact stop_withinLimit hexecute.1 _ _

/-- The next move of a machine stops in a given state. -/
inductive StopsAt (m : Machine) : Stop → Machine → Prop
  | call {level : Level} {levels : List Level} {callee : Value} {args : List Value} {s : Stop}
    {m' : Machine} (hlevels : m.thread.levels = level :: levels)
    (hphase : level.phase = .made callee args)
    (hstop : Exec.call callee args 0 false (m.setPhase .opening) = .error s m') : StopsAt m s m'
  | settle {level : Level} {levels : List Level} {s : Stop} {m' : Machine}
    (hlevels : m.thread.levels = level :: levels) (hphase : level.phase = .opening)
    (hstop : Exec.pop m = .error s m') : StopsAt m s m'
  | fetch {level : Level} {levels : List Level} {s : Stop} {m' : Machine}
    (hlevels : m.thread.levels = level :: levels) (hphase : level.phase = .running)
    (hstop : Exec.fetch m = .error s m') : StopsAt m s m'
  | execute {level : Level} {levels : List Level} {i : Fetched} {s : Stop} {m₁ m' : Machine}
    (hlevels : m.thread.levels = level :: levels) (hphase : level.phase = .running)
    (hfetch : Exec.fetch m = .ok i m₁) (hstop : Exec.execute i m₁ = .error s m') : StopsAt m s m'

/-- The next move of a machine stops because frames that it asks for do not fit: a call that it makes,
or an instruction that it executes, asks for them. -/
inductive Overflows (limit : Nat) (m : Machine) : Machine → Prop
  | call {level : Level} {levels : List Level} {callee : Value} {args : List Value} {m' : Machine}
    (hlevels : m.thread.levels = level :: levels) (hphase : level.phase = .made callee args)
    (hrefused : Exec.CallRefused limit callee args false (m.setPhase .opening) m') :
    Overflows limit m m'
  | instruction {level : Level} {levels : List Level} {i : Fetched} {m₁ m' : Machine}
    (hlevels : m.thread.levels = level :: levels) (hphase : level.phase = .running)
    (hfetch : Exec.fetch m = .ok i m₁) (hrefused : Exec.InstructionRefused limit i m₁ m') :
    Overflows limit m m'

end Machine

end Resumable
