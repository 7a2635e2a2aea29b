import Resumable.Proofs.Machine.Depth

/-!
Where the frames of a thread start on its stack. A frame that is entered by a call, by a tail call or
by the installation of a handler starts below the limit on values. The frames of a suspended
computation start wherever the thread that resumes it has come to: no limit on values is looked at.
-/

namespace Resumable

/-- Every frame of a later thread starts where the frame in its place did before, or below the limit on
values. -/
def Thread.Follows (t t' : Thread) : Prop :=
  t'.limits = t.limits ∧ ∀ (i : Nat) (f' : Frame Value), t'.frames[i]? = some f' →
    f'.base < t.limits.maxStack ∨ ∃ f, t.frames[i]? = some f ∧ f.base = f'.base

/-- Every thread of a later machine follows one of the threads before. -/
def Machine.Follows (m m' : Machine) : Prop :=
  ∀ t' ∈ m'.threads, ∃ t ∈ m.threads, t.Follows t'

/-- All frames start below the limit on values. -/
def Thread.Low (t : Thread) : Prop :=
  ∀ (i : Nat) (f : Frame Value), t.frames[i]? = some f → f.base < t.limits.maxStack

/-- A machine of which all frames start below the limit on values. -/
def Machine.Low (m : Machine) : Prop :=
  ∀ t ∈ m.threads, t.Low

namespace Thread

variable {t t' t'' : Thread}

theorem Follows.refl (t : Thread) : t.Follows t :=
  ⟨rfl, fun _ f' hget => Or.inr ⟨f', hget, rfl⟩⟩

theorem Follows.trans (h : t.Follows t') (h' : t'.Follows t'') : t.Follows t'' := by
  refine ⟨h'.1.trans h.1, fun i f'' hget => ?_⟩
  obtain hlow | ⟨f', hget', hbase'⟩ := h'.2 i f'' hget
  · rw [h.1] at hlow
    exact Or.inl hlow
  · obtain hlow | ⟨f, hget, hbase⟩ := h.2 i f' hget'
    · rw [hbase'] at hlow
      exact Or.inl hlow
    · exact Or.inr ⟨f, hget, hbase.trans hbase'⟩

/-- No frame is added, and those that stay are where they were. -/
theorem Follows.of_get (hlimits : t'.limits = t.limits)
    (hframes : ∀ (i : Nat) (f' : Frame Value), t'.frames[i]? = some f' → t.frames[i]? = some f') :
    t.Follows t' :=
  ⟨hlimits, fun i f' hget => Or.inr ⟨f', hframes i f' hget, rfl⟩⟩

theorem Follows.low (h : t.Follows t') (ht : t.Low) : t'.Low := by
  intro i f' hget
  rw [h.1]
  obtain hlow | ⟨f, hget', hbase⟩ := h.2 i f' hget
  · exact hlow
  · exact hbase ▸ ht i f hget'

end Thread

theorem getElem?_of_shrink {α : Type} {as : Array α} {n i : Nat} {a : α}
    (hget : (as.shrink n)[i]? = some a) : as[i]? = some a := by
  rw [Array.shrink_eq_take, Array.take_eq_extract, Array.getElem?_extract] at hget
  split at hget
  · simpa using hget
  · cases hget

theorem getElem?_of_pop {α : Type} {as : Array α} {i : Nat} {a : α}
    (hget : as.pop[i]? = some a) : as[i]? = some a := by
  rw [Array.getElem?_pop] at hget
  split at hget
  · exact hget
  · cases hget

namespace Machine

variable {m m' m'' : Machine}

theorem Follows.refl (m : Machine) : m.Follows m :=
  fun t ht => ⟨t, ht, .refl t⟩

theorem Follows.trans (h : m.Follows m') (h' : m'.Follows m'') : m.Follows m'' := by
  intro t'' ht''
  obtain ⟨t', ht', hfollows'⟩ := h' t'' ht''
  obtain ⟨t, ht, hfollows⟩ := h t' ht'
  exact ⟨t, ht, hfollows.trans hfollows'⟩

theorem Follows.low (h : m.Follows m') (hm : m.Low) : m'.Low := by
  intro t' ht'
  obtain ⟨t, ht, hfollows⟩ := h t' ht'
  exact hfollows.low (hm t ht)

/-- A change of the running thread alone. -/
theorem follows_withThread (m : Machine) {t : Thread} (h : m.thread.Follows t) (world : World) :
    m.Follows { m with world, thread := t } := by
  intro t' ht'
  obtain rfl | ht' := List.mem_cons.1 ht'
  · exact ⟨_, .head _, h⟩
  · exact ⟨t', .tail _ ht', .refl t'⟩

end Machine

namespace Exec

variable {α β : Type}

/-- The state that an action leaves, whether it succeeds or stops. -/
def left : EStateM.Result Stop Machine α → Machine
  | .ok _ m | .error _ m => m

/-- An action after which every frame starts where it did or below the limit on values. -/
def Follows (x : Exec α) : Prop :=
  ∀ m : Machine, m.Follows (left (x m))

/-- One action after another. -/
theorem follows_bind {m : Machine} {x : Exec α} {f : α → Exec β} (hx : m.Follows (left (x m)))
    (hf : ∀ a m', x m = .ok a m' → m'.Follows (left (f a m'))) :
    m.Follows (left ((x >>= f) m)) := by
  cases hrun : x m with
  | ok a m' =>
    rw [hrun] at hx
    rw [bind_of_ok hrun]
    exact hx.trans (hf a m' hrun)
  | error s m' =>
    rw [hrun] at hx
    rw [bind_of_error hrun]
    exact hx

namespace Follows

theorem bind {x : Exec α} {f : α → Exec β} (hx : Follows x) (hf : ∀ a, Follows (f a)) :
    Follows (x >>= f) :=
  fun m => follows_bind (hx m) fun a m' _ => hf a m'

theorem ret (a : α) : Follows (pure a : Exec α) :=
  fun m => .refl m

theorem fail (e : RuntimeError) : Follows (Exec.fail e : Exec α) :=
  fun m => .refl m

theorem malformed (detail : String) : Follows (Exec.malformed detail : Exec α) :=
  .fail _

theorem get {f : Machine → Exec β} (hf : ∀ s, Follows (f s)) : Follows (get >>= f) :=
  fun m => hf m m

theorem either {c : Prop} [Decidable c] {x y : Exec α} (hx : Follows x) (hy : Follows y) :
    Follows (if c then x else y) := by
  split
  · exact hx
  · exact hy

theorem modifyThread {f : Thread → Thread} (hf : ∀ t : Thread, t.Follows (f t)) :
    Follows (Exec.modifyThread f) :=
  fun m => m.follows_withThread (hf m.thread) m.world

/-- A change that leaves the frames alone. -/
theorem modifyRest {f : Thread → Thread} (hlimits : ∀ t, (f t).limits = t.limits)
    (hframes : ∀ t, (f t).frames = t.frames) : Follows (Exec.modifyThread f) :=
  .modifyThread fun t => .of_get (hlimits t) fun _ _ hget => hframes t ▸ hget

theorem modifyFrame {f : Frame Value → Frame Value} (hf : ∀ a, (f a).base = a.base) :
    Follows (Exec.modifyFrame f) := by
  refine .modifyThread fun t => ⟨rfl, fun i f' hget => Or.inr ?_⟩
  simp only [Array.getElem?_modify] at hget
  split at hget
  · obtain ⟨a, hold, rfl⟩ := Option.map_eq_some_iff.1 hget
    exact ⟨a, hold, (hf a).symm⟩
  · exact ⟨f', hget, rfl⟩

theorem push (v : Value) : Follows (Exec.push v) :=
  .modifyRest (fun _ => rfl) fun _ => rfl

theorem pop : Follows Exec.pop := by
  refine .get fun s => ?_
  split
  · exact .bind (.modifyRest (fun _ => rfl) fun _ => rfl) fun _ => .ret _
  · exact .malformed _

theorem popMany (n : Nat) : Follows (Exec.popMany n) := by
  refine .get fun s => .either (.malformed _) (.get fun s' => ?_)
  exact .bind (.modifyRest (fun _ => rfl) fun _ => rfl) fun _ => .ret _

theorem topFrame : Follows Exec.topFrame := by
  refine .get fun s => ?_
  split
  · exact .ret _
  · exact .malformed _

theorem baseDepth : Follows Exec.baseDepth := by
  refine .get fun s => ?_
  split
  · exact .ret _
  · exact .ret _

theorem draw : Follows Exec.draw :=
  fun m => m.follows_withThread (.refl m.thread) _

theorem drawLabel : Follows Exec.drawLabel := by
  intro m
  have hfollows : m.thread.Follows { m.thread with lastLabel := m.thread.lastLabel + 1 } :=
    .of_get rfl fun _ _ hget => hget
  exact m.follows_withThread hfollows m.world

theorem act (a : Act α) : Follows (Exec.act a) := by
  intro m
  rw [act_run]
  split
  · exact m.follows_withThread (.refl m.thread) _
  · exact m.follows_withThread (.refl m.thread) _

theorem beginCall (callee : Value) (args : List Value) (line : Nat) (purpose : Purpose) :
    Follows (Exec.beginCall callee args line purpose) :=
  .modifyRest (fun _ => rfl) fun _ => rfl

/-- A task starts on a thread without frames. -/
theorem beginTask (callee : Value) : Follows (Exec.beginTask callee) := by
  intro m t' ht'
  obtain rfl | ht' := List.mem_cons.1 ht'
  · refine ⟨m.thread, .head _, .of_get rfl fun i f' hget => ?_⟩
    cases hget
  · exact ⟨t', ht', .refl t'⟩

theorem fetch : Follows Exec.fetch := by
  refine .bind .topFrame fun frame => ?_
  dsimp only
  split
  · exact .malformed _
  · split
    · exact .malformed _
    · exact .either (.malformed _) (.bind (.modifyFrame fun _ => rfl) fun _ => .ret _)

theorem constant (index : Nat) : Follows (Exec.constant index) := by
  refine .get fun s => ?_
  dsimp only
  split
  · exact .ret _
  · exact .malformed _

theorem symbolConstant (index : Nat) : Follows (Exec.symbolConstant index) := by
  refine .bind (.constant index) fun v => ?_
  split
  · exact .ret _
  · exact .malformed _

theorem uninstall : Follows Exec.uninstall := by
  have hkeeps : ∀ t t' : Thread, t'.limits = t.limits → t'.frames = t.frames → t.Follows t' :=
    fun t t' hlimits hframes => .of_get hlimits fun i f' hget => hframes ▸ hget
  refine .modifyThread fun t => ?_
  split
  · split
    · exact hkeeps _ _ rfl rfl
    · exact .refl t
  · exact .refl t

theorem jumpTo (offset : Nat) : Follows (Exec.jumpTo offset) :=
  .modifyFrame fun _ => rfl

/-- The frame on top goes. -/
theorem dropTop (frame : Frame Value) :
    Follows (Exec.modifyThread fun t =>
      { t with frames := t.frames.pop, stack := t.stack.shrink frame.base }) :=
  .modifyThread fun _ => .of_get rfl fun _ _ hget => getElem?_of_pop hget

theorem returnValue : Follows Exec.returnValue := by
  refine .bind .pop fun v => .get fun s => ?_
  split
  · exact .malformed _
  next frame _ =>
    refine .bind (.dropTop frame) fun _ => ?_
    have hdeliver : Follows (do
        let base ← Exec.baseDepth
        if (← MonadState.get).thread.frames.size ≤ base then return some v
        else
          Exec.push v
          return none : Exec (Option Value)) :=
      .bind .baseDepth fun base => .get fun s => .either (.ret _) (.bind (.push v) fun _ => .ret _)
    split
    · exact .bind .uninstall fun _ => hdeliver
    · exact hdeliver

theorem loadLocal (slot : Nat) : Follows (Exec.loadLocal slot) := by
  refine .bind .topFrame fun frame => ?_
  split
  · exact .push _
  · exact .malformed _

theorem storeLocal (slot : Nat) : Follows (Exec.storeLocal slot) :=
  .bind .pop fun _ => .modifyFrame fun _ => rfl

theorem loadCaptured (index : Nat) : Follows (Exec.loadCaptured index) := by
  refine .bind (.symbolConstant index) fun name => .bind .topFrame fun frame => ?_
  split
  · exact .push _
  · exact .fail _

theorem storeCaptured (index : Nat) : Follows (Exec.storeCaptured index) := by
  refine .bind (.symbolConstant index) fun name => .bind .pop fun v =>
    .bind .topFrame fun frame => ?_
  split
  · exact .modifyFrame fun _ => rfl
  · exact .fail _

theorem loadGlobal (index : Nat) : Follows (Exec.loadGlobal index) := by
  refine .bind (.symbolConstant index) fun name => .get fun s => ?_
  split
  · exact .push _
  · exact .fail _

theorem storeGlobal (index : Nat) : Follows (Exec.storeGlobal index) := by
  refine .bind (.symbolConstant index) fun name => .bind .pop fun v => ?_
  exact fun m => m.follows_withThread (.refl m.thread) _

theorem capturedBindings (frame : Frame Value) (env : List (Symbol × Value))
    (captures : List Capture) : Follows (Exec.capturedBindings frame env captures) := by
  induction captures generalizing env with
  | nil => exact .ret _
  | cons c captures ih =>
    rw [Exec.capturedBindings]
    split
    · exact ih _
    · exact .malformed _

theorem makeClosure (code : Code Value) : Follows (Exec.makeClosure code) := by
  refine .get fun s => ?_
  split
  · exact .malformed _
  · exact .bind (.capturedBindings _ _ _) fun env => .bind .draw fun id => .ret _

theorem lambda (index : Nat) : Follows (Exec.lambda index) := by
  refine .bind (.constant index) fun v => ?_
  split
  · exact .bind (.makeClosure _) fun f => .push _
  · exact .malformed _

theorem fieldsOf (fields : List (Symbol × Value)) (vs : List Value) :
    Follows (Exec.fieldsOf fields vs) := by
  fun_induction Exec.fieldsOf fields vs with
  | case1 fields name v rest ih => exact ih
  | case2 => exact .malformed _
  | case3 => exact .ret _

theorem buildRecord (count : Nat) : Follows (Exec.buildRecord count) :=
  .bind (.popMany _) fun vs => .bind (.fieldsOf _ vs) fun _ => .push _

theorem getField (index : Nat) : Follows (Exec.getField index) := by
  refine .bind (.symbolConstant index) fun name => .bind .pop fun v => ?_
  split
  · split
    · exact .push _
    · exact .fail _
  · exact .fail _

theorem clausesOf (done : List (Effect × Value)) (vs : List Value) :
    Follows (Exec.clausesOf done vs) := by
  fun_induction Exec.clausesOf done vs with
  | case1 done e clause rest ih => exact ih
  | case2 => exact .fail _
  | case3 => exact .ret _

theorem makeHandler (count : Nat) : Follows (Exec.makeHandler count) :=
  .bind (.popMany _) fun vs => .bind (.clausesOf _ vs) fun _ => .bind .draw fun _ => .push _

theorem capture (index : Nat) (h : Installed Value) : Follows (Exec.capture index h) := by
  refine .bind (.get fun _ => .ret _) fun t => ?_
  refine .either (.bind (.modifyThread fun t => ?_) fun _ => .ret _) fun m => .refl m
  exact .of_get rfl fun i f' hget => getElem?_of_shrink hget

theorem grant (line : Nat) (reply : Reply) : Follows (Exec.grant line reply) := by
  cases reply with
  | value v => exact .push v
  | call mode callee args =>
    cases mode with
    | pass => exact .beginCall _ _ _ _
    | «catch» => exact .get fun s => .beginCall _ _ _ _
  | spawn callee => exact .beginTask callee
  | depth => exact .get fun s => .push _

theorem apply (callee : Value) (args : List Value) : Follows (Exec.apply callee args) := by
  have harity : ∀ callee name arity args (full : Exec Transfer), Follows full →
      Follows (Exec.withArity callee name arity args full) := fun callee name arity args full hfull =>
    .either (.bind .draw fun _ => .ret _) (.either (.fail _) hfull)
  unfold Exec.apply
  generalize callee.unapply args = applied
  obtain ⟨f, args⟩ := applied
  cases f with
  | closure => exact harity _ _ _ _ _ (.ret _)
  | native id name arity function =>
    refine harity _ _ _ _ _ (.bind (.act _) fun reply => ?_)
    cases reply <;> exact .ret _
  | effect e =>
    dsimp only
    split
    · exact .ret _
    · exact harity _ _ _ _ _ (.ret _)
  | continuation id k =>
    dsimp only
    split
    · exact .ret _
    · exact harity _ _ _ _ _ (.ret _)
  | _ => exact .fail _

/-- A frame is put on top only where it starts below the limit on values. -/
theorem pushFrame (closure : Value) (code : Code Value) (env : List (Symbol × Value))
    (args : List Value) (boundary : Bool) :
    Follows (Exec.pushFrame closure code env args boundary) := by
  intro m
  obtain ⟨_, detail, hrun⟩ | ⟨hroom, hrun⟩ := Exec.pushFrame_run m closure code env args boundary
  · rw [hrun]
    exact .refl m
  · rw [hrun]
    refine m.follows_withThread (t := { m.thread with
      frames := m.thread.frames.push (.enter closure code env args m.thread.stack.size boundary) })
      ⟨rfl, fun i f' hget => ?_⟩ m.world
    rw [Array.getElem?_push] at hget
    split at hget
    · cases hget
      have hstack := not_or.1 hroom
      exact Or.inl (Nat.lt_of_not_le hstack.2)
    · exact Or.inr ⟨f', hget, rfl⟩

/-- A tail call has its frame where the one before started. -/
theorem replaceFrame (closure : Value) (code : Code Value) (env : List (Symbol × Value))
    (args : List Value) : Follows (Exec.replaceFrame closure code env args) := by
  intro m
  rw [Exec.replaceFrame, bind_get_run]
  cases hback : m.thread.frames.back? with
  | none => exact .refl m
  | some frame =>
    refine m.follows_withThread (t := { m.thread with
      frames := m.thread.frames.pop.push (.enter closure code env args frame.base frame.boundary)
      stack := m.thread.stack.shrink frame.base }) ⟨rfl, fun i f' hget => Or.inr ?_⟩ m.world
    rw [Array.back?_eq_getElem?] at hback
    rw [Array.getElem?_push, Array.size_pop] at hget
    split at hget
    next hlast =>
      cases hget
      exact ⟨frame, hlast ▸ hback, rfl⟩
    next => exact ⟨f', getElem?_of_pop hget, rfl⟩

theorem install (clauses : List (Effect × Value)) (body : Value) :
    Follows (Exec.install clauses body) := by
  unfold Exec.install
  split
  · refine .either (.bind .drawLabel fun label => ?_) (.fail _)
    exact .bind (.modifyRest (fun _ => rfl) fun _ => rfl) fun _ => .pushFrame _ _ _ _ _
  · exact .fail _

theorem handle : Follows Exec.handle := by
  refine .bind .pop fun body => .bind .pop fun v => ?_
  split
  · exact .install _ _
  · exact .malformed _

end Follows

/-- What a call comes to puts frames on top of the limit only if it resumes a continuation. -/
theorem transferWith_follows {raise : Effect → Value → Exec Unit} {m : Machine} {t : Transfer}
    (hraise : ∀ effect payload, t = .raise effect payload → m.Follows (left (raise effect payload m)))
    (hresume : ∀ k v, t ≠ .resume k v) (line : Nat) (tail : Bool) :
    m.Follows (left (transferWith raise line tail t m)) := by
  cases t with
  | returned v => exact Follows.push v m
  | requested reply => exact Follows.grant line reply m
  | enter closure code env args =>
    cases tail with
    | true => exact Follows.replaceFrame closure code env args m
    | false => exact Follows.pushFrame closure code env args false m
  | raise effect payload => exact hraise effect payload rfl
  | resume k v => exact absurd rfl (hresume k v)

/-- A call that resumes a continuation, at once or by the clause that answers an effect. -/
def CallResumes (callee : Value) (args : List Value) (tail : Bool) (m : Machine) : Prop :=
  ∃ k v tail' s, Comes callee args tail m (.resume k v) tail' s

/-- The clause that answers an effect resumes a continuation. -/
def ClauseResumes (effect : Effect) (payload : Value) (m : Machine) : Prop :=
  ∃ index h clause k s₁, findHandler m.thread.handlers (baseOf m.thread.levels) effect
      m.thread.handlers.size = some (index, h, clause) ∧ capture index h m = .ok k s₁ ∧
    CallResumes clause (clauseArgs clause payload (.continuation s₁.world.draw.1 k)) false s₁.drawn

theorem raiseWithin_follows {m : Machine} {effect : Effect} {payload : Value}
    (hnot : ¬ ClauseResumes effect payload m) (line bound : Nat) :
    m.Follows (left (raiseWithin line bound effect payload m)) := by
  -- the bound falls with every clause that raises an effect itself
  induction bound generalizing m effect payload with
  | zero => exact .refl m
  | succ bound ih =>
    rw [raiseWithin_succ]
    split
    next => exact .refl m
    next index h clause hfind =>
      refine follows_bind (Follows.capture index h m) fun k s₁ hcapture => ?_
      refine follows_bind (Follows.draw s₁) fun id s₂ hdraw => ?_
      cases hdraw
      refine follows_bind (Follows.apply _ _ _) fun t s happly => ?_
      refine transferWith_follows ?_ ?_ line false
      · rintro effect' payload' rfl
        refine ih ?_
        rintro ⟨index', h', clause', k', s', hfind', hcapture', k'', v, tail, s'', hcomes⟩
        exact hnot ⟨index, h, clause, k, s₁, hfind, hcapture, k'', v, tail, s'',
          .clause happly hfind' hcapture' hcomes⟩
      · rintro k' v rfl
        exact hnot ⟨index, h, clause, k, s₁, hfind, hcapture, k', v, false, s, .here happly⟩

theorem call_follows {m : Machine} {callee : Value} {args : List Value} {tail : Bool}
    (hnot : ¬ CallResumes callee args tail m) (line : Nat) :
    m.Follows (left (call callee args line tail m)) := by
  refine follows_bind (Follows.apply callee args m) fun t s happly => ?_
  refine transferWith_follows ?_ ?_ line tail
  · rintro effect payload rfl
    refine raiseWithin_follows ?_ line _
    rintro ⟨index, h, clause, k, s₁, hfind, hcapture, k', v, tail', s', hcomes⟩
    exact hnot ⟨k', v, tail', s', .clause happly hfind hcapture hcomes⟩
  · rintro k v rfl
    exact hnot ⟨k, v, tail, s, .here happly⟩

/-- An instruction that resumes a continuation. -/
def InstructionResumes (i : Fetched) (m : Machine) : Prop :=
  ∃ callee args m₁ m₂ tail, i.op = (if tail then .tailCall else .call) ∧ pop m = .ok callee m₁ ∧
    popMany i.operand m₁ = .ok args m₂ ∧ CallResumes callee args tail m₂

theorem callTop_follows {m : Machine} {i : Fetched} (hnot : ¬ InstructionResumes i m) (tail : Bool)
    (hop : i.op = if tail then .tailCall else .call) :
    m.Follows (left ((do callTop i.operand i.line tail; return none : Exec (Option Value)) m)) := by
  refine follows_bind ?_ fun _ m' _ => .refl m'
  refine follows_bind (Follows.pop m) fun callee m₁ hcallee => ?_
  refine follows_bind (Follows.popMany i.operand m₁) fun args m₂ hargs => ?_
  exact call_follows (fun hresumes => hnot ⟨callee, args, m₁, m₂, tail, hop, hcallee, hargs,
    hresumes⟩) i.line

theorem execute_follows {m : Machine} {i : Fetched} (hnot : ¬ InstructionResumes i m) :
    m.Follows (left (execute i m)) := by
  obtain ⟨op, operand, start, line⟩ := i
  cases op with
  | ret => exact Follows.returnValue m
  | call => exact callTop_follows hnot false rfl
  | tailCall => exact callTop_follows hnot true rfl
  | jump => exact Follows.bind (.jumpTo _) (fun _ => .ret _) m
  | jumpIfFalse =>
    refine Follows.bind .pop (fun test => ?_) m
    split
    · exact .ret _
    · exact .bind (.jumpTo _) fun _ => .ret _
  | constant | constantWide =>
    exact Follows.bind (.constant _) (fun v => .bind (.push v) fun _ => .ret _) m
  | pushNone => exact Follows.bind (.push _) (fun _ => .ret _) m
  | pop => exact Follows.bind .pop (fun _ => .ret _) m
  | loadLocal | loadLocalWide => exact Follows.bind (.loadLocal _) (fun _ => .ret _) m
  | storeLocal | storeLocalWide => exact Follows.bind (.storeLocal _) (fun _ => .ret _) m
  | loadCaptured | loadCapturedWide => exact Follows.bind (.loadCaptured _) (fun _ => .ret _) m
  | storeCaptured | storeCapturedWide => exact Follows.bind (.storeCaptured _) (fun _ => .ret _) m
  | loadGlobal | loadGlobalWide => exact Follows.bind (.loadGlobal _) (fun _ => .ret _) m
  | storeGlobal | storeGlobalWide => exact Follows.bind (.storeGlobal _) (fun _ => .ret _) m
  | lambda | lambdaWide => exact Follows.bind (.lambda _) (fun _ => .ret _) m
  | buildList | buildTuple =>
    exact Follows.bind (.popMany _) (fun vs => .bind (.push _) fun _ => .ret _) m
  | buildRecord => exact Follows.bind (.buildRecord _) (fun _ => .ret _) m
  | getField | getFieldWide => exact Follows.bind (.getField _) (fun _ => .ret _) m
  | makeHandler => exact Follows.bind (.makeHandler _) (fun _ => .ret _) m
  | handle => exact Follows.bind .handle (fun _ => .ret _) m

end Exec

namespace Machine

variable {m m' : Machine}

/-- The next move of a machine resumes a continuation. -/
inductive Resumes (m : Machine) : Prop
  | call {level : Level} {levels : List Level} {callee : Value} {args : List Value}
    (hlevels : m.thread.levels = level :: levels) (hphase : level.phase = .made callee args)
    (hresumes : Exec.CallResumes callee args false (m.setPhase .opening))
  | instruction {level : Level} {levels : List Level} {i : Fetched} {m₁ : Machine}
    (hlevels : m.thread.levels = level :: levels) (hphase : level.phase = .running)
    (hfetch : Exec.fetch m = .ok i m₁) (hresumes : Exec.InstructionResumes i m₁)

theorem finish_follows (m : Machine) (result : Except RuntimeError Value) :
    m.Follows (m.finish result).machine := by
  unfold finish
  split
  · split <;> exact .refl m
  next id parent waiting hwaiting =>
    intro t ht
    have hmem : ∀ t ∈ parent :: waiting.map Prod.snd, t ∈ m.threads := by
      intro t ht
      refine .tail _ ?_
      rw [hwaiting]
      exact ht
    obtain rfl | ht := List.mem_cons.1 ht
    · exact ⟨parent, hmem parent (.head _), .of_get rfl fun _ _ hget => hget⟩
    · exact ⟨t, hmem t (.tail _ ht), .refl t⟩

/-- A call that ends leaves the frames alone. -/
theorem follows_endCall (m : Machine) {t : Thread} (hlimits : t.limits = m.thread.limits)
    (hframes : t.frames = m.thread.frames) : m.Follows { m with thread := t } :=
  m.follows_withThread (.of_get hlimits fun _ _ hget => hframes ▸ hget) m.world

theorem answer_follows (m : Machine) (v : Value) : m.Follows (m.answer v).machine := by
  unfold answer
  split
  · exact finish_follows m _
  next level levels _ =>
    have hended : m.Follows { m with thread := { m.thread with levels } } :=
      follows_endCall m rfl rfl
    dsimp only
    split
    · exact hended.trans (finish_follows _ _)
    · exact follows_endCall m rfl rfl
    · exact follows_endCall m rfl rfl

theorem unwind_follows (m : Machine) (e : RuntimeError) (levels : List Level) :
    m.Follows (m.unwind e levels).machine := by
  -- each call that ends takes frames away
  induction levels generalizing m e with
  | nil =>
    exact (follows_endCall m (t := { m.thread with levels := [] }) rfl rfl).trans (finish_follows _ _)
  | cons level levels ih =>
    have hleft : m.thread.Follows { m.thread.leave level with levels } := by
      refine .of_get rfl fun i f' hget => ?_
      exact getElem?_of_shrink hget
    unfold unwind
    dsimp only
    split
    · exact (m.follows_withThread hleft m.world).trans (finish_follows _ _)
    · exact (m.follows_withThread hleft m.world).trans (ih _ _)
    · exact (m.follows_withThread hleft m.world).trans (follows_endCall _ rfl rfl)

theorem crash_follows (m : Machine) : m.Follows m.crash.machine := by
  unfold crash
  split
  · exact .refl m
  · exact finish_follows m _

theorem stop_follows (m : Machine) (line : Nat) (s : Stop) : m.Follows (m.stop line s).machine := by
  cases s with
  | error e => exact unwind_follows m _ _
  | corrupt => exact crash_follows m

theorem setPhase_follows (m : Machine) (phase : Phase) : m.Follows (m.setPhase phase) := by
  refine m.follows_withThread ?_ m.world
  unfold Thread.setPhase
  split
  · exact .of_get rfl fun _ _ hget => hget
  · exact .refl _

/-- After a move that resumes no continuation every frame starts where it did, or below the limit on
values. -/
theorem advance_follows (hnot : ¬ m.Resumes) : m.Follows m.advance.machine := by
  unfold advance
  split
  · exact finish_follows m _
  next level levels hlevels =>
    split
    next callee args hphase =>
      have hcall := Exec.call_follows (m := m.setPhase .opening)
        (fun hresumes => hnot (.call hlevels hphase hresumes)) 0
      have hcalled := (setPhase_follows m .opening).trans hcall
      unfold openCall
      unfold setPhase at hcalled
      split
      next hrun => rw [hrun] at hcalled; exact hcalled
      next hrun => rw [hrun] at hcalled; exact hcalled.trans (stop_follows _ _ _)
    next =>
      unfold settleCall
      split
      · exact setPhase_follows m .running
      · have hpop := Exec.Follows.pop m
        split
        next hrun => rw [hrun] at hpop; exact hpop.trans (answer_follows _ _)
        next hrun => rw [hrun] at hpop; exact hpop.trans (stop_follows _ _ _)
    next hphase =>
      have hfetch := Exec.Follows.fetch m
      unfold runInstruction
      split
      next hrun => rw [hrun] at hfetch; exact hfetch.trans (stop_follows _ _ _)
      next i m₁ hrun =>
        rw [hrun] at hfetch
        have hexecute := Exec.execute_follows fun hresumes =>
          hnot (.instruction hlevels hphase hrun hresumes)
        have hexecuted := hfetch.trans hexecute
        split
        next hrun => rw [hrun] at hexecuted; exact hexecuted
        next hrun => rw [hrun] at hexecuted; exact hexecuted.trans (answer_follows _ _)
        next hrun => rw [hrun] at hexecuted; exact hexecuted.trans (stop_follows _ _ _)

/-- A run in which no continuation is resumed keeps all frames below the limit on values. -/
theorem Reaches.low_or_resumed (hreaches : m.Reaches m') (hm : m.Low) :
    m'.Low ∨ ∃ m₁, m.Reaches m₁ ∧ m₁.Resumes ∧ m₁.Reaches m' := by
  induction hreaches with
  | refl => exact Or.inl hm
  | @next m' m'' hbefore hmove ih =>
    obtain hlow | ⟨m₁, hto, hresumes, hfrom⟩ := ih
    · by_cases hresumes : m'.Resumes
      · exact Or.inr ⟨m', hbefore, hresumes, .next .refl hmove⟩
      · have hfollows := advance_follows hresumes
        rw [hmove] at hfollows
        exact Or.inl (hfollows.low hlow)
    · exact Or.inr ⟨m₁, hto, hresumes, hfrom.next hmove⟩

end Machine

end Resumable
