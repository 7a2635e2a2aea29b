import Resumable.Proofs.Library.Sound

/-!
Calls, effects and resumptions keep a machine sound.
-/

namespace Resumable

/-- An element of two lists put together that is not in the first. -/
theorem split_in_second {α : Type} {xs ys xs' ys' : List α} {y : α}
    (hsplit : xs ++ ys = xs' ++ y :: ys') (hlength : xs.length ≤ xs'.length) :
    ∃ pre, xs' = xs ++ pre ∧ ys = pre ++ y :: ys' := by
  obtain ⟨pre, rfl, hrest⟩ | ⟨pre, rfl, hrest⟩ := List.append_eq_append_iff.1 hsplit
  · exact ⟨pre, rfl, hrest⟩
  · obtain rfl : pre = [] := by
      rw [List.length_append] at hlength
      exact List.length_eq_zero_iff.1 (by omega)
    exact ⟨[], by simp, by simpa using hrest.symm⟩

/-- An element of two lists put together that is in the first. -/
theorem split_in_first {α : Type} {xs ys xs' ys' : List α} {y : α}
    (hsplit : xs ++ ys = xs' ++ y :: ys') (hlength : xs'.length < xs.length) :
    ∃ mid, xs = xs' ++ y :: mid ∧ ys' = mid ++ ys := by
  obtain ⟨mid, rfl, _⟩ | ⟨mid, rfl, hrest⟩ := List.append_eq_append_iff.1 hsplit
  · rw [List.length_append] at hlength
    omega
  · cases mid with
    | nil => simp at hlength
    | cons x mid =>
      cases hrest
      exact ⟨mid, rfl, rfl⟩

/-- What a call comes to before the machine acts on it, with sound values. -/
inductive Transfer.Sound (κ : Kind) : Transfer → Prop
  | returned {v : Value} (hv : v.Sound κ) : Transfer.Sound κ (.returned v)
  | requested {reply : Reply} (hreply : reply.Every κ.discipline (κ = .clause)) :
    Transfer.Sound κ (.requested reply)
  | enter {id : Nat} {code : Code Value} {env : List (Symbol × Value)} {args : List Value}
    (hclosure : (Value.closure id code env).Sound κ) (hargs : ∀ v ∈ args, v.Sound κ) :
    Transfer.Sound κ (.enter (.closure id code env) code env args)
  | raise {effect : Effect} {payload : Value} (hpayload : payload.Sound κ) :
    Transfer.Sound κ (.raise effect payload)
  | resume {id : Nat} {k : Continuation Value} {v : Value}
    (hk : (Value.continuation id k).Sound κ) (hv : v.Sound κ) : Transfer.Sound κ (.resume k v)

namespace Machine

/-- The innermost call of a machine, and the activations below it. -/
structure Ready (κ : Kind) (m : Machine) (below : List Activation) (level : Level)
    (levels : List Level) : Prop where
  world : m.world.Sound κ
  waiting : ∀ w ∈ m.waiting, w.2.Waits κ
  calls : m.thread.levels = level :: levels
  suspended : Suspended κ below levels
  above : level.Above below
  purpose : level.purpose = .finish ↔ levels = []

/-- Where an action has led from given calls in progress and threads that wait: the calls are the
same, or there is one more, or their thread waits for a task. The activations below the innermost of
them are still there. -/
inductive Onward (waiting : List (Int × Thread)) (levels : List Level) (below : List Activation)
    (m : Machine) : Prop
  | same (hwaiting : m.waiting = waiting) (hlevels : m.thread.levels = levels)
    (hextends : m.thread.Extends below)
  | called {inner : Level} (hwaiting : m.waiting = waiting)
    (hlevels : m.thread.levels = inner :: levels) (hextends : m.thread.Extends below)
  | spawned {id : Int} {t : Thread} (hwaiting : m.waiting = (id, t) :: waiting)
    (hlevels : t.levels = levels) (hextends : t.Extends below)

theorem onward_showing (m : Machine) (below above : List Activation) (extra : List Value) :
    Onward m.waiting m.thread.levels below (m.showing (below ++ above) extra) :=
  .same rfl rfl (m.thread.extends_showing below above extra)

/-- What an action comes to: a sound machine, or a failure that is ordinary or that of a task and
leaves the activations below the innermost call alone. -/
def Safe (κ : Kind) (m : Machine) (below : List Activation) :
    EStateM.Result Stop Machine Unit → Prop
  | .ok _ m' => m'.Sound κ ∧ Onward m.waiting m.thread.levels below m'
  | .error (.error e) m' =>
    (e.Ordinary ∨ m.world.Keeps e) ∧ m'.world.Sound κ ∧ m.Retains m' below
  | .error .corrupt _ => False

variable {κ : Kind} {m m' : Machine} {below above : List Activation} {level : Level}
  {levels : List Level}

theorem Retains.trans_left {m'' : Machine} (hretains : m'.Retains m'' below)
    (hwaiting : m'.waiting = m.waiting) (hlevels : m'.thread.levels = m.thread.levels) :
    m.Retains m'' below :=
  ⟨hretains.waiting.trans hwaiting, hretains.levels.trans hlevels, hretains.extends⟩

/-- An action that is safe in a machine that differs in values only. -/
theorem Safe.trans_left {r : EStateM.Result Stop Machine Unit} (hsafe : m'.Safe κ below r)
    (hwaiting : m'.waiting = m.waiting) (hlevels : m'.thread.levels = m.thread.levels)
    (hkept : ∀ e, m'.world.Keeps e → m.world.Keeps e) : m.Safe κ below r := by
  cases r with
  | ok _ m'' =>
    obtain ⟨hsound, honward⟩ := hsafe
    rw [hwaiting, hlevels] at honward
    exact ⟨hsound, honward⟩
  | error stop m'' =>
    cases stop with
    | error e =>
      obtain ⟨he, hworld, hretains⟩ := hsafe
      exact ⟨he.imp_right (hkept e), hworld, hretains.trans_left hwaiting hlevels⟩
    | corrupt => exact hsafe

theorem Ready.congr (hready : m.Ready κ below level levels) (hworld : m'.world.Sound κ)
    (hwaiting : m'.waiting = m.waiting) (hlevels : m'.thread.levels = m.thread.levels) :
    m'.Ready κ below level levels :=
  ⟨hworld, hwaiting ▸ hready.waiting, hlevels.trans hready.calls, hready.suspended, hready.above,
    hready.purpose⟩

/-- A failure of an ordinary kind, with any activations above those of the calls below. -/
theorem Ready.safe_error (hready : m.Ready κ below level levels) {e : RuntimeError}
    (he : e.isOrdinary = true) (above : List Activation) (extra : List Value) :
    m.Safe κ below (.error (.error e) (m.showing (below ++ above) extra)) :=
  ⟨Or.inl (RuntimeError.ordinary_of_isOrdinary he), hready.world,
    m.retains_showing below above extra⟩

/-- The innermost call gets the value that it waits for. -/
theorem Ready.given (hready : m.Ready κ below level levels)
    (hsound : ∀ a ∈ above, a.Sound κ [.value]) (hground : Grounded κ above)
    (hwaits : level.Waits above) {v : Value} (hv : v.Sound κ) :
    (m.showing (below ++ above) [v]).Sound κ ∧
      Onward m.waiting m.thread.levels below (m.showing (below ++ above) [v]) := by
  obtain ⟨above', extra, hunderway, hsame⟩ := hwaits.given hsound hground hv m.thread below
  refine ⟨⟨hready.world, ?_, hready.waiting⟩, m.onward_showing below above [v]⟩
  rw [showing_thread, hsame]
  exact Thread.runs_showing below above' extra hready.calls hready.suspended hready.above
    hready.purpose hunderway

/-- The innermost call goes on in a new activation. -/
theorem Ready.entered (hready : m.Ready κ below level levels)
    (hsound : ∀ a ∈ above, a.Sound κ [.value])
    (hphase : level.phase = .opening ∨ level.phase = .running) {a : Activation} (ha : a.Sound κ [])
    (hground : Grounded κ (above ++ [a])) :
    (m.showing (below ++ (above ++ [a])) []).Sound κ ∧
      Onward m.waiting m.thread.levels below (m.showing (below ++ (above ++ [a])) []) :=
  ⟨⟨hready.world, Thread.runs_showing below (above ++ [a]) [] hready.calls hready.suspended
    hready.above hready.purpose (.entered hphase hsound ha hground), hready.waiting⟩,
    m.onward_showing below (above ++ [a]) []⟩

theorem phase_of_waits (hwaits : level.Waits above) :
    level.phase = .opening ∨ level.phase = .running :=
  hwaits.imp And.left And.left

/-- What a function has asked for is done. -/
theorem Ready.grant_safe (hready : m.Ready κ below level levels)
    (hsound : ∀ a ∈ above, a.Sound κ [.value]) (hground : Grounded κ above)
    (hwaits : level.Waits above) {reply : Reply}
    (hreply : reply.Every κ.discipline (κ = .clause)) (line : Nat) :
    m.Safe κ below (Exec.grant line reply (m.showing (below ++ above) [])) := by
  have hsuspended : Suspended κ (below ++ above) (level :: levels) :=
    .cons hready.suspended hready.above hready.purpose hsound hground hwaits
  have hcall : ∀ callee args purpose, κ = .clause → callee.Sound κ → (∀ v ∈ args, v.Sound κ) →
      purpose ≠ .finish →
      m.Safe κ below (Exec.beginCall callee args line purpose (m.showing (below ++ above) [])) := by
    intro callee args purpose hκ hcallee hargs hpurpose
    obtain ⟨inner, hinner⟩ : ∃ inner : Level, inner = Level.mk (below ++ above).length
        (heightOf (below ++ above)) (handlersFrom 0 0 (below ++ above)).length (.made callee args)
        line purpose := ⟨_, rfl⟩
    have hrun : Exec.beginCall callee args line purpose (m.showing (below ++ above) []) =
        .ok () ({ m with thread := { m.thread with levels := inner :: level :: levels } }.showing
          (below ++ above ++ []) []) := by
      simp [Exec.beginCall, showing, Thread.showing, hready.calls, hinner]
    rw [hrun]
    refine ⟨⟨hready.world, Thread.runs_showing (below ++ above) [] [] rfl hsuspended ?_ ?_ ?_,
      hready.waiting⟩, .called rfl (congrArg (inner :: ·) hready.calls.symm) ?_⟩
    · rw [hinner]
      exact ⟨rfl, rfl, rfl⟩
    · simp [hinner, hpurpose]
    · rw [hinner]
      exact .made hcallee hargs fun h => absurd hκ h
    · rw [List.append_assoc]
      exact m.thread.extends_showing below (above ++ []) []
  cases reply with
  | value v =>
    rw [Exec.grant, Exec.push_showing]
    exact hready.given hsound hground hwaits hreply
  | call mode callee args =>
    obtain ⟨hκ, hcallee, hargs⟩ := hreply
    cases mode with
    | pass => exact hcall callee args .pass hκ hcallee hargs (by simp)
    | «catch» => exact hcall callee args (.catch _) hκ hcallee hargs (by simp)
  | spawn callee =>
    refine ⟨⟨⟨hready.world.toEvery.congr rfl rfl rfl, hready.world.failures⟩, ?_, ?_⟩,
      .spawned rfl rfl (m.thread.extends_showing below above [])⟩
    · obtain ⟨first, hfirst⟩ : ∃ first : Level, first = Level.mk 0 0 0 (.made callee []) 0 .finish :=
        ⟨_, rfl⟩
      have hrun : Thread.Runs κ (Thread.showing { limits := m.thread.limits, levels := [first] }
          ([] ++ []) []) := by
        refine Thread.runs_showing [] [] [] rfl .nil ?_ ?_ ?_
        · rw [hfirst]
          exact ⟨rfl, rfl, rfl⟩
        · simp [hfirst]
        · rw [hfirst]
          exact .made hreply (by simp) fun _ => rfl
      rwa [hfirst] at hrun
    · intro w hw
      obtain _ | ⟨_, hw⟩ := hw
      · exact .intro hready.calls hsuspended rfl
      · exact hready.waiting w hw
  | depth =>
    rw [Exec.grant, bind_get_run, Exec.push_showing]
    exact hready.given hsound hground hwaits (Value.every_of_isFlat rfl)

/-- The last activation of the innermost call gets a value. -/
theorem Ready.continued (hready : m.Ready κ below level levels)
    (hsound : ∀ a ∈ above, a.Sound κ [.value]) (hground : Grounded κ above) (hne : above ≠ [])
    (hphase : level.phase = .opening ∨ level.phase = .running) {v : Value} (hv : v.Sound κ) :
    (m.showing (below ++ above) [v]).Sound κ ∧
      Onward m.waiting m.thread.levels below (m.showing (below ++ above) [v]) := by
  obtain ⟨pre, a, rfl⟩ := (List.eq_nil_or_concat' above).resolve_left hne
  have ha : a.Sound κ [.value] := hsound a (by simp)
  have hsame : m.showing (below ++ (pre ++ [a])) [v] =
      m.showing (below ++ (pre ++ [a.pushAll [v]])) [] := by
    rw [← List.append_assoc, ← List.append_assoc, showing_pushAll, List.append_nil]
  rw [hsame]
  exact hready.entered (fun b hb => hsound b (by simp [hb])) hphase (ha.push hv)
    (hground.replaceLast rfl)

/-- A suspended computation goes on. -/
theorem Ready.resume_safe (hready : m.Ready κ below level levels)
    (hsound : ∀ a ∈ above, a.Sound κ [.value]) (hground : Grounded κ above)
    (hwaits : level.Waits above) (hfirst : κ ≠ .clause → above ≠ []) {id : Nat}
    {k : Continuation Value} {v : Value} (hk : (Value.continuation id k).Sound κ) (hv : v.Sound κ) :
    m.Safe κ below (Exec.resume k v (m.showing (below ++ above) [])) := by
  obtain ⟨b, rest, clauses, label, rfl, hb, hacts⟩ := hk.acts
  obtain ⟨_, detail, herror⟩ | ⟨_, hok⟩ := Exec.resume_showing m (below ++ above) rest b clauses label hb v
  · rw [herror]
    exact hready.safe_error rfl above []
  · rw [hok, List.append_assoc]
    have hready' : m.relabeled.Ready κ below level levels := hready.congr hready.world rfl rfl
    refine hready'.continued ?_ ?_ (by simp) (phase_of_waits hwaits) hv
    · intro a ha
      obtain ha | ha := List.mem_append.1 ha
      · exact hsound a ha
      obtain rfl | ha := List.mem_cons.1 ha
      · exact (hacts b (.head _)).relabel _
      · exact hacts a (.tail _ ha)
    · intro hκ
      exact hground.append (hfirst hκ) _ hκ

/-- What a call of a function without frame of its own comes to, whatever it is needed for. -/
theorem Ready.transfer_safe (hready : m.Ready κ below level levels)
    (hsound : ∀ a ∈ above, a.Sound κ [.value]) (hground : Grounded κ above)
    (hwaits : level.Waits above) {t : Transfer} (ht : t.Sound κ)
    (hresume : κ ≠ .clause → above = [] → ∀ k v, t ≠ .resume k v) (line : Nat)
    {raise : Effect → Value → Exec Unit}
    (hraise : ∀ effect payload, payload.Sound κ →
      m.Safe κ below (raise effect payload (m.showing (below ++ above) []))) :
    m.Safe κ below (Exec.transferWith raise line false t (m.showing (below ++ above) [])) := by
  cases ht with
  | returned hv =>
    rw [Exec.transferWith, Exec.push_showing]
    exact hready.given hsound hground hwaits hv
  | requested hreply => exact hready.grant_safe hsound hground hwaits hreply line
  | @enter id code env args hclosure hargs =>
    simp only [Exec.transferWith, Bool.false_eq_true, if_false]
    obtain ⟨_, detail, herror⟩ | ⟨_, hok⟩ :=
      Exec.pushFrame_showing m (below ++ above) (.closure id code env) code env args
    · rw [herror]
      exact hready.safe_error rfl above []
    · rw [hok, List.append_assoc]
      exact hready.entered hsound (phase_of_waits hwaits)
        (Activation.sound_enter hclosure hargs nofun) (hground.concat rfl)
  | raise hpayload => exact hraise _ _ hpayload
  | @resume id k v hk hv =>
    rw [Exec.transferWith, bind_of_ok (Exec.dropFinished_false _)]
    refine hready.resume_safe hsound hground hwaits ?_ hk hv
    intro hκ hnil
    exact hresume hκ hnil k v rfl

/-- A call in tail position: a function takes the place of the activation that calls it, and a
resumption may drop it. -/
theorem Ready.transfer_tail_safe {pre : List Activation} {a : Activation}
    (hready : m.Ready κ below level levels) (hsound : ∀ b ∈ pre ++ [a], b.Sound κ [.value])
    (hground : Grounded κ (pre ++ [a])) (hphase : level.phase = .running) {t : Transfer}
    (ht : t.Sound κ) (line : Nat) {raise : Effect → Value → Exec Unit}
    (hraise : ∀ effect payload, payload.Sound κ →
      m.Safe κ below (raise effect payload (m.showing (below ++ (pre ++ [a])) []))) :
    m.Safe κ below (Exec.transferWith raise line true t (m.showing (below ++ (pre ++ [a])) [])) := by
  have hpre : ∀ b ∈ pre, b.Sound κ [.value] := fun b hb => hsound b (by simp [hb])
  have ha : a.Sound κ [.value] := hsound a (by simp)
  have hwaits : level.Waits (pre ++ [a]) := Or.inr ⟨hphase, by simp⟩
  have hplain : (∀ k v, t ≠ .resume k v) → (∀ f c env args, t ≠ .enter f c env args) →
      m.Safe κ below (Exec.transferWith raise line true t
        (m.showing (below ++ (pre ++ [a])) [])) := by
    intro hresume henter
    have hsafe := hready.transfer_safe hsound hground hwaits ht (fun _ _ => hresume) line hraise
    cases ht with
    | enter => exact absurd rfl (henter _ _ _ _)
    | resume => exact absurd rfl (hresume _ _)
    | _ => exact hsafe
  cases ht with
  | @enter id code env args hclosure hargs =>
    have hreplace := Exec.replaceFrame_showing m (below ++ pre) a [] (.closure id code env) code env
      args
    rw [List.append_assoc, List.append_assoc] at hreplace
    simp only [Exec.transferWith, if_true, hreplace]
    refine hready.entered hpre (Or.inr hphase) (Activation.sound_enter hclosure hargs ?_)
      (hground.replaceLast rfl)
    intro bound hbound c hc
    refine ⟨ha.shape.clauses bound hbound c hc, ha.parts c.2 ?_⟩
    simp only [Activation.parts, List.mem_append, List.mem_flatMap]
    exact Or.inr ⟨bound, Option.mem_toList.2 hbound, List.mem_map_of_mem hc⟩
  | @resume id k v hk hv =>
    have hdrop := Exec.dropFinished_showing m (below ++ pre) a [] true
    rw [List.append_assoc] at hdrop
    by_cases hdropped : true = true ∧ a.handler = none ∧
        Exec.baseOf m.thread.levels < (below ++ pre).length
    · rw [if_pos hdropped] at hdrop
      rw [Exec.transferWith, bind_of_ok hdrop]
      have hne : pre ≠ [] := by
        rintro rfl
        have hlt := hdropped.2.2
        rw [hready.calls, Exec.baseOf, hready.above.depth] at hlt
        simp at hlt
      exact hready.resume_safe hpre (hground.of_append hne) (Or.inr ⟨hphase, hne⟩) (fun _ => hne) hk hv
    · rw [if_neg hdropped] at hdrop
      rw [Exec.transferWith, bind_of_ok hdrop]
      exact hready.resume_safe hsound hground hwaits (fun _ => by simp) hk hv
  | _ => exact hplain (by simp) (by simp)

end Machine

namespace Exec

variable {κ : Kind} {callee : Value} {args : List Value}

/-- Applying a value changes nothing but the shared state. -/
def Applies (κ : Kind) (m : Machine) (r : EStateM.Result Stop Machine Transfer) : Prop :=
  (∃ t w, r = .ok t { m with world := w } ∧ w.Sound κ ∧ t.Sound κ ∧
      ∀ e, w.Keeps e → m.world.Keeps e) ∨
    ∃ e w, r = .error (.error e) { m with world := w } ∧ w.Sound κ ∧
      (e.Ordinary ∨ m.world.Keeps e)

theorem draw_sound {w : World} (hw : w.Sound κ) : w.draw.2.Sound κ :=
  ⟨hw.toEvery.congr rfl rfl rfl, hw.failures⟩

/-- A function that is given too few arguments makes a partial application. -/
theorem withArity_applies {m : Machine} (name : String) {arity : Nat} {full : Exec Transfer}
    (hw : m.world.Sound κ) (hcallee : callee.Sound κ) (hbare : callee.Bare)
    (harity : callee.arity? = some arity) (hargs : ∀ v ∈ args, v.Sound κ)
    (hfull : args.length = arity → Applies κ m (full m)) :
    Applies κ m (withArity callee name arity args full m) := by
  rw [withArity, ite_run]
  split
  next hfew =>
    refine Or.inl ⟨_, _, rfl, draw_sound hw, .returned (.intro ⟨hbare, arity, harity, hfew⟩ ?_),
      fun _ h => h⟩
    intro part hpart
    obtain rfl | hpart := List.mem_cons.1 hpart
    · exact hcallee
    · exact hargs part hpart
  next hfew =>
    rw [ite_run]
    split
    next => exact Or.inr ⟨_, _, rfl, hw, Or.inl (RuntimeError.ordinary_of_isOrdinary rfl)⟩
    next hmany => exact hfull (by omega)

theorem unapply_ne_applied (v : Value) (args : List Value) (id : Nat) (c : Value)
    (bound : List Value) : (v.unapply args).1 ≠ .applied id c bound := by
  fun_induction Value.unapply v args with
  | case1 _ _ _ _ ih => exact ih
  | case2 args v hv =>
    rintro rfl
    exact hv _ _ _ rfl

theorem apply_unapply (hbare : (callee.unapply args).1.Bare) :
    apply callee args = apply (callee.unapply args).1 (callee.unapply args).2 := by
  rw [apply, apply, hbare]

theorem apply_closure (id : Nat) (code : Code Value) (env : List (Symbol × Value)) :
    apply (.closure id code env) args =
      withArity (.closure id code env) ((code.name.map Symbol.name).getD "<lambda>") code.arity args
        (return .enter (.closure id code env) code env args) :=
  rfl

/-- A function of the machine is called with as many arguments as it takes. -/
theorem native_applies {m : Machine} {name : String} {function : Native} (hw : m.world.Sound κ)
    (hfunction : κ ≠ .clause → ∀ h, function ≠ .hook h) (hargs : ∀ v ∈ args, v.Sound κ) :
    Applies κ m ((do
      match ← act (function.invoke name args) with
      | .value v => return .returned v
      | reply => return .requested reply : Exec Transfer) m) := by
  have hhooked : ∀ h, function = .hook h → κ = .clause :=
    fun h hhook => Decidable.byContradiction fun hκ => hfunction hκ h hhook
  have hsafe := Native.invoke_safe name hw.toEvery hhooked hargs
  have hrun := act_run m (function.invoke name args)
  cases hresult : function.invoke name args m.world with
  | ok reply w =>
    rw [hresult] at hsafe hrun
    rw [bind_of_ok hrun]
    obtain ⟨hreply, hevery, honward⟩ := hsafe
    have hw' : w.Sound κ := ⟨hevery, fun e he => hw.failures e (honward.failures e he)⟩
    refine Or.inl ?_
    cases reply with
    | value v => exact ⟨_, w, rfl, hw', .returned hreply, honward.failures⟩
    | _ => exact ⟨_, w, rfl, hw', .requested hreply, honward.failures⟩
  | error e w =>
    rw [hresult] at hsafe hrun
    rw [bind_of_error hrun]
    obtain ⟨he, hevery, honward⟩ := hsafe
    exact Or.inr ⟨e, w, rfl, ⟨hevery, fun e he => hw.failures e (honward.failures e he)⟩,
      he.imp_left RuntimeError.ordinary_of_isPlain⟩

/-- Applying a sound value to sound arguments. -/
theorem apply_applies (m : Machine) (hw : m.world.Sound κ) (hcallee : callee.Sound κ)
    (hargs : ∀ v ∈ args, v.Sound κ) : Applies κ m (apply callee args m) := by
  obtain ⟨hsound, hbare, hargs'⟩ := hcallee.unapply hargs
  have hne := unapply_ne_applied callee args
  rw [apply_unapply hbare]
  generalize (callee.unapply args).1 = f at hsound hbare hne
  generalize (callee.unapply args).2 = args' at hargs'
  cases f with
  | closure id code env =>
    refine withArity_applies _ hw hsound hbare rfl hargs' fun _ => ?_
    exact Or.inl ⟨_, m.world, rfl, hw, .enter hsound hargs', fun _ h => h⟩
  | native id name arity function =>
    refine withArity_applies _ hw hsound hbare rfl hargs' fun _ => ?_
    exact native_applies hw hsound.shape hargs'
  | effect e =>
    match args', hargs' with
    | [payload], hargs' =>
      exact Or.inl ⟨_, m.world, rfl, hw, .raise (hargs' payload (.head _)), fun _ h => h⟩
    | [], hargs' =>
      refine withArity_applies _ hw hsound hbare rfl hargs' fun h => ?_
      cases h
    | _ :: _ :: _, hargs' =>
      refine withArity_applies _ hw hsound hbare rfl hargs' fun h => ?_
      simp at h
  | continuation id k =>
    match args', hargs' with
    | [v], hargs' =>
      exact Or.inl ⟨_, m.world, rfl, hw, .resume hsound (hargs' v (.head _)), fun _ h => h⟩
    | [], hargs' =>
      refine withArity_applies _ hw hsound hbare rfl hargs' fun h => ?_
      cases h
    | _ :: _ :: _, hargs' =>
      refine withArity_applies _ hw hsound hbare rfl hargs' fun h => ?_
      simp at h
  | applied id c bound => exact absurd rfl (hne id c bound)
  | _ => exact Or.inr ⟨_, m.world, rfl, hw, Or.inl (RuntimeError.ordinary_of_isOrdinary rfl)⟩

theorem withArity_eq_ok {m m' : Machine} {name : String} {arity : Nat} {full : Exec Transfer}
    {t : Transfer} (hrun : withArity callee name arity args full m = .ok t m') :
    (∃ v, t = .returned v) ∨ args.length = arity ∧ full m = .ok t m' := by
  rw [withArity, ite_run] at hrun
  split at hrun
  next =>
    cases hrun
    exact Or.inl ⟨_, rfl⟩
  next hfew =>
    rw [ite_run] at hrun
    split at hrun
    next => cases hrun
    next hmany => exact Or.inr ⟨by omega, hrun⟩

/-- Only a suspended computation is resumed, and with one value. -/
theorem resume_of_apply {m m' : Machine} {k : Continuation Value} {v : Value}
    (hne : ∀ id c bound, callee ≠ .applied id c bound)
    (hrun : apply callee args m = .ok (.resume k v) m') :
    callee.arity? = some 1 ∧ args.length = 1 := by
  cases callee with
  | closure id code env =>
    obtain ⟨_, h⟩ | ⟨_, h⟩ := withArity_eq_ok hrun <;> cases h
  | native id name arity function =>
    obtain ⟨_, h⟩ | ⟨_, h⟩ := withArity_eq_ok hrun
    · cases h
    · rw [bind_eq_ok] at h
      obtain ⟨reply, _, _, h⟩ := h
      cases reply <;> cases h
  | effect e =>
    match args, hrun with
    | [payload], hrun => cases hrun
    | [], hrun => obtain ⟨_, h⟩ | ⟨_, h⟩ := withArity_eq_ok hrun <;> cases h
    | _ :: _ :: _, hrun => obtain ⟨_, h⟩ | ⟨_, h⟩ := withArity_eq_ok hrun <;> cases h
  | continuation id k =>
    match args, hrun with
    | [v], hrun => exact ⟨rfl, rfl⟩
    | [], hrun => obtain ⟨_, h⟩ | ⟨h, _⟩ := withArity_eq_ok hrun <;> cases h
    | _ :: _ :: _, hrun => obtain ⟨_, h⟩ | ⟨h, _⟩ := withArity_eq_ok hrun <;> cases h
  | applied id c bound => exact absurd rfl (hne id c bound)
  | _ => cases hrun

/-- A call without arguments resumes nothing. -/
theorem apply_nil_ne_resume {m m' : Machine} {t : Transfer} (hcallee : callee.Sound κ)
    (hrun : apply callee [] m = .ok t m') (k : Continuation Value) (v : Value) :
    t ≠ .resume k v := by
  rintro rfl
  cases callee with
  | applied id c bound =>
    obtain ⟨hbare, n, harity, hfew⟩ := hcallee.shape
    have hunapply : (Value.applied id c bound).unapply [] = (c, bound) := by
      rw [Value.unapply, hbare, List.append_nil]
    have hne := unapply_ne_applied (.applied id c bound) []
    rw [apply_unapply (by rw [hunapply]; exact hbare)] at hrun
    rw [hunapply] at hrun hne
    obtain ⟨harity', hlength⟩ := resume_of_apply hne hrun
    simp only [harity, Option.some.injEq] at harity' hlength
    omega
  | _ => exact absurd (resume_of_apply (fun _ _ _ h => by cases h) hrun).2 (by simp)

/-- A function of two parameters is entered with two arguments. -/
theorem apply_clause {id : Nat} {code : Code Value} {env : List (Symbol × Value)} (m : Machine)
    (harity : code.arity = 2) (v w : Value) :
    apply (.closure id code env) [v, w] m =
      .ok (.enter (.closure id code env) code env [v, w]) m := by
  rw [apply_closure, withArity, if_neg (by simp [harity]), if_neg (by simp [harity])]
  rfl

end Exec

namespace Machine

variable {κ : Kind} {m : Machine} {below above : List Activation} {level : Level}
  {levels : List Level}

/-- A clause is entered, also where the call has no activation left but that of the clause. -/
theorem Ready.clause_safe (hready : m.Ready κ below level levels)
    (hsound : ∀ a ∈ above, a.Sound κ [.value]) (hground : Grounded κ above)
    (hphase : level.phase = .opening ∨ level.phase = .running) {clause payload k : Value}
    (hclause : Kind.clause.Fits clause) (hsoundClause : clause.Sound κ) (hpayload : payload.Sound κ)
    (hk : k.Sound κ) (line : Nat) (raise : Effect → Value → Exec Unit) :
    m.Safe κ below ((do
      Exec.transferWith raise line false
        (← Exec.apply clause (if clause.arity? = some 1 then [payload] else [payload, k])) :
      Exec Unit) (m.showing (below ++ above) [])) := by
  obtain ⟨id, code, env, rfl, harity⟩ := hclause
  rw [if_neg (by simp [Value.arity?, harity]), bind_of_ok (Exec.apply_clause _ harity payload k)]
  simp only [Exec.transferWith, Bool.false_eq_true, if_false]
  obtain ⟨_, detail, herror⟩ | ⟨_, hok⟩ :=
    Exec.pushFrame_showing m (below ++ above) (.closure id code env) code env [payload, k]
  · rw [herror]
    exact hready.safe_error rfl above []
  · rw [hok, List.append_assoc]
    refine hready.entered hsound hphase (Activation.sound_enter hsoundClause ?_ nofun)
      (hground.concat rfl)
    simp [hpayload, hk]

/-- A value is applied, and what this comes to is done. -/
theorem Ready.apply_safe (hready : m.Ready κ below level levels) {callee : Value}
    {args : List Value} (hcallee : callee.Sound κ) (hargs : ∀ v ∈ args, v.Sound κ)
    {next : Transfer → Exec Unit}
    (hnext : ∀ (m' : Machine) t, m'.Ready κ below level levels → t.Sound κ →
      (args = [] → ∀ k v, t ≠ .resume k v) →
      m'.Safe κ below (next t (m'.showing (below ++ above) []))) :
    m.Safe κ below ((Exec.apply callee args >>= next) (m.showing (below ++ above) [])) := by
  have happlies := Exec.apply_applies (m.showing (below ++ above) []) hready.world hcallee hargs
  obtain ⟨t, w, hok, hw, ht, hkept⟩ | ⟨e, w, herror, hw, he⟩ := happlies
  · have hready' : { m with world := w }.Ready κ below level levels := hready.congr hw rfl rfl
    have hsafe := hnext _ t hready' ht ?_
    · rw [bind_of_ok hok]
      exact hsafe.trans_left rfl rfl hkept
    · rintro rfl
      exact Exec.apply_nil_ne_resume hcallee hok
  · rw [bind_of_error herror]
    exact ⟨he, hw, rfl, rfl, m.thread.extends_showing below above []⟩

/-- A handler that is found belongs to the innermost call: the activations of that call split at its
boundary. -/
theorem Ready.split (hready : m.Ready κ below level levels) {below' above' : List Activation}
    {b : Activation} (hacts : below ++ above = below' ++ b :: above')
    (hbase : Exec.baseOf m.thread.levels ≤ below'.length) :
    ∃ pre, below' = below ++ pre ∧ above = pre ++ b :: above' := by
  rw [hready.calls, Exec.baseOf, hready.above.depth] at hbase
  exact split_in_second hacts hbase

/-- An effect is raised. -/
theorem Ready.raiseWithin_safe (hready : m.Ready κ below level levels)
    (hsound : ∀ a ∈ above, a.Sound κ [.value]) (hground : Grounded κ above)
    (hphase : level.phase = .opening ∧ above = [] ∨ level.phase = .running) {payload : Value}
    (hpayload : payload.Sound κ) (line bound : Nat) (effect : Effect) :
    m.Safe κ below (Exec.raiseWithin line bound effect payload (m.showing (below ++ above) [])) := by
  induction bound generalizing m above effect payload with
  | zero => exact hready.safe_error rfl above []
  | succ bound ih =>
    rw [Exec.raiseWithin, bind_of_ok (Exec.baseDepth_run _), bind_get_run]
    simp only [showing_thread, Thread.showing_handlers, Thread.showing_levels]
    cases hfind : findHandler (handlersFrom 0 0 (below ++ above)).toArray
        (Exec.baseOf m.thread.levels) effect (handlersFrom 0 0 (below ++ above)).toArray.size with
    | none => exact hready.safe_error rfl above []
    | some found =>
      obtain ⟨index, h, clause⟩ := found
      obtain ⟨below', b, above', hacts, hb, hplace, hindex, hbase, hclause⟩ :=
        findHandler_locate hfind
      obtain ⟨pre, rfl, rfl⟩ := hready.split hacts hbase
      have hrunning : level.phase = .running := hphase.resolve_left (by simp)
      have hcapture := Exec.capture_showing m (below ++ pre) above' b h.clauses h.label hb
      rw [← hplace, ← hindex, ← hacts] at hcapture
      have hpre : ∀ a ∈ pre, a.Sound κ [.value] := fun a ha => hsound a (by simp [ha])
      have hk : (Value.continuation m.world.draw.1 (.ofActs (b :: above'))).Sound κ :=
        Value.sound_continuation (by simp [hb]) (fun a ha => hsound a (List.mem_append_right pre ha)) _
      obtain ⟨hfits, hsoundClause⟩ := (hsound b (by simp)).clause hb hclause
      have hready' : m.drawn.Ready κ below level levels :=
        hready.congr (Exec.draw_sound hready.world) rfl rfl
      simp only []
      rw [bind_of_ok hcapture, bind_of_ok (Exec.draw_run _)]
      by_cases hκ : κ = .clause
      · subst hκ
        have hsafe := hready'.clause_safe hpre (fun h => absurd rfl h) (Or.inr hrunning) hfits
          hsoundClause hpayload hk line (Exec.raiseWithin line bound)
        exact hsafe.trans_left rfl rfl fun _ h => h
      · have hne : pre ≠ [] := by
          rintro rfl
          rw [hground hκ b rfl] at hb
          cases hb
        have hgroundPre : Grounded κ pre := hground.of_append hne
        have hargs : ∀ v ∈ (if clause.arity? = some 1 then [payload] else
            [payload, .continuation m.world.draw.1 (.ofActs (b :: above'))]), v.Sound κ := by
          split <;> simp [hpayload, hk]
        have hsafe := hready'.apply_safe hsoundClause hargs fun m' t hm' ht _ =>
          hm'.transfer_safe hpre hgroundPre (Or.inr ⟨hrunning, hne⟩) ht (fun _ h => absurd h hne) line
            fun effect payload hpayload =>
              ih hm' hpre hgroundPre (Or.inr hrunning) hpayload effect
        exact hsafe.trans_left rfl rfl fun _ h => h

theorem Ready.raise_safe (hready : m.Ready κ below level levels)
    (hsound : ∀ a ∈ above, a.Sound κ [.value]) (hground : Grounded κ above)
    (hwaits : level.Waits above) {payload : Value} (hpayload : payload.Sound κ) (line : Nat)
    (effect : Effect) :
    m.Safe κ below (Exec.raise line effect payload (m.showing (below ++ above) [])) := by
  rw [Exec.raise, bind_get_run]
  exact hready.raiseWithin_safe hsound hground (hwaits.imp_right And.left) hpayload line _ effect

/-- A value is called. If no call may start with a boundary, the first call of a thread has no
arguments. -/
theorem Ready.call_safe (hready : m.Ready κ below level levels)
    (hsound : ∀ a ∈ above, a.Sound κ [.value]) (hground : Grounded κ above)
    (hwaits : level.Waits above) {callee : Value} {args : List Value} (hcallee : callee.Sound κ)
    (hargs : ∀ v ∈ args, v.Sound κ) (hfew : κ ≠ .clause → above = [] → args = []) (line : Nat) :
    m.Safe κ below (Exec.call callee args line false (m.showing (below ++ above) [])) :=
  hready.apply_safe hcallee hargs fun _ _ hm' ht hresume =>
    hm'.transfer_safe hsound hground hwaits ht (fun hκ hnil => hresume (hfew hκ hnil)) line
      fun effect _ hpayload => hm'.raise_safe hsound hground hwaits hpayload line effect

/-- A value is called in tail position. -/
theorem Ready.call_tail_safe {pre : List Activation} {a : Activation}
    (hready : m.Ready κ below level levels) (hsound : ∀ b ∈ pre ++ [a], b.Sound κ [.value])
    (hground : Grounded κ (pre ++ [a])) (hphase : level.phase = .running) {callee : Value}
    {args : List Value} (hcallee : callee.Sound κ) (hargs : ∀ v ∈ args, v.Sound κ) (line : Nat) :
    m.Safe κ below (Exec.call callee args line true (m.showing (below ++ (pre ++ [a])) [])) :=
  hready.apply_safe hcallee hargs fun _ _ hm' ht _ =>
    hm'.transfer_tail_safe hsound hground hphase ht line fun effect _ hpayload =>
      hm'.raise_safe hsound hground (Or.inr ⟨hphase, by simp⟩) hpayload line effect

end Machine

end Resumable
