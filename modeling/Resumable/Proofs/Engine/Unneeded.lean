import Resumable.Proofs.Engine.CallSite
import Resumable.Proofs.Engine.Resumption
import Resumable.Proofs.Machine.Invocation
import Resumable.Proofs.Machine.PaddedRun

/-!
A handler that no effect asks for makes no difference: whatever a program does with it, it does as well
if the handled function is called in the ordinary way.
-/

namespace Resumable

/-- The next instruction of a machine installs the handler `bound` around a function without parameters,
which leads to `handled`. If it called the function instead, this would lead to `called`. -/
inductive Machine.Handles (m : Machine) : Bound → Machine → Machine → Prop
  | intro {i : Fetched} {id : Nat} {clauses : List (Effect × Value)} {body : Value}
    {m₁ m₂ s handled called : Machine} (hrunning : m.thread.Running) (hfetch : Exec.fetch m = .ok i m₁)
    (hop : i.op = .handle) (hbody : Exec.pop m₁ = .ok body m₂)
    (hhandler : Exec.pop m₂ = .ok (.handler id clauses) s)
    (hinstall : Exec.install clauses body s = .ok () handled)
    (hcall : Exec.call body [] i.line false s = .ok () called) :
    Handles m (clauses, s.thread.lastLabel + 1) handled called

namespace Exec

variable {m n : Machine} {acts : List Activation}

/-- A handler is installed around functions without parameters only. -/
theorem install_inv {clauses : List (Effect × Value)} {body : Value}
    (hinstall : install clauses body (m.showing acts []) = .ok () n) :
    ∃ id f env, body = .closure id f env ∧ f.arity = 0 ∧
      n = m.relabeled.showing (acts ++ [.enter body f env [] (some (clauses, m.thread.lastLabel + 1))]) [] := by
  cases body with
  | closure id f env =>
    by_cases harity : f.arity = 0
    · refine ⟨id, f, env, rfl, harity, ?_⟩
      obtain ⟨_, detail, _, herror, _⟩ | ⟨_, hok⟩ := install_showing m acts clauses id f env harity
      · cases herror.symm.trans hinstall
      · cases hok.symm.trans hinstall
        rfl
    · simp only [install, if_neg harity] at hinstall
      cases hinstall
  | _ => cases hinstall

/-- A function without parameters that is called gets an activation on top. -/
theorem call_inv {id line : Nat} {f : Code Value} {env : List (Symbol × Value)} (harity : f.arity = 0)
    (hcall : call (.closure id f env) [] line false (m.showing acts []) = .ok () n) :
    n = m.showing (acts ++ [.enter (.closure id f env) f env [] none]) [] := by
  have hpush : call (.closure id f env) [] line false (m.showing acts []) =
      pushFrame (.closure id f env) f env [] false (m.showing acts []) := by
    rw [call, apply_closure, withArity, if_neg (by simp [harity]), if_neg (by simp)]
    rfl
  rw [hpush] at hcall
  obtain ⟨_, detail, herror⟩ | ⟨_, hok⟩ := pushFrame_showing m acts (.closure id f env) f env []
  · cases herror.symm.trans hcall
  · cases hok.symm.trans hcall
    rfl

end Exec

namespace Machine

variable {bound : Bound} {m handled called : Machine}

theorem Handles.running (h : m.Handles bound handled called) : m.thread.Running := by
  cases h with
  | intro hrunning => exact hrunning

/-- The machine goes on where the handler is installed. -/
theorem Handles.advance (h : m.Handles bound handled called) : m.advance = .more handled := by
  obtain @⟨i, id, clauses, body, m₁, m₂, s, _, _, ⟨level, levels, hlevels, hphase⟩, hfetch, hop, hbody,
    hhandler, hinstall, _⟩ := h
  have hexecute : Exec.execute i m₁ = .ok none handled := by
    rw [Exec.execute, hop]
    simp only [Exec.handle]
    rw [bind_assoc, bind_of_ok hbody, bind_assoc, bind_of_ok hhandler, bind_of_ok hinstall]
    rfl
  rw [advance_running hlevels hphase hfetch, hexecute]
  rfl

/-- The activations of a sound machine with one call that runs. -/
theorem Sound.acts_of_sole (hsound : m.Sound .value) (hsole : m.thread.Sole .running) :
    ∃ pre a, m = m.showing (pre ++ [a]) [] ∧ (∀ b ∈ pre, b.Sound .value [.value]) ∧
      a.Sound .value [] := by
  obtain ⟨pre, a, hshows⟩ : ∃ pre a, m = m.showing (pre ++ [a]) [] := by
    obtain ⟨below, above, extra, level, levels, hready, hunderway, hshows⟩ := hsound.ready
    obtain ⟨only, hlevels, hphase, _⟩ := hsole
    cases hready.calls.symm.trans hlevels
    rw [hphase] at hunderway
    generalize hrunning : Phase.running = phase at hunderway
    cases hunderway with
    | @entered _ pre a _ _ _ _ =>
      rw [← List.append_assoc] at hshows
      exact ⟨below ++ pre, a, hshows⟩
    | _ => cases hrunning
  obtain ⟨hpre, ha, _⟩ := hsole.sound_acts (hshows ▸ hsound)
  exact ⟨pre, a, hshows, hpre, ha⟩

/-- What both threads show: the same activations, and on top the function, with the handler in one of
them. -/
theorem Handles.shows (h : m.Handles bound handled called) (hsole : m.thread.Sole .running)
    (hsound : m.Sound .value) :
    ∃ acts id f env, (∀ a ∈ acts, a.Sound .value [.value]) ∧ (Value.closure id f env).Sound .value ∧
      handled = m.relabeled.showing (acts ++ [.enter (.closure id f env) f env [] (some bound)]) [] ∧
      called = m.showing (acts ++ [.enter (.closure id f env) f env [] none]) [] := by
  obtain ⟨pre, a, hshows, hpre, ha⟩ := hsound.acts_of_sole hsole
  obtain @⟨i, hid, clauses, body, m₁, m₂, s, _, _, _, hfetch, hop, hbody, hhandler, hinstall, hcall⟩ := h
  rw [hshows] at hfetch
  cases ha.next with
  | ret hat => simp [(Exec.fetched_inv hfetch hat).1] at hop
  | jump hat => simp [(Exec.fetched_inv hfetch hat).1] at hop
  | branch hat => simp [(Exec.fetched_inv hfetch hat).1] at hop
  | @straight op operand line takes leaves ops vs hat hstraight _ hoperands hfits hnext =>
    obtain ⟨rfl, rfl⟩ := Exec.fetched_inv hfetch hat
    obtain rfl : op = .handle := hop
    obtain ⟨rfl, rfl⟩ : takes = [.handler, .value] ∧ leaves = [.value] := by
      cases hstraight
      exact ⟨rfl, rfl⟩
    obtain ⟨_, _, ⟨id₁, clauses₁, rfl⟩, hrest, rfl⟩ := List.forall₂_cons_left_iff.1 hfits
    obtain ⟨v, _, rfl⟩ := forall₂_singleton_left hrest
    obtain ⟨b, hb⟩ : ∃ b : Activation, b = { a with ip := a.ip + 1 + Op.handle.width, operands := ops } :=
      ⟨_, rfl⟩
    have htwo : a.operands = ops ++ ([.handler id₁ clauses₁] ++ [v]) := hoperands
    rw [showing_fetched _ htwo, ← hb, Exec.pop_showing] at hbody
    cases hbody
    rw [← List.nil_append [Value.handler id₁ clauses₁], Exec.pop_showing] at hhandler
    cases hhandler
    have hsound : body.Sound .value := ha.parts body (by simp [Activation.parts, hoperands])
    have hacts : ∀ c ∈ pre ++ [b], c.Sound .value [.value] := by
      refine List.forall_mem_append.2 ⟨hpre, ?_⟩
      rw [hb]
      simpa using hnext
    obtain ⟨id, f, env, rfl, harity, rfl⟩ := Exec.install_inv hinstall
    exact ⟨pre ++ [b], id, f, env, hacts, hsound, rfl, Exec.call_inv harity hcall⟩

/-- The footing of a program is that of a task. -/
theorem footing_eq_task {hidden : Bool} {G : Footing} {tasks tasks' : List (Int × Thread)}
    (htasks : WaitingTogether .value hidden .task [] [] G tasks tasks') : G = .task := by
  cases htasks with
  | nil => rfl
  | cons => rfl

/-- A program has one call in progress on each thread. -/
theorem Together.one_call {hidden : Bool} {m' : Machine} (hm : Together .value hidden .task [] [] m m') :
    (∃ level, m.thread.levels = [level]) ∧ ∀ w ∈ m.waiting, ∃ level, w.2.levels = [level] := by
  have hfirst : ∀ {level level' : Level} {below below' : List Activation} {levels levels' : List Level},
      Under .value hidden .task level level' below below' levels levels' → levels = [] := by
    intro level level' below below' levels levels' hunder
    cases hunder with
    | first => rfl
    | inner hκ => cases hκ
  obtain ⟨_, G, htasks, hrun⟩ := hm
  constructor
  · obtain rfl := footing_eq_task htasks
    obtain ⟨hlevels, _, hunder, _⟩ := hrun
    cases hfirst hunder
    exact ⟨_, hlevels⟩
  · generalize m.waiting = tasks at htasks
    generalize m'.waiting = tasks' at htasks
    clear hrun
    induction htasks with
    | nil => exact nofun
    | cons hbefore ht ih =>
      obtain rfl := footing_eq_task hbefore
      refine List.forall_mem_cons.2 ⟨?_, ih⟩
      obtain ⟨hlevels, _, hunder, _⟩ := ht
      cases hfirst hunder
      exact ⟨_, hlevels⟩

end Machine

/-- A thread that waits with one call in progress. -/
theorem Thread.Waits.pads {t : Thread} {level : Level} (h : t.Waits .value) (hone : t.levels = [level])
    (bound : Bound) : t.PadsWaiting bound t := by
  obtain ⟨hlevels, hacts, hshows⟩ := h
  cases hone.symm.trans hlevels
  cases hacts with
  | cons hbelow hlevel hpurpose hsound _ hwaits =>
    cases hbelow
    have hsole : ∀ phase, level.phase = phase → t.Sole phase :=
      fun phase hphase => ⟨level, hone, hphase, hlevel.depth, hpurpose.2 rfl⟩
    obtain ⟨hphase, _⟩ | ⟨hphase, _⟩ := hwaits
    · exact .intro (Or.inl rfl) (hsole _ hphase) (hsole _ hphase) (padded_self Value.Sound.pads hsound)
        hshows hshows
    · exact .intro (Or.inr rfl) (hsole _ hphase) (hsole _ hphase) (padded_self Value.Sound.pads hsound)
        hshows hshows

namespace Machine

variable {bound : Bound} {m handled called : Machine}

/-- A handler is installed or the function is called: the same, up to the handler. -/
theorem Handles.pads {hidden : Bool} (h : m.Handles bound handled called) (hsound : m.Sound .value)
    (htogether : Together .value hidden .task [] [] m m) : handled.Pads bound called := by
  obtain ⟨⟨level, hlevels⟩, hwaiting⟩ := htogether.one_call
  have hsole : m.thread.Sole .running := by
    obtain ⟨first, levels, hcalls, hphase⟩ := h.running
    obtain ⟨hcalls', hbelow, hlevel, hpurpose, _⟩ := hsound.thread
    cases hcalls.symm.trans hlevels
    cases hcalls'.symm.trans hlevels
    cases hbelow
    exact ⟨level, hlevels, hphase, hlevel.depth, hpurpose.2 rfl⟩
  obtain ⟨acts, id, f, env, hacts, hbody, rfl, rfl⟩ := h.shows hsole hsound
  have henter : (Activation.enter (.closure id f env) f env [] (some bound)).Pads bound
      (Value.Pads bound) [] (.enter (.closure id f env) f env [] none) :=
    Activation.enter_pads hbody.pads .nil (Or.inr ⟨rfl, rfl⟩)
  refine ⟨World.related_self hsound.world.toEvery rfl rfl Value.Sound.pads, ?_, .intro hsole hsole
    (.entered (Or.inr rfl) (padded_self Value.Sound.pads hacts) henter) rfl rfl⟩
  refine List.forall₂_same.2 fun w hw => ⟨rfl, ?_⟩
  obtain ⟨level, hone⟩ := hwaiting w hw
  exact (hsound.waiting w hw).pads hone bound

end Machine

namespace Machine

variable {bound : Bound} {m x s handled called : Machine}

end Machine

namespace Engine

/-- Engines that only compile and run programs are guarded. -/
theorem Used.guarded {e : Engine} (he : e.Used) : ∃ seen, e.Guarded .value seen := by
  induction he with
  | create limits clock => exact ⟨[], .create limits clock⟩
  | compile _ o program ih =>
    obtain ⟨seen, he⟩ := ih
    exact ⟨seen, he.compile o program⟩
  | compileSource _ o source ih =>
    obtain ⟨seen, he⟩ := ih
    exact ⟨seen, he.compileSource o source⟩
  | interpret _ hcode hrun ih =>
    obtain ⟨seen, he⟩ := ih
    exact ⟨_, he.interpret hcode hrun⟩

end Engine

end Resumable
