import Resumable.Proofs.Machine.TwinRun
import Resumable.Proofs.Meaning.Calling
import Resumable.Proofs.Meaning.Giving
import Resumable.Proofs.Meaning.Handling

/-!
The machine and the evaluation go together. Each step is matched by moves of the machine, or it only
takes an expression apart; and of such steps there are finitely many in a row.
-/

namespace Resumable

/-- What an instruction that is a call leads to. -/
theorem Machine.conclude_call (line : Nat) (call : Exec Unit) (m : Machine) :
    conclude line ((do call; return none : Exec (Option Value)) m) = .ofCall line (call m) := by
  cases hcall : call m with
  | ok _ m' =>
    rw [bind_of_ok hcall]
    rfl
  | error s m' =>
    rw [bind_of_error hcall]
    rfl

namespace Meaning

variable {σ : State} {m : Machine}

namespace Hosts

variable {pre : List Activation} {b : Activation} {a : Activity} {acts : List Activity}
  {G : Ground} {choosing : Choosing} {Γ : Lexical} {line : Nat} {callee : Value} {args : List Value}

/-- An instruction that is a call. -/
theorem calls (h : Hosts σ m .running) (hstack : σ.acts = a :: acts)
    (hacts : List.Forall₂ (Waits (Means σ.memory)) acts pre.reverse)
    (hbears : Bears (Means σ.memory) G choosing Γ (args ++ [callee]) a b)
    (hat : b.code.At b.ip (if a.inTail then .tailCall else .call) args.length line)
    (hawaits : Awaits G b.code a.isProgram choosing Γ (b.ip + 2) a.contexts) :
    Arrives (σ.call line callee args) (m.showing (pre ++ [b]) []).advance := by
  obtain ⟨ops, vs, hoperands, hvs, hbears'⟩ := hbears.split
  obtain ⟨args', callee', rfl, hargs, hcallee⟩ := forall₂_concat_left hvs
  obtain ⟨b', hb⟩ : ∃ b', b' = { b with ip := b.ip + 2, operands := ops } := ⟨_, rfl⟩
  have hwaits : List.Forall₂ (Waits (Means σ.memory)) σ.acts (pre ++ [b']).reverse := by
    rw [hstack, List.reverse_append, hb]
    exact .cons ⟨G, choosing, Γ, { hbears' with }, hawaits⟩ hacts
  have hcall : (m.showing (pre ++ [b]) []).advance =
      .ofCall line (Exec.call callee' args' line a.inTail (m.showing (pre ++ [b']) [])) := by
    rw [← Exec.callTop_showing m (pre ++ [b']) [] line hargs.length_eq.symm, List.nil_append, hb]
    cases htail : a.inTail with
    | true =>
      rw [htail, if_pos rfl] at hat
      rw [h.sole.running.advance_execute rfl hat hoperands]
      exact Machine.conclude_call _ _ _
    | false =>
      rw [htail, if_neg (by simp)] at hat
      rw [h.sole.running.advance_execute rfl hat hoperands]
      exact Machine.conclude_call _ _ _
  rw [hcall]
  refine h.call (Or.inr ⟨rfl, by simp⟩) hwaits ?_ hcallee hargs
  rw [hstack]
  rfl

/-- One step of a thread that runs. -/
theorem step {control : Control} (h : Hosts σ m .running) (hstack : σ.acts = a :: acts)
    (hcontrol : σ.control = control)
    (hacts : List.Forall₂ (Waits (Means σ.memory)) acts pre.reverse)
    (hruns : Runs (Means σ.memory) control a b) :
    ∃ fill, Follows σ.weight (σ.step fill) (m.showing (pre ++ [b]) []) := by
  obtain ⟨G, choosing, Γ, hbears, hstands⟩ := hruns
  have hweight : control.weight + a.weight < σ.weight + 1 := by
    rw [State.weight, hcontrol, hstack]
    exact Nat.lt_succ_self _
  simp only [State.step, hcontrol, hstack]
  cases hstands with
  | @eval _ _ _ e _ hlaid hrest =>
    refine ⟨[], ?_⟩
    cases hplain : e.isHandle with
    | false => exact h.eval hacts hbears hlaid hrest hweight hplain
    | true =>
      cases e with
      | handle line body clauses => exact (h.handle hacts hbears hlaid hrest).follows _
      | _ => cases hplain
  | run hlaid hrest => exact ⟨[], h.statements hacts hbears hlaid hrest hweight⟩
  | runNone hat hrest => exact ⟨[], (h.gives_none hacts hbears hat hrest).follows _⟩
  | give hrest =>
    rw [Control.weight, Nat.zero_add] at hweight
    exact h.give hacts hbears hrest rfl rfl rfl rfl hweight
  | call hat hrest => exact ⟨[], (h.calls hstack hacts hbears hat hrest).follows _⟩

end Hosts

/-- A thread whose call goes on to another phase. -/
theorem Surrounds.setPhase {phase : Phase} (h : Surrounds σ m) (hlimits : m.thread.limits = σ.limits)
    (hsole : m.thread.Sole phase) (phase' : Phase) : Hosts σ (m.setPhase phase') phase' :=
  have hset : Surrounds σ (m.setPhase phase') := h.congr rfl rfl rfl rfl rfl
  { hset with
    limits := (Thread.limits_setPhase _ _).trans hlimits
    sole := hsole.setPhase phase' }

/-- One step is matched by moves of the machine, or there is less left to take apart. -/
theorem MachineMeans.step (hm : MachineMeans σ m) : ∃ fill, Follows σ.weight (σ.step fill) m := by
  obtain ⟨hsurrounds, hthread⟩ := hm
  generalize hstack : σ.acts = acts at hthread
  generalize hcontrol : σ.control = control at hthread
  generalize ht : m.thread = t at hthread
  cases hthread with
  | @made _ callee callee' args args' hsole hlimits hshows hcallee hargs =>
    subst ht
    have hopening := hsurrounds.setPhase hlimits hsole .opening
    have hcall : Arrives (σ.call 0 callee args) (.ofCall 0 (Exec.call callee' args' 0 false
        ((m.setPhase .opening).showing [] []))) :=
      hopening.call (Or.inl ⟨rfl, rfl⟩) (by rw [hstack]; exact .nil) (by rw [hstack]; rfl) hcallee hargs
    obtain ⟨level, hlevels, hphase, _⟩ := hsole
    refine ⟨[], Arrives.follows ?_ _⟩
    rw [State.step, hcontrol, Machine.advance_made hlevels hphase, Machine.setPhase_showing (Machine.eq_showing hshows)]
    exact hcall
  | @given _ v w hsole hlimits hshows hv =>
    subst ht
    obtain ⟨t, hgiven⟩ := hsole.advance_given w
    rw [← Machine.eq_showing hshows] at hgiven
    have hresult : OutcomesRelated (Means σ.memory) (.ok v) (.ok w) := hv
    have hafter : Surrounds σ { m with thread := t } := hsurrounds.congr rfl rfl rfl rfl rfl
    refine ⟨[], NextMeans.follows ?_ _⟩
    rw [State.step, hcontrol, hstack, hgiven]
    exact hafter.finish hresult
  | @entered _ phase acts a pre b control hphase hsole hlimits hshows hacts hruns =>
    subst ht
    obtain rfl | rfl := hphase
    · have hsettle : (m.showing (pre ++ [b]) []).advance = _ := hsole.advance_settle (by simp) []
      have hrunning := hsurrounds.setPhase hlimits hsole .running
      obtain ⟨fill, hfollows⟩ := hrunning.step hstack hcontrol hacts hruns
      rw [← Machine.eq_showing hshows] at hsettle
      rw [← Machine.setPhase_showing (Machine.eq_showing hshows)] at hfollows
      refine ⟨fill, Arrives.follows ?_ _⟩
      rw [hsettle]
      exact hfollows.arrives
    · have hhosts : Hosts σ m .running := { hsurrounds with limits := hlimits, sole := hsole }
      rw [Machine.eq_showing hshows]
      exact hhosts.step hstack hcontrol hacts hruns

/-- An evaluation can come to an outcome, with a shared state, that mean those of a machine. -/
def Next.ComesTo (next : Next) (outcome' : Outcome) (world : World) : Prop :=
  ∃ fills outcome μ, next.after fills = .ended outcome μ ∧ OutcomeMeans μ outcome outcome' ∧
    μ.world.Related (meaning μ) world ∧ μ.Fresh

/-- An evaluation can go on forever. -/
def Next.GoesOn (next : Next) : Prop :=
  ∀ k, ∃ fills σ, fills.length = k ∧ next.after fills = .more σ

theorem Next.ComesTo.of_step {fill : List Value} {outcome' : Outcome} {world : World}
    (h : (σ.step fill).ComesTo outcome' world) : (Next.more σ).ComesTo outcome' world := by
  obtain ⟨fills, outcome, μ, hafter, hends⟩ := h
  exact ⟨fill :: fills, outcome, μ, hafter, hends⟩

/-- What a machine comes to, the evaluation comes to. The induction is on the moves of the machine, and
on what is left to take apart where it makes none. -/
theorem MachineMeans.comesTo {n : Nat} {outcome' : Outcome} {m' : Machine} (hm : MachineMeans σ m)
    (hrun : m.run n = some (outcome', m')) : (Next.more σ).ComesTo outcome' m'.world := by
  induction n generalizing σ m with
  | zero => cases hrun
  | succ n ih =>
    induction hw : σ.weight using Nat.strongRecOn generalizing σ with
    | ind weight ihw =>
      obtain ⟨fill, hfollows⟩ := hm.step
      have hsteps : (σ.step fill).ComesTo outcome' m'.world := by
        obtain ⟨q, hleads, hnext⟩ | ⟨σ', hstep, hm', hlt⟩ := hfollows
        · rw [Machine.run_succ] at hrun
          have hq := hleads.run hrun
          generalize σ.step fill = next at hnext
          cases hnext with
          | more hm' => exact ih hm' hq
          | ended houtcome hworld hfresh =>
            cases hq
            exact ⟨[], _, _, rfl, houtcome, hworld, hfresh⟩
        · rw [hstep]
          exact ihw _ (hw ▸ hlt) hm' rfl
      exact hsteps.of_step

/-- If a machine comes to no end, the evaluation need not come to one. -/
theorem MachineMeans.goesOn (hm : MachineMeans σ m) (hforever : ∀ n, m.run n = none) :
    (Next.more σ).GoesOn := by
  intro k
  induction k generalizing σ m with
  | zero => exact ⟨[], σ, rfl, rfl⟩
  | succ k ih =>
    have hmore : ∃ fill σ' m', σ.step fill = .more σ' ∧ MachineMeans σ' m' ∧ ∀ n, m'.run n = none := by
      obtain ⟨fill, ⟨q, hleads, hnext⟩ | ⟨σ', hstep, hm', _⟩⟩ := hm.step
      · generalize hstep : σ.step fill = next at hnext
        have hend : ∀ n r, q.run n ≠ some r := by
          intro n r hq
          obtain ⟨n', hback⟩ := hleads.run_back hq
          have hended := (Machine.run_succ n').trans hback
          rw [hforever] at hended
          cases hended
        cases hnext with
        | more hm' => exact ⟨fill, _, _, hstep, hm', fun n => Option.eq_none_iff_forall_ne_some.2 (hend n)⟩
        | ended => exact absurd rfl (hend 0 _)
      · exact ⟨fill, σ', m, hstep, hm', hforever⟩
    obtain ⟨fill, σ', m', hstep, hm', hforever'⟩ := hmore
    obtain ⟨fills, σ'', hlength, hafter⟩ := ih hm' hforever'
    refine ⟨fill :: fills, σ'', by rw [List.length_cons, hlength], ?_⟩
    rw [Next.after, hstep, hafter]

end Meaning

end Resumable
