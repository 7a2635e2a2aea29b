import Resumable.Proofs.Machine.TailRun
import Resumable.Proofs.Machine.TwinTasks

/-!
A suspended computation that goes on in two places: on a thread of its own, where an embedding has
called it, and above the activations of a program that has called it. In the first place a function
that resumes another computation in tail position keeps its activation if that is the first of the
thread; it is then idle. And if a clause returns at once where no activation is left, its value is
stranded: in the first place nobody takes it.
-/

namespace Resumable

namespace Machine

/-- Two machines with one call in progress each, which ends their work, over related shared states. -/
structure Apart (hidden : Bool) (m m' : Machine) : Prop where
  world : m.world.Related (twinning .value hidden) m'.world
  single : m.Single
  single' : m'.Single

end Machine

/-- Threads that wait for a task: a thread of its own, and one of a program with the activations
`ground`. -/
structure Thread.AwaitTask (hidden : Bool) (ground : List Activation) (t t' : Thread) : Prop where
  alone : ∃ level, t.levels = [level] ∧ level.phase = .running ∧ level.depth = 0 ∧
    level.purpose = .finish
  alone' : ∃ level, t'.levels = [level] ∧ level.phase = .running ∧ level.depth = 0 ∧
    level.purpose = .finish
  shows : ∃ low mid mid', Spare low ∧
    List.Forall₂ (Activation.Twins .value Eq (Value.Twins .value hidden) [.value]) mid mid' ∧
    t = t.showing (low ++ mid) [] ∧ t' = t'.showing (ground ++ mid') []

/-- A computation that goes on in two places: on a thread of its own, perhaps with idle activations
below it, and above the activations `ground` of a program. Or it waits for a task. -/
inductive Machine.Parallel (hidden : Bool) (ground : List Activation) : Machine → Machine → Prop
  | running {m m' : Machine} {low pre pre' : List Activation} {a a' : Activation}
    (hm : m.Apart hidden m') (hlow : Spare low)
    (hpre : List.Forall₂ (Activation.Twins .value Eq (Value.Twins .value hidden) [.value]) pre pre')
    (ha : a.Twins .value Eq (Value.Twins .value hidden) [] a') :
    Parallel hidden ground (m.showing (low ++ (pre ++ [a])) [])
      (m'.showing (ground ++ (pre' ++ [a'])) [])
  | waiting {m m' : Machine} {id : Int} {t t' : Thread} (ht : t.AwaitTask hidden ground t')
    (hm : m.Together .value hidden .task [(id, t)] [(id, t')] m') : Parallel hidden ground m m'

/-- Where a move leads a computation in two places: it goes on, or it has come to a value, which the
program gets and which the thread of its own returns unless it is stranded, or it has failed. -/
inductive Progress.Resumed (hidden : Bool) (ground : List Activation) : Progress → Progress → Prop
  | on {m m' : Machine} (hm : m.Parallel hidden ground m') :
    Resumed hidden ground (.more m) (.more m')
  | handed {m m' : Machine} {low : List Activation} {v v' : Value} (hm : m.Apart hidden m')
    (hlow : Spare low) (hv : v.Twins .value hidden v') :
    Resumed hidden ground (m.handing v low) (.more (m'.showing ground [v']))
  | stranded {m m' : Machine} {v v' : Value} (hm : m.Apart hidden m')
    (hv : v.Twins .value hidden v') :
    Resumed hidden ground (.more (m.showing [] [v])) (.more (m'.showing ground [v']))
  | failed {m m' : Machine} {e : RuntimeError}
    (hworld : m.world.Related (twinning .value hidden) m'.world) :
    Resumed hidden ground (.ended (.failed e) m) (.ended (.failed e) m')

variable {hidden : Bool} {ground low pre pre' mid mid' : List Activation} {a a' : Activation}
  {m m' n n' : Machine} {v v' : Value}

namespace Machine.Apart

theorem of_beside (hm : m.Apart hidden m') (hn : Beside (twinning .value hidden) m m' n n') :
    n.Apart hidden n' := by
  refine ⟨hn.world, ⟨hn.waiting.trans hm.single.1, ?_⟩, ⟨hn.waiting'.trans hm.single'.1, ?_⟩⟩
  · rw [Thread.Sole, hn.levels]
    exact hm.single.2
  · rw [Thread.Sole, hn.levels']
    exact hm.single'.2

/-- The value that activations wait for. -/
theorem parallel_of_given (hm : m.Apart hidden m') (hlow : Spare low)
    (hmid : List.Forall₂ (Activation.Twins .value Eq (Value.Twins .value hidden) [.value]) mid mid')
    (hne : mid ≠ []) (hv : v.Twins .value hidden v') :
    (m.showing (low ++ mid) [v]).Parallel hidden ground (m'.showing (ground ++ mid') [v']) := by
  obtain ⟨pre, a, rfl⟩ := (List.eq_nil_or_concat' mid).resolve_left hne
  obtain ⟨pre', a', rfl, hpre, ha⟩ := forall₂_concat_left hmid
  rw [← List.append_assoc, ← List.append_assoc, ← List.append_nil [v], ← List.append_nil [v'],
    ← showing_pushAll, ← showing_pushAll, List.append_assoc, List.append_assoc]
  exact .running hm hlow hpre (ha.push hv)

/-- The value that a computation waits for, if there is anything left of it. -/
theorem given (hm : m.Apart hidden m') (hlow : Spare low)
    (hmid : List.Forall₂ (Activation.Twins .value Eq (Value.Twins .value hidden) [.value]) mid mid')
    (hv : v.Twins .value hidden v') :
    Progress.Resumed hidden ground (.more (m.showing (low ++ mid) [v]))
      (.more (m'.showing (ground ++ mid') [v'])) := by
  by_cases hmidNil : mid = []
  · subst hmidNil
    cases hmid
    rw [List.append_nil, List.append_nil]
    by_cases hnil : low = []
    · subst hnil
      exact .stranded hm hv
    · rw [← handing_of_ne v hnil]
      exact .handed hm hlow hv
  · exact .on (hm.parallel_of_given hlow hmid hmidNil hv)

theorem answer_eq (hm : m.Single) (v : Value) : (m.showing [] []).answer v = m.handing v [] := by
  obtain ⟨hwaiting, level, hlevels, _, _, hpurpose⟩ := hm
  simp only [answer, showing_thread, Thread.showing_levels, hlevels, hpurpose, finish, showing_waiting,
    handing, hwaiting]
  rfl

theorem unseen (hm : m.Single) (hbounds : boundsOf low = []) : Unseen m.thread.levels low := by
  have hnil : handlersFrom 0 0 low = [] := by
    rw [← List.length_eq_zero_iff, length_handlersFrom, hbounds]
    rfl
  refine ⟨by rw [hm.2.baseOf_eq]; exact Nat.zero_le _, fun effect => ?_⟩
  rw [hnil]
  rfl

/-- What instructions come to that concur. -/
theorem concurs {start : List Activation} {tells : Prop} (hm : m.Apart hidden m') (hlow : Spare low)
    {r r' : EStateM.Result Stop Machine (Option Value)}
    (hconcur : Exec.Concur .value hidden m m' low ground start tells none r r') (line : Nat) :
    Progress.Resumed hidden ground (ofInstruction line r) (ofInstruction line r') ∨
      Exec.Overflows r ∨ Exec.Overflows r' ∨ tells := by
  cases hconcur with
  | given hn hmid _ hv => exact Or.inl ((hm.of_beside hn).given hlow hmid hv)
  | entered hn hmid ha => exact Or.inl (.on (.running (hm.of_beside hn) hlow hmid ha))
  | called _ _ _ _ _ hκ => cases hκ
  | @spawned n n' mid mid' callee callee' hn hmid _ _ _ hcallee =>
    have hapart := hm.of_beside hn
    obtain ⟨hid, hdrawn⟩ := hn.world.drawTask rfl
    have hfirst : Under .value hidden .task (Machine.taskLevel callee) (Machine.taskLevel callee') []
        [] [] [] := .first ⟨rfl, rfl⟩ ⟨rfl, rfl, rfl⟩ ⟨rfl, rfl, rfl⟩
    have hwait : (n.thread.showing (low ++ mid) []).AwaitTask hidden ground
        (n'.thread.showing (ground ++ mid') []) :=
      ⟨hapart.single.2, hapart.single'.2, low, mid, mid', hlow, hmid, rfl, rfl⟩
    have hrun : ((n.showing (low ++ mid) []).spawning callee).thread.RunTogether .value hidden .task
        ((n'.showing (ground ++ mid') []).spawning callee').thread :=
      Thread.runTogether_made rfl rfl hfirst rfl rfl hcallee .nil rfl rfl
    have hwaiting : ((n.showing (low ++ mid) []).spawning callee).waiting =
        [(n.world.tasks.draw.1, n.thread.showing (low ++ mid) [])] :=
      congrArg (List.cons _) hapart.single.1
    have hwaiting' : ((n'.showing (ground ++ mid') []).spawning callee').waiting =
        [(n.world.tasks.draw.1, n'.thread.showing (ground ++ mid') [])] := by
      rw [← hid]
      exact congrArg (List.cons _) hapart.single'.1
    have htasks : WaitingTogether .value hidden .task
        [(n.world.tasks.draw.1, n.thread.showing (low ++ mid) [])]
        [(n.world.tasks.draw.1, n'.thread.showing (ground ++ mid') [])] .task
        ((n.showing (low ++ mid) []).spawning callee).waiting
        ((n'.showing (ground ++ mid') []).spawning callee').waiting := by
      rw [hwaiting, hwaiting']
      exact .nil
    exact Or.inl (.on (.waiting hwait ⟨hdrawn, .task, htasks, hrun⟩))
  | @failed n n' e hn _ _ =>
    have hapart := hm.of_beside hn
    obtain ⟨f, hstop, hf⟩ := hapart.single.stop_eq e line
    obtain ⟨f', hstop', hf'⟩ := hapart.single'.stop_eq e line
    simp only [ofInstruction]
    rw [hstop, hstop']
    refine Or.inl (.failed ?_)
    rw [hf, hf']
    exact hn.world
  | parted _ hcause => exact Or.inr hcause

/-- The last activations execute an instruction. Where the thread of its own has nothing below the last
one, this is not to resume a computation in tail position. -/
theorem advance_plain (hm : m.Apart hidden m') (hlow : Spare low) (hground : boundsOf ground = [])
    (hne : ground ≠ [])
    (hpre : List.Forall₂ (Activation.Twins .value Eq (Value.Twins .value hidden) [.value]) pre pre')
    (ha : a.Twins .value Eq (Value.Twins .value hidden) [] a')
    (hplain : ∀ i callee args x, (m.showing (low ++ pre ++ [a]) []).Calling i callee args x →
      i.op = .tailCall → Exec.Resumes callee args x → low ++ pre ≠ []) :
    Progress.Resumed hidden ground (m.showing (low ++ (pre ++ [a])) []).advance
        (m'.showing (ground ++ (pre' ++ [a'])) []).advance ∨
      (m.showing (low ++ (pre ++ [a])) []).Overflowing ∨
      (m'.showing (ground ++ (pre' ++ [a'])) []).Overflowing ∨
      (m.showing (low ++ (pre ++ [a])) []).Invokes (Pairing.exact hidden).tells := by
  have hbase := hm.single.2.baseOf_eq
  have hbase' := hm.single'.2.baseOf_eq
  have hpos : 0 < (ground ++ pre').length := List.length_pos_iff.2 (List.append_ne_nil_of_left_ne_nil hne _)
  obtain ⟨level, hlevels, hphase, _⟩ := hm.single.2
  obtain ⟨level', hlevels', hphase', _⟩ := hm.single'.2
  obtain ⟨i, m₁, m₁', hfetch, hfetch', hexecutes⟩ := executes_beside ⟨hm.world, rfl, rfl, rfl, rfl⟩
    (unseen hm.single hlow.boundsOf_eq) (unseen hm.single' hground) hpre ha (Or.inl rfl) (by
      intro i callee args x hcalling hop hresumes
      have hsome := List.length_pos_iff.2 (hplain i callee args x hcalling hop hresumes)
      rw [hbase, hbase']
      exact ⟨fun _ => hpos, fun _ => hsome⟩) hlevels hphase
  rw [← List.append_assoc, ← List.append_assoc]
  rw [advance_running (m := m.showing (low ++ pre ++ [a]) []) hlevels hphase hfetch,
    advance_running (m := m'.showing (ground ++ pre' ++ [a']) []) hlevels' hphase' hfetch']
  generalize hr : Exec.execute i m₁ = r at hexecutes
  generalize hr' : Exec.execute i m₁' = r' at hexecutes
  cases hexecutes with
  | @returns v v' hv =>
    refine Or.inl ?_
    have hstays : ¬ (ground ++ pre').length ≤ Exec.baseOf m'.thread.levels := by
      rw [hbase']
      exact Nat.not_le_of_lt hpos
    rw [if_neg hstays]
    by_cases hnil : low ++ pre = []
    · have hends : (low ++ pre).length ≤ Exec.baseOf m.thread.levels := by
        rw [hnil]
        exact Nat.zero_le _
      rw [if_pos hends, hnil]
      obtain ⟨rfl, rfl⟩ := List.append_eq_nil_iff.1 hnil
      cases hpre
      simp only [ofInstruction, answer_eq hm.single, List.append_nil]
      exact .handed hm hlow hv
    · have hgoes : ¬ (low ++ pre).length ≤ Exec.baseOf m.thread.levels := by
        rw [hbase]
        exact Nat.not_le_of_lt (List.length_pos_iff.2 hnil)
      rw [if_neg hgoes]
      exact hm.given hlow hpre hv
  | concur hconcur =>
    refine (hm.concurs hlow hconcur i.line).imp_right (Or.imp ?_ (Or.imp_left ?_))
    · rintro ⟨detail, x, rfl⟩
      exact ⟨detail, x, .execute hlevels hphase hfetch hr⟩
    · rintro ⟨detail, x, rfl⟩
      exact ⟨detail, x, .execute hlevels' hphase' hfetch' hr'⟩

/-- The only activation above those of the program resumes a computation in tail position. It goes,
unless it bounds a handler, but on the thread of its own it is the first one, and stays. -/
theorem advance_resume {i : Fetched} {callee : Value} {args : List Value} {x : Machine}
    (hm : m.Apart hidden m') (hne : ground ≠ [])
    (ha : a.Twins .value Eq (Value.Twins .value hidden) [] a')
    (hcalling : (m.showing ([] ++ [a]) []).Calling i callee args x) (hop : i.op = .tailCall)
    (hresumes : Exec.Resumes callee args x) :
    Progress.Resumed hidden ground (m.showing ([] ++ [a]) []).advance
        (m'.showing (ground ++ [a']) []).advance ∨
      (m.showing ([] ++ [a]) []).Overflowing ∨ (m'.showing (ground ++ [a']) []).Overflowing := by
  obtain ⟨b, b', callee', args', rfl, hb, _, hidle, hcallee, hargs, hcalling'⟩ :=
    hcalling.twins (ρ := .exact hidden) ha m' ground
  obtain ⟨k, v, y, happly⟩ := hresumes
  have hagree : Exec.Agree (twinning .value hidden) (m.showing ([] ++ [b]) [])
      (m'.showing (ground ++ [b']) []) (Exec.apply callee args (m.showing ([] ++ [b]) []))
      (Exec.apply callee' args' (m'.showing (ground ++ [b']) [])) :=
    Exec.apply_agree (Or.inl rfl) hm.world hcallee hargs
  obtain ⟨level, hlevels, hphase, _⟩ := hm.single.2
  obtain ⟨level', hlevels', hphase', _⟩ := hm.single'.2
  obtain ⟨m₁, hfetch, hexecute⟩ := hcalling.execute
  obtain ⟨m₁', hfetch', hexecute'⟩ := hcalling'.execute
  rw [advance_running (m := m.showing ([] ++ [a]) []) hlevels hphase hfetch,
    advance_running (m := m'.showing (ground ++ [a']) []) hlevels' hphase' hfetch']
  suffices hconcur : ∃ low start, Spare low ∧ Exec.Concur .value hidden m m' low ground start False none
      (Exec.execute i m₁) (Exec.execute i m₁') by
    obtain ⟨low, start, hlow, hconcur⟩ := hconcur
    generalize hr : Exec.execute i m₁ = r at hconcur
    generalize hr' : Exec.execute i m₁' = r' at hconcur
    obtain hresumed | ⟨detail, x, rfl⟩ | ⟨detail, x, rfl⟩ | hfalse := hm.concurs hlow hconcur i.line
    · exact Or.inl hresumed
    · exact Or.inr (Or.inl ⟨detail, x, .execute hlevels hphase hfetch hr⟩)
    · exact Or.inr (Or.inr ⟨detail, x, .execute hlevels' hphase' hfetch' hr'⟩)
    · exact hfalse.elim
  rw [hexecute, hexecute', decide_eq_true hop, ← Exec.andThen_run, ← Exec.andThen_run]
  rw [happly] at hagree
  generalize hr' : Exec.apply callee' args' (m'.showing (ground ++ [b']) []) = r' at hagree
  cases hagree with
  | @ok _ _ w w' ht hw =>
    cases ht with
    | @resume id _ _ k' _ v' hk hv =>
      have hbeside : Beside (twinning .value hidden) m m' { m with world := w } { m' with world := w' } :=
        ⟨hw, rfl, rfl, rfl, rfl⟩
      have hcall : Exec.call callee args i.line true (m.showing ([] ++ [b]) []) =
          (do Exec.dropFinished true; Exec.resume k v : Exec Unit)
            ({ m with world := w }.showing ([] ++ [b]) []) := by
        rw [Exec.call, bind_of_ok happly]
        rfl
      have hcall' : Exec.call callee' args' i.line true (m'.showing (ground ++ [b']) []) =
          (do Exec.dropFinished true; Exec.resume k' v' : Exec Unit)
            ({ m' with world := w' }.showing (ground ++ [b']) []) := by
        rw [Exec.call, bind_of_ok hr']
        rfl
      have hfirst := Exec.dropFinished_showing { m with world := w } [] b [] true
      rw [if_neg fun h => Nat.not_lt_zero _ h.2.2] at hfirst
      have hdrop' := Exec.dropFinished_showing { m' with world := w' } ground b' [] true
      have hbounds : b'.handler = none ↔ b.handler = none := by
        rw [← Option.isNone_iff_eq_none, ← Option.isNone_iff_eq_none, ← Option.not_isSome,
          ← Option.not_isSome, hb.isSome_handler]
      by_cases hnone : b.handler = none
      · have hgoes : true = true ∧ b'.handler = none ∧
            Exec.baseOf ({ m' with world := w' } : Machine).thread.levels < ground.length :=
          ⟨rfl, hbounds.2 hnone, by
            rw [hm.single'.2.baseOf_eq]
            exact List.length_pos_iff.2 hne⟩
        rw [if_pos hgoes] at hdrop'
        refine ⟨[b], [], ?_, Exec.Concur.andThen none ?_⟩
        · rw [Spare, List.forall_mem_singleton]
          exact ⟨hidle hop, hnone⟩
        · have hresume : Exec.Concur .value hidden m m' [b] ground [] False ()
              (Exec.resume k v ({ m with world := w }.showing ([b] ++ []) []))
              (Exec.resume k' v' ({ m' with world := w' }.showing (ground ++ []) [])) :=
            Exec.Concur.resume hbeside .nil hk hv
          rw [List.append_nil ground] at hresume
          rw [hcall, hcall', bind_of_ok hfirst, bind_of_ok hdrop']
          exact hresume
      · rw [if_neg fun h => hnone (hbounds.1 h.2.1)] at hdrop'
        refine ⟨[], [], .nil, Exec.Concur.andThen none ?_⟩
        rw [hcall, hcall', bind_of_ok hfirst, bind_of_ok hdrop']
        exact Exec.Concur.resume hbeside (.cons hb .nil) hk hv

/-- One move of a computation in two places. -/
theorem advance (hm : m.Apart hidden m') (hlow : Spare low) (hground : boundsOf ground = [])
    (hne : ground ≠ [])
    (hpre : List.Forall₂ (Activation.Twins .value Eq (Value.Twins .value hidden) [.value]) pre pre')
    (ha : a.Twins .value Eq (Value.Twins .value hidden) [] a') :
    Progress.Resumed hidden ground (m.showing (low ++ (pre ++ [a])) []).advance
        (m'.showing (ground ++ (pre' ++ [a'])) []).advance ∨
      (m.showing (low ++ (pre ++ [a])) []).Overflowing ∨
      (m'.showing (ground ++ (pre' ++ [a'])) []).Overflowing ∨
      (m.showing (low ++ (pre ++ [a])) []).Invokes (Pairing.exact hidden).tells := by
  by_cases htail : low ++ pre = [] ∧ ∃ i callee args x,
      (m.showing (low ++ pre ++ [a]) []).Calling i callee args x ∧ i.op = .tailCall ∧
        Exec.Resumes callee args x
  · obtain ⟨hnil, i, callee, args, x, hcalling, hop, hresumes⟩ := htail
    obtain ⟨rfl, rfl⟩ := List.append_eq_nil_iff.1 hnil
    cases hpre
    exact (hm.advance_resume hne ha hcalling hop hresumes).imp_right (Or.imp_right Or.inl)
  · refine hm.advance_plain hlow hground hne hpre ha fun i callee args x hcalling hop hresumes hnil => ?_
    exact htail ⟨hnil, i, callee, args, x, hcalling, hop, hresumes⟩

end Machine.Apart

namespace Machine

/-- The number of a task that has ended goes to the threads that wait for it. -/
theorem finish_parallel {id : Int} {t t' : Thread} {result result' : Except RuntimeError Value}
    (ht : t.AwaitTask hidden ground t') (hworld : m.world.Related (twinning .value hidden) m'.world)
    (hwaiting : m.waiting = [(id, t)]) (hwaiting' : m'.waiting = [(id, t')])
    (hresult : OutcomesRelated (Value.Twins .value hidden) result result') :
    Progress.Resumed hidden ground (m.finish result) (m'.finish result') := by
  obtain ⟨low, mid, mid', hlow, hmid, hshows, hshows'⟩ := ht.shows
  simp only [finish, hwaiting, hwaiting']
  have hid : (Value.int (Int64.ofInt id)).Twins .value hidden (.int (Int64.ofInt id)) :=
    (twinning .value hidden).flat rfl
  rw [hshows, hshows', Thread.showing_push, Thread.showing_push]
  have hapart : Apart hidden
      { world := { m.world with tasks := m.world.tasks.store id result }, thread := t, waiting := [] }
      { world := { m'.world with tasks := m'.world.tasks.store id result' }, thread := t'
        waiting := [] } :=
    ⟨hworld.storeResult id hresult, ⟨rfl, ht.alone⟩, ⟨rfl, ht.alone'⟩⟩
  exact hapart.given hlow hmid hid

/-- One move of a computation in two places. -/
theorem Parallel.advance (hm : m.Parallel hidden ground m') (hground : boundsOf ground = [])
    (hne : ground ≠ []) :
    Progress.Resumed hidden ground m.advance m'.advance ∨ m.Overflowing ∨ m'.Overflowing ∨
      m.Invokes (Pairing.exact hidden).tells := by
  cases hm with
  | running hm hlow hpre ha => exact hm.advance hlow hground hne hpre ha
  | waiting ht hm =>
    obtain hproceed | ⟨_, hcause⟩ := hm.advance (Or.inl rfl) fun _ => ⟨rfl, rfl⟩
    · refine Or.inl ?_
      generalize m.advance = p at hproceed
      generalize m'.advance = p' at hproceed
      cases hproceed with
      | on hm => exact .on (.waiting ht hm)
      | returns hreturns =>
        rw [deliver_finish hreturns.first.1, deliver_finish hreturns.first.2]
        exact finish_parallel ht hreturns.world hreturns.waiting hreturns.waiting' hreturns.result
    · exact Or.inr hcause

/-- How a computation in two places ends. If it comes to a value, the thread of its own returns it and
the program gets it; if it fails, both machines fail alike. But a value may also be stranded: then the
program gets it, and the thread of its own, which has no frame left, fails. -/
inductive Concludes (hidden : Bool) (ground : List Activation) (m m' : Machine) : Prop
  | returned {i j : Nat} {v v' : Value} {x : Machine}
    (hended : (m.after i).advance = .ended (.returned v) x)
    (hshows : (m'.after j).thread = (m'.after j).thread.showing ground [v'])
    (hv : v.Twins .value hidden v') (hworld : x.world.Related (twinning .value hidden) (m'.after j).world)
  | failed {i j : Nat} {e : RuntimeError} {x x' : Machine}
    (hended : (m.after i).advance = .ended (.failed e) x)
    (hended' : (m'.after j).advance = .ended (.failed e) x')
    (hworld : x.world.Related (twinning .value hidden) x'.world)
  | stranded {i j : Nat} {v v' : Value} {x : Machine}
    (hstranded : (m.after i).thread = (m.after i).thread.showing [] [v])
    (hended : (m.after i).advance = .ended (.failed (.invalidBytecode "no active frame")) x)
    (hshows : (m'.after j).thread = (m'.after j).thread.showing ground [v'])
    (hv : v.Twins .value hidden v') (hworld : x.world.Related (twinning .value hidden) (m'.after j).world)

theorem after_add (i j : Nat) : m.after (i + j) = (m.after i).after j := by
  induction j with
  | zero => rfl
  | succ j ih => rw [← Nat.add_assoc, after_succ, ih, ← after_succ]

theorem ends_of_leads {outcome : Outcome} {x : Machine}
    (hleads : Progress.Leads m.advance (.ended outcome x)) :
    ∃ i, (m.after i).advance = .ended outcome x := by
  generalize hmove : m.advance = p at hleads
  generalize hlast : Progress.ended outcome x = q at hleads
  induction hleads generalizing m with
  | refl =>
    refine ⟨0, ?_⟩
    rw [after, hmove]
  | @move m₁ q _ ih =>
    obtain ⟨i, hended⟩ := ih rfl hlast
    refine ⟨i + 1, ?_⟩
    rw [after, hmove]
    exact hended

/-- Idle activations hand a value on until the call returns it. -/
theorem Single.leads_of_spare (hm : m.Single) (hlow : Spare low) (v : Value) :
    Progress.Leads (m.handing v low) (m.handing v []) := by
  induction low using List.reverseRecOn with
  | nil => exact .refl _
  | append_singleton low b ih =>
    rw [handing_of_ne v (by simp)]
    exact (hm.leads_of_idle (hlow b (by simp)).1 v).trans (ih fun c hc => hlow c (by simp [hc]))

/-- A call without frames fails. -/
theorem Single.advance_stranded (hm : m.Single) (v : Value) :
    ∃ x, (m.showing [] [v]).advance = .ended (.failed (.invalidBytecode "no active frame")) x ∧
      x.world = m.world := by
  rw [hm.2.running.advance_eq]
  exact Single.stop_eq (m := m.showing [] [v]) hm (.invalidBytecode "no active frame") 0

/-- What a computation in two places comes to, if there is room for it. -/
theorem Parallel.concludes (hm : m.Parallel hidden ground m') (hground : boundsOf ground = [])
    (hne : ground ≠ []) (hfree : ∀ n, ¬ (m.after n).Overflowing ∧ ¬ (m'.after n).Overflowing ∧
      ¬ (m.after n).Invokes (Pairing.exact hidden).tells) :
    (∀ n, (m.after n).Parallel hidden ground (m'.after n) ∧
      (∃ x, (m.after n).advance = .more x) ∧ ∃ x', (m'.after n).advance = .more x') ∨
      m.Concludes hidden ground m' := by
  by_cases hconcludes : m.Concludes hidden ground m'
  · exact Or.inr hconcludes
  refine Or.inl ?_
  have hstep : ∀ n, (m.after n).Parallel hidden ground (m'.after n) →
      ∃ x x', (m.after n).advance = .more x ∧ (m'.after n).advance = .more x' ∧
        x.Parallel hidden ground x' := by
    intro n hn
    obtain ⟨hroom, hroom', htells⟩ := hfree n
    have hresumed := (hn.advance hground hne).resolve_right
      fun h => h.elim hroom fun h => h.elim hroom' htells
    generalize hmove : (m.after n).advance = p at hresumed
    generalize hmove' : (m'.after n).advance = p' at hresumed
    cases hresumed with
    | on hx => exact ⟨_, _, rfl, rfl, hx⟩
    | @handed x x' low v v' hx hlow hv =>
      have hleads := hx.single.leads_of_spare hlow v
      rw [← hmove] at hleads
      obtain ⟨i, hended⟩ := ends_of_leads hleads
      rw [← after_add] at hended
      have hnext := after_succ_of_more hmove'
      refine absurd (.returned hended (j := n + 1) ?_ hv ?_) hconcludes
      · rw [hnext]
        rfl
      · rw [hnext]
        exact hx.world
    | @stranded x x' v v' hx hv =>
      have hnext := after_succ_of_more hmove
      have hnext' := after_succ_of_more hmove'
      obtain ⟨y, hended, hy⟩ := hx.single.advance_stranded v
      rw [← hnext] at hended
      refine absurd (.stranded (i := n + 1) (j := n + 1) ?_ hended ?_ hv ?_) hconcludes
      · rw [hnext]
        rfl
      · rw [hnext']
        rfl
      · rw [hnext', hy]
        exact hx.world
    | failed hworld => exact absurd (.failed hmove hmove' hworld) hconcludes
  have hall : ∀ n, (m.after n).Parallel hidden ground (m'.after n) := by
    intro n
    induction n with
    | zero => exact hm
    | succ n ih =>
      obtain ⟨x, x', hmove, hmove', hx⟩ := hstep n ih
      rw [after_succ_of_more hmove, after_succ_of_more hmove']
      exact hx
  intro n
  obtain ⟨x, x', hmove, hmove', _⟩ := hstep n (hall n)
  exact ⟨hall n, ⟨x, hmove⟩, x', hmove'⟩

theorem call_continuation (id : Nat) (k : Continuation Value) (v : Value) (line : Nat) (tail : Bool)
    (m : Machine) : Exec.call (.continuation id k) [v] line tail m =
      (do Exec.dropFinished tail; Exec.resume k v : Exec Unit) m := rfl

/-- An embedding calls a suspended computation on a thread at rest. -/
theorem begin_resumes {w : World} {t : Thread} {id : Nat} {k : Continuation Value}
    {b : Activation} {above : List Activation} (ht : t.Rests) (hk : k = .ofActs (b :: above))
    (hb : b.handler.isSome = true)
    (hroom : ¬ (Machine.begin w t (.continuation id k) [v]).Overflowing) :
    ∃ (n : Machine) (label : Nat), n.Single ∧ n.world = w ∧
      (Machine.begin w t (.continuation id k) [v]).after 2 =
        n.showing ([] ++ b.relabel label :: above) [v] := by
  subst hk
  generalize hbegin : Machine.begin w t (.continuation id (.ofActs (b :: above))) [v] = m at hroom
  have hlevels : m.thread.levels =
      [⟨0, 0, 0, .made (.continuation id (.ofActs (b :: above))) [v], 0, .finish⟩] := by
    rw [← hbegin, Machine.begin, ht.levels, ht.shows]
    rfl
  have hshows : m = m.showing [] [] := by
    rw [← hbegin, Machine.begin, ht.levels, ht.shows]
    rfl
  have hopening : (m.setPhase .opening).thread.levels = [⟨0, 0, 0, .opening, 0, .finish⟩] := by
    simp only [setPhase, Thread.setPhase, hlevels]
  obtain ⟨⟨clauses, label⟩, hb⟩ := Option.isSome_iff_exists.1 hb
  have hresume := Exec.resume_showing (m.setPhase .opening) [] above b clauses label hb v
  rw [← setPhase_showing hshows .opening] at hresume
  have hcall : Exec.call (.continuation id (.ofActs (b :: above))) [v] 0 false (m.setPhase .opening) =
      Exec.resume (.ofActs (b :: above)) v (m.setPhase .opening) := by
    rw [call_continuation, bind_of_ok (Exec.dropFinished_false _)]
  obtain ⟨_, detail, hrefused⟩ | ⟨_, hresumed⟩ := hresume
  · exact absurd ⟨detail, _, .call hlevels rfl (hcall.trans hrefused)⟩ hroom
  · have hmove : m.advance = .more ((m.setPhase .opening).relabeled.showing
        ([] ++ b.relabel ((m.setPhase .opening).thread.lastLabel + 1) :: above) [v]) := by
      rw [advance_made hlevels rfl, hcall, hresumed]
      rfl
    generalize hnext : (m.setPhase .opening).relabeled.showing
      ([] ++ b.relabel ((m.setPhase .opening).thread.lastLabel + 1) :: above) [v] = n at hmove
    have hcalls : n.thread.levels = [⟨0, 0, 0, .opening, 0, .finish⟩] := by
      rw [← hnext]
      exact hopening
    have hthread : n.thread = n.thread.showing
        ([] ++ b.relabel ((m.setPhase .opening).thread.lastLabel + 1) :: above) [v] := by
      rw [← hnext]
      rfl
    have hsettle : n.advance = .more (n.setPhase .running) := by
      rw [advance_opening hcalls rfl]
      exact settle_entered ⟨rfl, rfl, rfl⟩ (List.cons_ne_nil _ _) hthread
    have hafter : m.after 2 = n.setPhase .running := by
      simp only [after, hmove, hsettle]
    refine ⟨n.setPhase .running, (m.setPhase .opening).thread.lastLabel + 1, ⟨?_, ?_⟩, ?_, ?_⟩
    · rw [← hnext, ← hbegin]
      rfl
    · refine ⟨⟨0, 0, 0, .running, 0, .finish⟩, ?_, rfl, rfl, rfl⟩
      simp only [setPhase, Thread.setPhase, hcalls]
    · rw [← hnext, ← hbegin]
      rfl
    · rw [hafter]
      exact setPhase_showing (eq_showing hthread) .running

/-- The last activation of a program calls a suspended computation. -/
theorem call_resumes {i : Fetched} {x : Machine} {id : Nat} {k : Continuation Value} {b : Activation}
    {above : List Activation} (hm : m.Single)
    (hcalling : m.Calling i (.continuation id k) [v] x) (hx : x = m.showing (pre ++ [a]) [])
    (hk : k = .ofActs (b :: above)) (hb : b.handler.isSome = true) (hroom : ¬ m.Overflowing) :
    ∃ ground label, ground ≠ [] ∧ ground <+: pre ++ [a] ∧
      m.after 1 = m.relabeled.showing (ground ++ b.relabel label :: above) [v] := by
  subst hk
  obtain ⟨level, hlevels, hphase, _⟩ := hm.2
  obtain ⟨m₁, hfetch, hexecute⟩ := hcalling.execute
  obtain ⟨ground, hne, hstarts, hdrop⟩ : ∃ ground, ground ≠ [] ∧ ground <+: pre ++ [a] ∧
      Exec.dropFinished (decide (i.op = .tailCall)) x = .ok () (m.showing ground []) := by
    have hdropped := Exec.dropFinished_showing m pre a [] (decide (i.op = .tailCall))
    rw [← hx] at hdropped
    split at hdropped
    next hgoes =>
      refine ⟨pre, ?_, List.prefix_append _ _, hdropped⟩
      rw [hm.2.baseOf_eq] at hgoes
      exact List.length_pos_iff.1 hgoes.2.2
    next =>
      rw [hx] at hdropped ⊢
      exact ⟨pre ++ [a], by simp, List.prefix_refl _, hdropped⟩
  obtain ⟨⟨clauses, label⟩, hb⟩ := Option.isSome_iff_exists.1 hb
  rw [call_continuation, bind_of_ok hdrop] at hexecute
  obtain ⟨_, detail, hrefused⟩ | ⟨_, hresumed⟩ := Exec.resume_showing m ground above b clauses label hb v
  · rw [hrefused] at hexecute
    exact absurd ⟨detail, _, .execute hlevels hphase hfetch hexecute⟩ hroom
  · rw [hresumed] at hexecute
    refine ⟨ground, m.thread.lastLabel + 1, hne, hstarts, ?_⟩
    rw [after, advance_running hlevels hphase hfetch, hexecute]
    rfl

end Machine

end Resumable
