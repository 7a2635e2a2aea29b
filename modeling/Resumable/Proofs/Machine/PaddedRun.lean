import Resumable.Proofs.Machine.PaddedCall
import Resumable.Proofs.Machine.TailRun
import Resumable.Proofs.Machine.TwinRun

/-!
Two machines of which one keeps a handler in force that the other lacks. As long as no effect asks for
that handler, both do the same, move by move, until an idle boundary of the handler returns: then the
other machine waits. So if there is room, both come to the same end.
-/

namespace Resumable

variable {bound : Bound} {acts acts' pre pre' : List Activation} {a a' : Activation}

namespace Exec.KeepUp

variable {s s' m m' x : Machine} {pairs : List (Value × Value)}

/-- A handler is installed. -/
theorem install {clauses clauses' : List (Effect × Value)} {body body' : Value}
    (hm : Machine.Beside (padding bound) s s' m m')
    (hacts : Padded bound (Value.Pads bound) acts acts')
    (hclauses : ClausesTwin .value Eq (Value.Pads bound) clauses clauses') (hbody : body.Pads bound body') :
    KeepUp bound s s' () (Exec.install clauses body (m.showing acts []))
      (Exec.install clauses' body' (m'.showing acts' [])) := by
  have hrefuse : KeepUp bound s s' ()
      (.error (.error (.typeError
        ("handled body must be a zero-argument function, got " ++ body.typeName))) (m.showing acts []))
      (.error (.error (.typeError
        ("handled body must be a zero-argument function, got " ++ body'.typeName)))
        (m'.showing acts' [])) := by
    rw [Likeness.typeName_eq (L := padding bound) hbody]
    exact .failed (hm.showing _ _ _ _)
  cases body with
  | closure id f env =>
    obtain ⟨env', rfl, _⟩ := hbody.closure_inv
    by_cases harity : f.arity = 0
    · obtain ⟨_, detail, n, herror, _⟩ | ⟨_, hok⟩ := install_showing m acts clauses id f env harity
      · rw [herror]
        exact left
      obtain ⟨_, detail', n', herror', _⟩ | ⟨_, hok'⟩ :=
        install_showing m' acts' clauses' id f env' harity
      · rw [herror']
        exact right
      · rw [hok, hok']
        exact .entered hm.relabeled hacts (Activation.enter_pads hbody .nil (Or.inl (.some hclauses)))
    · have hrun : ∀ (n : Machine) (clauses : List (Effect × Value)) (env : List (Symbol × Value)),
          Exec.install clauses (.closure id f env) n = .error (.error (.typeError
            ("handled body must be a zero-argument function, got " ++
              (Value.closure id f env).typeName))) n := by
        intro n clauses env
        simp only [Exec.install, if_neg harity]
        rfl
      rw [hrun, hrun]
      exact hrefuse
  | _ => cases hbody.unfold.alike <;> exact hrefuse

/-- The last activations go on with the values that an instruction leaves. -/
theorem goesOn {leaves : List Kind} (hm : Machine.Beside (padding bound) s s' m m')
    (hpre : Padded bound (Value.Pads bound) pre pre')
    (ha : a.Pads bound (Value.Pads bound) leaves a') (pairs : List (Value × Value))
    (hpairs : List.Forall₂ (Kind.value.Joins Eq (Value.Pads bound)) leaves pairs) :
    KeepUp bound s s' (none : Option Value)
      (.ok none (m.showing (pre ++ [a]) (pairs.map Prod.fst)))
      (.ok none (m'.showing (pre' ++ [a']) (pairs.map Prod.snd))) := by
  rw [← List.append_nil (pairs.map Prod.fst), ← List.append_nil (pairs.map Prod.snd),
    ← Machine.showing_pushAll, ← Machine.showing_pushAll]
  exact .entered hm hpre (ha.pushAll pairs hpairs)

/-- Each instruction without jump, executed by a machine `x` whose next move raises what a call of the
instruction raises. -/
theorem straight {op : Op} {operand : Nat} {takes leaves : List Kind}
    (hm : Machine.Beside (padding bound) s s' m m') (hbase : baseOf s.thread.levels = 0)
    (hbase' : baseOf s'.thread.levels = 0) (hpre : Padded bound (Value.Pads bound) pre pre')
    (ha : a.Pads bound (Value.Pads bound) leaves a') (hground : Grounded .value (pre ++ [a]))
    (hstraight : a.code.Straight .value op operand takes leaves)
    (hpairs : List.Forall₂ (Kind.value.Joins Eq (Value.Pads bound)) takes pairs)
    (hidle : op = .tailCall → a.Idle) (hspared : x.Spares bound)
    (hraises : (op = .call ∨ op = .tailCall) → ∀ callee args effect payload n,
      pairs.map Prod.fst = args ++ [callee] →
      apply callee args (m.showing (pre ++ [a]) []) = .ok (.raise effect payload) n →
      x.Raises n effect payload) (start line : Nat) :
    KeepUp bound s s' none
      (execute { op, operand, start, line } (m.showing (pre ++ [a]) (pairs.map Prod.fst)))
      (execute { op, operand, start, line } (m'.showing (pre' ++ [a']) (pairs.map Prod.snd))) := by
  by_cases hop : op ≠ .call ∧ op ≠ .tailCall ∧ op ≠ .handle
  · have hstays : StayWithin .value (padding bound) m m' pre pre' a a' leaves _ _ :=
      stays_within Value.pads_closure hm.world ha.bare (Or.inl rfl) hstraight hpairs hop start line
    generalize execute _ (m.showing (pre ++ [a]) (pairs.map Prod.fst)) = r at hstays ⊢
    generalize execute _ (m'.showing (pre' ++ [a']) (pairs.map Prod.snd)) = r' at hstays ⊢
    cases hstays with
    | goesOn hw hb hhandler hhandler' hpairs =>
      exact goesOn (hm.withWorld hw) hpre (ha.update hb hhandler hhandler') _ hpairs
    | fails e => exact .failed (hm.showing _ _ _ _)
  cases hstraight with
  | call =>
    obtain ⟨args, args', callee, callee', hfst, hsnd, hlength, hlength', hargs, hcallee⟩ :=
      joins_call hpairs
    rw [hfst, hsnd, ← List.nil_append (args ++ [callee]), ← List.nil_append (args' ++ [callee'])]
    refine andThen none ?_
    rw [callTop_showing m _ [] line hlength, callTop_showing m' _ [] line hlength']
    exact call hm hbase hbase' (hpre.concat ha) hcallee hargs hspared
      (fun effect payload n => hraises (Or.inl rfl) callee args effect payload n hfst) line
  | tailCall =>
    obtain ⟨args, args', callee, callee', hfst, hsnd, hlength, hlength', hargs, hcallee⟩ :=
      joins_call hpairs
    rw [hfst, hsnd, ← List.nil_append (args ++ [callee]), ← List.nil_append (args' ++ [callee'])]
    refine andThen none ?_
    rw [callTop_showing m _ [] line hlength, callTop_showing m' _ [] line hlength']
    exact callTail hm hbase hbase' hpre ha (hidle rfl) hground hcallee hargs hspared
      (fun effect payload n => hraises (Or.inr rfl) callee args effect payload n hfst) line
  | handle =>
    obtain ⟨_, _, ⟨id, id', clauses, clauses', rfl, _, hclauses⟩, hrest, rfl⟩ :=
      List.forall₂_cons_left_iff.1 hpairs
    obtain ⟨p, hp, rfl⟩ := forall₂_singleton_left hrest
    simp only [List.map_cons, List.map_nil]
    rw [← List.nil_append [Value.handler id clauses, p.1],
      ← List.nil_append [Value.handler id' clauses', p.2], execute_handle, execute_handle]
    exact andThen none (install hm (hpre.concat ha) hclauses hp)
  | _ => exact absurd (by decide) hop

end Exec.KeepUp

/-- How far two calls have come: they are about to be made, or a value is there for what waits for it,
or the last of their activations run. -/
inductive UnderwayPadded (bound : Bound) : Phase → Phase → List Activation → List Activation →
    List Value → List Value → Prop
  | made {callee callee' : Value} (hcallee : callee.Pads bound callee') :
    UnderwayPadded bound (.made callee []) (.made callee' []) [] [] [] []
  | given {phase : Phase} {acts acts' : List Activation} {v v' : Value}
    (hphase : phase = .opening ∨ phase = .running) (hacts : Padded bound (Value.Pads bound) acts acts')
    (hv : v.Pads bound v') : UnderwayPadded bound phase phase acts acts' [v] [v']
  | entered {phase : Phase} {pre pre' : List Activation} {a a' : Activation}
    (hphase : phase = .opening ∨ phase = .running) (hpre : Padded bound (Value.Pads bound) pre pre')
    (ha : a.Pads bound (Value.Pads bound) [] a') :
    UnderwayPadded bound phase phase (pre ++ [a]) (pre' ++ [a']) [] []

namespace Thread

/-- Two threads that run. -/
inductive PadsRunning (bound : Bound) (t t' : Thread) : Prop
  | intro {phase phase' : Phase} {acts acts' : List Activation} {extra extra' : List Value}
    (hsole : t.Sole phase) (hsole' : t'.Sole phase')
    (hunderway : UnderwayPadded bound phase phase' acts acts' extra extra')
    (hshows : t = t.showing acts extra) (hshows' : t' = t'.showing acts' extra')

/-- Two threads that wait for a value. -/
inductive PadsWaiting (bound : Bound) (t t' : Thread) : Prop
  | intro {phase : Phase} {acts acts' : List Activation} (hphase : phase = .opening ∨ phase = .running)
    (hsole : t.Sole phase) (hsole' : t'.Sole phase)
    (hacts : Padded bound (Value.Pads bound) acts acts') (hshows : t = t.showing acts [])
    (hshows' : t' = t'.showing acts' [])

/-- Two threads that wait get their values. -/
theorem PadsWaiting.push {t t' : Thread} {v v' : Value} (h : t.PadsWaiting bound t')
    (hv : v.Pads bound v') : (t.push v).PadsRunning bound (t'.push v') := by
  obtain ⟨hphase, hsole, hsole', hacts, hshows, hshows'⟩ := h
  refine .intro hsole hsole' (.given hphase hacts hv) ?_ ?_
  · rw [hshows, showing_push]
    rfl
  · rw [hshows', showing_push]
    rfl

end Thread

/-- Threads that wait for the same tasks. -/
def WaitingPads (bound : Bound) : List (Int × Thread) → List (Int × Thread) → Prop :=
  List.Forall₂ fun w w' => w'.1 = w.1 ∧ w.2.PadsWaiting bound w'.2

/-- Two machines that do the same, except that in the first the handler `bound` is in force where it is
not in the second. -/
structure Machine.Pads (bound : Bound) (m m' : Machine) : Prop where
  world : m.world.Related (padding bound) m'.world
  waiting : WaitingPads bound m.waiting m'.waiting
  thread : m.thread.PadsRunning bound m'.thread

/-- Outcomes that are the same up to a handler. -/
inductive Outcome.Pads (bound : Bound) : Outcome → Outcome → Prop
  | returned {v v' : Value} (hv : v.Pads bound v') : Pads bound (.returned v) (.returned v')
  | failed (e : RuntimeError) : Pads bound (.failed e) (.failed e)

/-- What a move of two machines leads to: they go on alike, or both come to the same end. -/
inductive Progress.Pads (bound : Bound) : Progress → Progress → Prop
  | more {m m' : Machine} (hm : m.Pads bound m') : Pads bound (.more m) (.more m')
  | ended {outcome outcome' : Outcome} {m m' : Machine} (houtcome : outcome.Pads bound outcome')
    (hworld : m.world.Related (padding bound) m'.world) :
    Pads bound (.ended outcome m) (.ended outcome' m')

namespace Machine

variable {m m' s s' : Machine} {phase : Phase}

/-- A thread ends, and the one that waits for it goes on. -/
theorem finish_pads {result result' : Except RuntimeError Value}
    (hworld : m.world.Related (padding bound) m'.world) (hwaiting : WaitingPads bound m.waiting m'.waiting)
    (hresult : OutcomesRelated (Value.Pads bound) result result') :
    Progress.Pads bound (m.finish result) (m'.finish result') := by
  unfold finish
  generalize m.waiting = tasks, m'.waiting = tasks' at hwaiting
  cases hwaiting with
  | nil =>
    obtain ⟨v, v', rfl, rfl, hv⟩ | ⟨e, rfl, rfl⟩ := hresult.inv
    · exact .ended (.returned hv) hworld
    · exact .ended (.failed e) hworld
  | @cons w w' rest rest' hw hrest =>
    obtain ⟨id, t⟩ := w
    obtain ⟨id', t'⟩ := w'
    obtain ⟨rfl, ht⟩ := hw
    exact .more ⟨hworld.storeResult id' hresult, hrest, ht.push ((padding bound).flat rfl)⟩

/-- The only call of each thread fails. -/
theorem stop_pads (hm : Beside (padding bound) s s' m m') (hsole : s.thread.Sole phase)
    (hsole' : s'.thread.Sole phase) (hwaiting : WaitingPads bound s.waiting s'.waiting)
    (e : RuntimeError) (line : Nat) :
    Progress.Pads bound (m.stop line (.error e)) (m'.stop line (.error e)) := by
  have hone : m.thread.Sole phase := by rwa [Thread.Sole, hm.levels]
  have hone' : m'.thread.Sole phase := by rwa [Thread.Sole, hm.levels']
  obtain ⟨t, hstop⟩ := hone.stop_eq e line
  obtain ⟨t', hstop'⟩ := hone'.stop_eq e line
  rw [hstop, hstop']
  refine finish_pads hm.world ?_ rfl
  simp only [hm.waiting, hm.waiting']
  exact hwaiting

/-- The only call of each thread returns. -/
theorem answer_pads {v v' : Value} (hworld : m.world.Related (padding bound) m'.world)
    (hwaiting : WaitingPads bound m.waiting m'.waiting) (hsole : m.thread.Sole phase)
    (hsole' : m'.thread.Sole phase) (hv : v.Pads bound v') :
    Progress.Pads bound (m.answer v) (m'.answer v') := by
  obtain ⟨t, hanswer⟩ := hsole.answer_eq v
  obtain ⟨t', hanswer'⟩ := hsole'.answer_eq v'
  rw [hanswer, hanswer']
  exact finish_pads hworld hwaiting hv

/-- A thread shows what its only call has come to. -/
theorem pads_showing {phase' : Phase} {extra extra' : List Value}
    (hworld : m.world.Related (padding bound) m'.world) (hwaiting : WaitingPads bound m.waiting m'.waiting)
    (hsole : m.thread.Sole phase) (hsole' : m'.thread.Sole phase')
    (hunderway : UnderwayPadded bound phase phase' acts acts' extra extra') :
    (m.showing acts extra).Pads bound (m'.showing acts' extra') :=
  ⟨hworld, hwaiting, .intro hsole hsole' hunderway rfl rfl⟩

/-- What actions come to that keep up, where the only call of each thread waits. -/
theorem keepUp_inv {α : Type} {x : α} {r r' : EStateM.Result Stop Machine α}
    (h : Exec.KeepUp bound s s' x r r') (hphase : phase = .opening ∨ phase = .running)
    (hsole : s.thread.Sole phase) (hsole' : s'.thread.Sole phase)
    (hwaiting : WaitingPads bound s.waiting s'.waiting) (hroom : ¬ Exec.Overflows r)
    (hroom' : ¬ Exec.Overflows r') :
    (∃ m m', r = .ok x m ∧ r' = .ok x m' ∧ m.Pads bound m') ∨
      ∃ e m m', r = .error (.error e) m ∧ r' = .error (.error e) m' ∧
        ∀ line, Progress.Pads bound (m.stop line (.error e)) (m'.stop line (.error e)) := by
  have hone : ∀ {m m' : Machine}, Beside (padding bound) s s' m m' →
      m.thread.Sole phase ∧ m'.thread.Sole phase ∧ WaitingPads bound m.waiting m'.waiting := by
    intro m m' hm
    refine ⟨by rwa [Thread.Sole, hm.levels], by rwa [Thread.Sole, hm.levels'], ?_⟩
    rwa [hm.waiting, hm.waiting']
  cases h with
  | given hm hacts hv =>
    obtain ⟨hsole, hsole', hwaiting⟩ := hone hm
    exact Or.inl ⟨_, _, rfl, rfl,
      pads_showing hm.world hwaiting hsole hsole' (.given hphase hacts hv)⟩
  | entered hm hpre ha =>
    obtain ⟨hsole, hsole', hwaiting⟩ := hone hm
    exact Or.inl ⟨_, _, rfl, rfl,
      pads_showing hm.world hwaiting hsole hsole' (.entered hphase hpre ha)⟩
  | @spawned m m' acts acts' callee callee' hm hacts hcallee =>
    obtain ⟨hsole, hsole', hwaiting⟩ := hone hm
    obtain ⟨hid, hdrawn⟩ := hm.world.drawTask rfl
    have htask : ∀ callee : Value, Thread.Sole
        { limits := m.thread.limits, levels := [taskLevel callee] } (.made callee []) :=
      fun callee => ⟨_, rfl, rfl, rfl, rfl⟩
    have htask' : ∀ callee : Value, Thread.Sole
        { limits := m'.thread.limits, levels := [taskLevel callee] } (.made callee []) :=
      fun callee => ⟨_, rfl, rfl, rfl, rfl⟩
    refine Or.inl ⟨_, _, rfl, rfl, hdrawn, ?_, .intro (htask _) (htask' _) (.made hcallee) rfl rfl⟩
    exact .cons ⟨hid, .intro hphase hsole hsole' hacts rfl rfl⟩ hwaiting
  | failed hm => exact Or.inr ⟨_, _, _, rfl, rfl, stop_pads hm hsole hsole' hwaiting _⟩
  | refused hcause => exact (hcause.elim hroom hroom').elim

/-- The only call of each thread is made. -/
theorem advance_pads_made {callee callee' : Value} (hworld : m.world.Related (padding bound) m'.world)
    (hwaiting : WaitingPads bound m.waiting m'.waiting) (hsole : m.thread.Sole (.made callee []))
    (hsole' : m'.thread.Sole (.made callee' [])) (hcallee : callee.Pads bound callee')
    (hshows : m.thread = m.thread.showing [] []) (hshows' : m'.thread = m'.thread.showing [] [])
    (hspared : m.Spares bound) (hroom : ¬ m.Overflowing) (hroom' : ¬ m'.Overflowing) :
    Progress.Pads bound m.advance m'.advance := by
  have hopen : (m.setPhase .opening).thread.Sole .opening := hsole.setPhase .opening
  have hopen' : (m'.setPhase .opening).thread.Sole .opening := hsole'.setPhase .opening
  obtain ⟨level, hlevels, hphase, _⟩ := hsole
  obtain ⟨level', hlevels', hphase', _⟩ := hsole'
  have hbeside : Beside (padding bound) (m.setPhase .opening) (m'.setPhase .opening)
      (m.setPhase .opening) (m'.setPhase .opening) := ⟨hworld, rfl, rfl, rfl, rfl⟩
  have hraises : ∀ effect payload n, Exec.apply callee [] ((m.setPhase .opening).showing [] []) =
      .ok (.raise effect payload) n → m.Raises n effect payload := by
    intro effect payload n happly
    rw [← setPhase_showing (eq_showing hshows)] at happly
    exact .made hlevels hphase happly
  have hkeep := Exec.KeepUp.call hbeside hopen.baseOf_eq hopen'.baseOf_eq .nil hcallee .nil hspared
    hraises 0
  rw [← setPhase_showing (eq_showing hshows), ← setPhase_showing (eq_showing hshows')] at hkeep
  rw [advance_made hlevels hphase, advance_made hlevels' hphase']
  generalize hr : Exec.call callee [] 0 false (m.setPhase .opening) = r at hkeep
  generalize hr' : Exec.call callee' [] 0 false (m'.setPhase .opening) = r' at hkeep
  have hfits : ¬ Exec.Overflows r := by
    rintro ⟨detail, n, rfl⟩
    exact hroom ⟨detail, n, .call hlevels hphase hr⟩
  have hfits' : ¬ Exec.Overflows r' := by
    rintro ⟨detail, n, rfl⟩
    exact hroom' ⟨detail, n, .call hlevels' hphase' hr'⟩
  obtain ⟨n, n', rfl, rfl, hn⟩ | ⟨e, n, n', rfl, rfl, hstop⟩ :=
    keepUp_inv hkeep (Or.inl rfl) hopen hopen' hwaiting hfits hfits'
  · exact .more hn
  · exact hstop 0

/-- The only call of each thread has been made. -/
theorem advance_pads_opening {extra extra' : List Value} (hworld : m.world.Related (padding bound) m'.world)
    (hwaiting : WaitingPads bound m.waiting m'.waiting) (hsole : m.thread.Sole .opening)
    (hsole' : m'.thread.Sole .opening)
    (hunderway : UnderwayPadded bound .opening .opening acts acts' extra extra')
    (hground : Grounded .value acts) :
    Progress.Pads bound (m.showing acts extra).advance (m'.showing acts' extra').advance := by
  have hsettles : acts ≠ [] → acts' ≠ [] →
      UnderwayPadded bound .running .running acts acts' extra extra' →
      Progress.Pads bound (m.showing acts extra).advance (m'.showing acts' extra').advance := by
    intro hne hne' hrunning
    have hshown : (m.showing acts extra).thread.Sole .opening := hsole
    have hshown' : (m'.showing acts' extra').thread.Sole .opening := hsole'
    have hshows : ∀ (t : Thread) acts extra, (t.showing acts extra).setPhase .running =
        ((t.showing acts extra).setPhase .running).showing acts extra := by
      intro t acts extra
      rw [Thread.setPhase_showing, Thread.showing_showing]
    rw [hsole.advance_settle hne, hsole'.advance_settle hne']
    exact .more ⟨hworld, hwaiting, .intro (hshown.setPhase .running) (hshown'.setPhase .running) hrunning
      (hshows _ _ _) (hshows _ _ _)⟩
  cases hunderway with
  | @given _ _ _ v v' _ hacts hv =>
    by_cases hnil : acts = []
    · subst hnil
      obtain rfl := hacts.eq_nil
      obtain ⟨t, hmove⟩ := hsole.advance_given v
      obtain ⟨t', hmove'⟩ := hsole'.advance_given v'
      rw [hmove, hmove']
      exact finish_pads hworld hwaiting hv
    · exact hsettles hnil (hacts.ne_nil hground hnil) (.given (Or.inr rfl) hacts hv)
  | entered _ hpre ha => exact hsettles (by simp) (by simp) (.entered (Or.inr rfl) hpre ha)

/-- An instruction that finds no room. -/
theorem overflowing_of_execute {op : Op} {operand line start : Nat} {ops vs : List Value}
    (hm : m.thread.Running) (hip : a.ip = start) (hat : a.code.At start op operand line)
    (hoperands : a.operands = ops ++ vs)
    (hover : Exec.Overflows (Exec.execute { op := op.narrow, operand, start, line }
      (m.showing (pre ++ [{ a with ip := start + 1 + op.width, operands := ops }]) vs))) :
    (m.showing (pre ++ [a]) []).Overflowing := by
  subst hip
  obtain ⟨level, levels, hlevels, hphase⟩ := hm
  obtain ⟨detail, n, hstop⟩ := hover
  have hfetch := Exec.fetch_showing m pre a [] hat
  rw [showing_fetched (a.ip + 1 + op.width) hoperands] at hfetch
  rw [← Exec.execute_narrow] at hstop
  exact ⟨detail, n, .execute hlevels hphase hfetch hstop⟩

/-- The last activation of each thread executes an instruction. -/
theorem advance_pads_running (hworld : m.world.Related (padding bound) m'.world)
    (hwaiting : WaitingPads bound m.waiting m'.waiting) (hsole : m.thread.Sole .running)
    (hsole' : m'.thread.Sole .running) (hpre : Padded bound (Value.Pads bound) pre pre')
    (ha : a.Pads bound (Value.Pads bound) [] a') (hground : Grounded .value (pre ++ [a]))
    (hspared : (m.showing (pre ++ [a]) []).Spares bound)
    (hroom : ¬ (m.showing (pre ++ [a]) []).Overflowing)
    (hroom' : ¬ (m'.showing (pre' ++ [a']) []).Overflowing) :
    Progress.Pads bound (m.showing (pre ++ [a]) []).advance (m'.showing (pre' ++ [a']) []).advance := by
  have hip : a'.ip = a.ip := ha.bare.ip
  have hcode : a'.code = a.code := ha.bare.code
  have hat' : ∀ {op : Op} {operand line : Nat}, a.code.At a.ip op operand line →
      a'.code.At a.ip op operand line := by
    intro op operand line hat
    rwa [hcode]
  have hcalls := hsole.running
  have hcalls' := hsole'.running
  cases ha.bare.next with
  | @ret line v v' hat hoperands hoperands' hv =>
    have hat : a.code.At a.ip .ret 0 line := hat
    have hone : a.operands = [] ++ [v] := hoperands
    have hone' : a'.operands = [] ++ [v'] := hoperands'
    have hreturn := Exec.returnValue_showing m pre { a with ip := a.ip + 1 + Op.ret.width, operands := [] }
      [] v
    have hreturn' := Exec.returnValue_showing m' pre'
      { a' with ip := a.ip + 1 + Op.ret.width, operands := [] } [] v'
    rw [List.nil_append, hsole.baseOf_eq] at hreturn
    rw [List.nil_append, hsole'.baseOf_eq] at hreturn'
    rw [hcalls.advance_execute rfl hat hone, hcalls'.advance_execute hip (hat' hat) hone']
    simp only [Op.narrow, Exec.execute_ret, hreturn, hreturn']
    by_cases hnil : pre = []
    · subst hnil
      obtain rfl := hpre.eq_nil
      exact answer_pads hworld hwaiting hsole hsole' hv
    · have hnil' := hpre.ne_nil (hground.of_append hnil) hnil
      rw [if_neg (by simpa using hnil), if_neg (by simpa using hnil')]
      exact .more (pads_showing hworld hwaiting hsole hsole' (.given (Or.inr rfl) hpre hv))
  | @straight op operand line takes leaves ops ops' pairs hat hstraight htail hoperands hoperands' hpairs
      hnext =>
    have hat : a.code.At a.ip op operand line := hat
    have hbeside : Beside (padding bound) m m' m m' := ⟨hworld, rfl, rfl, rfl, rfl⟩
    obtain ⟨level, levels, hlevels, hphase⟩ := hcalls
    have hraises : (op.narrow = .call ∨ op.narrow = .tailCall) → ∀ callee args effect payload n,
        pairs.map Prod.fst = args ++ [callee] → Exec.apply callee args
          (m.showing (pre ++ [{ a with ip := a.ip + 1 + op.width, operands := ops }]) []) =
          .ok (.raise effect payload) n → (m.showing (pre ++ [a]) []).Raises n effect payload := by
      intro hcall callee args effect payload n hfst happly
      obtain ⟨hop, m₁, m₂, hfetch, hcallee, hargs⟩ := calling_showing m pre hat hcall
        (hfst ▸ hoperands) (length_of_call hcall hstraight hpairs hfst)
      exact .instruction hlevels hphase hfetch hop hcallee hargs happly
    have hidle : op.narrow = .tailCall →
        ({ a with ip := a.ip + 1 + op.width, operands := ops } : Activation).Idle := by
      intro htailCall
      obtain rfl := Op.eq_tailCall_of_narrow htailCall
      exact htail rfl
    have hnext : ({ a with ip := a.ip + 1 + op.width, operands := ops } : Activation).Pads bound
        (Value.Pads bound) leaves { a' with ip := a.ip + 1 + op.width, operands := ops' } :=
      ha.update hnext rfl rfl
    have hkeep := Exec.KeepUp.straight hbeside hsole.baseOf_eq hsole'.baseOf_eq hpre hnext
      (hground.replaceLast rfl) hstraight hpairs hidle hspared hraises a.ip line
    have hfits := fun hover => hroom (overflowing_of_execute hsole.running rfl hat hoperands hover)
    have hfits' := fun hover => hroom' (overflowing_of_execute hcalls' hip (hat' hat) hoperands' hover)
    rw [hsole.running.advance_execute rfl hat hoperands, hcalls'.advance_execute hip (hat' hat) hoperands']
    generalize Exec.execute _ _ = r at hkeep hfits ⊢
    generalize Exec.execute _ _ = r' at hkeep hfits' ⊢
    obtain ⟨n, n', rfl, rfl, hn⟩ | ⟨e, n, n', rfl, rfl, hstop⟩ :=
      keepUp_inv hkeep (Or.inr rfl) hsole hsole' hwaiting hfits hfits'
    · exact .more hn
    · exact hstop line
  | @jump operand line hat htarget =>
    have hat : a.code.At a.ip .jump operand line := hat
    have hjump : a'.code.At a'.ip .jump operand line := hip.symm ▸ hat' hat
    rw [hcalls.advance_jump hat, hcalls'.advance_jump hjump, hip]
    exact .more (pads_showing hworld hwaiting hsole hsole'
      (.entered (Or.inr rfl) hpre (ha.update htarget rfl rfl)))
  | @branch operand line ops ops' v v' hat hoperands hoperands' hv htarget hnext =>
    have hat : a.code.At a.ip .jumpIfFalse operand line := hat
    rw [hcalls.advance_execute rfl hat hoperands, hcalls'.advance_execute hip (hat' hat) hoperands']
    rw [← List.nil_append [v], ← List.nil_append [v']]
    simp only [Op.narrow, Exec.execute_jumpIfFalse, Likeness.isTruthy_eq (L := padding bound) hv]
    split
    · exact .more (pads_showing hworld hwaiting hsole hsole'
        (.entered (Or.inr rfl) hpre (ha.update hnext rfl rfl)))
    · exact .more (pads_showing hworld hwaiting hsole hsole'
        (.entered (Or.inr rfl) hpre (ha.update htarget rfl rfl)))

/-- Moves that leave the shared state as it is. -/
inductive IdlesTo : Machine → Machine → Prop
  | refl (m : Machine) : IdlesTo m m
  | move {m m₁ m₂ : Machine} (hmove : m.advance = .more m₁) (hworld : m₁.world = m.world)
    (hrest : IdlesTo m₁ m₂) : IdlesTo m m₂

namespace IdlesTo

variable {m₁ m₂ : Machine}

theorem trans (h : m.IdlesTo m₁) (h' : m₁.IdlesTo m₂) : m.IdlesTo m₂ := by
  induction h with
  | refl => exact h'
  | move hmove hworld _ ih => exact .move hmove hworld (ih h')

theorem leads (h : m.IdlesTo m₁) : Progress.Leads (.more m) (.more m₁) := by
  induction h with
  | refl => exact .refl _
  | move hmove _ _ ih => exact .move (hmove ▸ ih)

theorem world_eq (h : m.IdlesTo m₁) : m₁.world = m.world := by
  induction h with
  | refl => rfl
  | move _ hworld _ ih => exact ih.trans hworld

end IdlesTo

/-- An idle activation hands the value that it is given on to those below. -/
theorem idles_of_idle {y : Activation} (hsole : m.thread.Sole .running) (hne : acts ≠ []) (hy : y.Idle)
    (v : Value) : (m.showing (acts ++ [y]) [v]).IdlesTo (m.showing acts [v]) := by
  have hreturns : ∀ offset, y.code.Returns offset →
      (m.showing (acts ++ [{ y with ip := offset }]) [v]).IdlesTo (m.showing acts [v]) := by
    intro offset hoffset
    induction hoffset with
    | @ret offset line hat =>
      have hreturn := Exec.returnValue_showing m acts { y with ip := offset + 1 + Op.ret.width } [] v
      rw [List.nil_append, hsole.baseOf_eq, if_neg (by simpa using hne)] at hreturn
      have hat : { y with ip := offset }.code.At { y with ip := offset }.ip .ret 0 line := hat
      have hmove : (m.showing (acts ++ [{ y with ip := offset }]) [v]).advance =
          .more (m.showing acts [v]) := by
        rw [hsole.running.advance_over hat]
        simp only [Op.narrow, Exec.execute_ret, hreturn]
        rfl
      exact .move hmove rfl (.refl _)
    | @jump offset operand line hat _ ih =>
      exact .move (hsole.running.advance_jump (a := { y with ip := offset }) hat [v]) rfl ih
  exact hreturns y.ip hy

theorem idles_of_all_idle {spare : List Activation} (hsole : m.thread.Sole .running) (hne : acts ≠ [])
    (hspare : ∀ y ∈ spare, y.Idle) (v : Value) :
    (m.showing (acts ++ spare) [v]).IdlesTo (m.showing acts [v]) := by
  induction spare using List.reverseRecOn with
  | nil =>
    rw [List.append_nil]
    exact .refl _
  | append_singleton spare y ih =>
    rw [← List.append_assoc]
    exact (idles_of_idle hsole (by simp [hne]) (hspare y (by simp)) v).trans
      (ih fun y hy => hspare y (by simp [hy]))

/-- One move of both machines, after moves of the first one in which idle boundaries return. -/
theorem Pads.advance (h : m.Pads bound m') (hsound : m.Sound .value)
    (hspared : ∀ x, m.Reaches x → x.Spares bound) (hroom : ∀ x, m.Reaches x → ¬ x.Overflowing)
    (hroom' : ¬ m'.Overflowing) :
    ∃ m₁, m.IdlesTo m₁ ∧ Progress.Pads bound m₁.advance m'.advance := by
  obtain ⟨hworld, hwaiting, @⟨phase, phase', acts, acts', extra, extra', hsole, hsole', hunderway, hshows,
    hshows'⟩⟩ := h
  have hm := eq_showing hshows
  have hm' := eq_showing hshows'
  obtain ⟨hground, hne⟩ := hsole.grounded (hm ▸ hsound)
  cases hunderway with
  | made hcallee =>
    exact ⟨m, .refl _, advance_pads_made hworld hwaiting hsole hsole' hcallee hshows hshows'
      (hspared m .refl) (hroom m .refl) hroom'⟩
  | @given _ _ _ v v' hphase hacts hv =>
    obtain rfl | rfl := hphase
    · refine ⟨m, .refl _, ?_⟩
      rw [hm, hm']
      exact advance_pads_opening hworld hwaiting hsole hsole' (.given (Or.inl rfl) hacts hv) hground
    · obtain ⟨pre, a, spare, pre', a', rfl, rfl, hspare, hpre, ha⟩ :=
        hacts.top (hacts.ne_nil hground (hne rfl))
      have hidles : m.IdlesTo (m.showing (pre ++ [a.pushAll [v]]) []) := by
        rw [showing_pushAll, List.append_nil]
        conv_lhs => rw [hm]
        exact idles_of_all_idle hsole (by simp) (fun y hy => (hspare y hy).1) v
      rw [← List.append_nil [v'], ← showing_pushAll] at hm'
      refine ⟨_, hidles, ?_⟩
      rw [hm'] at hroom' ⊢
      exact advance_pads_running hworld hwaiting hsole hsole' hpre (ha.push hv)
        ((hground.of_append (by simp)).replaceLast rfl) (hspared _ hidles.leads.reaches)
        (hroom _ hidles.leads.reaches) hroom'
  | entered hphase hpre ha =>
    refine ⟨m, .refl _, ?_⟩
    obtain rfl | rfl := hphase
    · rw [hm, hm']
      exact advance_pads_opening hworld hwaiting hsole hsole' (.entered (Or.inl rfl) hpre ha) hground
    · have hspared := hspared m .refl
      have hroom := hroom m .refl
      rw [hm] at hspared hroom ⊢
      rw [hm'] at hroom' ⊢
      exact advance_pads_running hworld hwaiting hsole hsole' hpre ha hground hspared hroom hroom'

/-- Two machines that will do the same for good: no effect asks for the handler `bound`, and there is
always room. -/
structure PadsOnward (bound : Bound) (m m' : Machine) : Prop where
  pads : m.Pads bound m'
  sound : m.Sound .value
  spared : ∀ x, m.Reaches x → x.Spares bound
  room : ∀ x, m.Reaches x → ¬ x.Overflowing
  room' : ∀ x, m'.Reaches x → ¬ x.Overflowing

/-- The same end of two runs. -/
structure SameEnd (bound : Bound) (ended ended' : Outcome × Machine) : Prop where
  outcome : ended.1.Pads bound ended'.1
  world : ended.2.world.Related (padding bound) ended'.2.world

/-- Both machines make a move and then do the same for good, or both come to the same end. -/
inductive PadsNext (bound : Bound) (m m' : Machine) : Prop
  | onward {m₁ m₁' : Machine} (hmove : m.advance = .more m₁) (hmove' : m'.advance = .more m₁')
    (honward : m₁.PadsOnward bound m₁') : PadsNext bound m m'
  | ended {ended ended' : Outcome × Machine} (hmove : m.advance = .ended ended.1 ended.2)
    (hmove' : m'.advance = .ended ended'.1 ended'.2) (hsame : SameEnd bound ended ended') :
    PadsNext bound m m'

namespace PadsOnward

/-- After idle moves of the first machine, both do the same. -/
theorem next (h : m.PadsOnward bound m') : ∃ m₁, m.IdlesTo m₁ ∧ m₁.PadsNext bound m' := by
  obtain ⟨m₁, hidles, hpads⟩ := h.pads.advance h.sound h.spared h.room (h.room' m' .refl)
  refine ⟨m₁, hidles, ?_⟩
  have hreaches := hidles.leads.reaches
  have hadvance : m₁.advance.Sound .value := by
    cases hidles.leads.sound (.more h.sound) with
    | more hm₁ => exact hm₁.advance
  generalize hmove : m₁.advance = p at hpads hadvance
  generalize hmove' : m'.advance = p' at hpads
  cases hpads with
  | more hm =>
    cases hadvance with
    | more hsound =>
      have hlater : ∀ {x}, Machine.Reaches _ x → m.Reaches x :=
        fun hx => hreaches.trans (.cons hmove hx)
      exact .onward hmove hmove' ⟨hm, hsound, fun x hx => h.spared x (hlater hx),
        fun x hx => h.room x (hlater hx), fun x hx => h.room' x (.cons hmove' hx)⟩
  | @ended outcome outcome' x x' houtcome hworld =>
    have hsame : SameEnd bound (outcome, x) (outcome', x') := ⟨houtcome, hworld⟩
    exact .ended hmove hmove' hsame

/-- If the first machine comes to an end, so does the second. -/
theorem run (h : m.PadsOnward bound m') {fuel : Nat} {ended : Outcome × Machine}
    (hrun : m.run fuel = some ended) :
    ∃ fuel' ended', m'.run fuel' = some ended' ∧ SameEnd bound ended ended' := by
  induction fuel generalizing m m' with
  | zero => cases hrun
  | succ fuel ih =>
    obtain ⟨m₁, hidles, hnext⟩ := h.next
    have hmore : (Progress.more m).run (fuel + 1) = some ended := hrun
    have hrun₁ : m₁.run (fuel + 1) = some ended := hidles.leads.run hmore
    rw [run_succ] at hrun₁
    cases hnext with
    | onward hmove hmove' honward =>
      rw [hmove] at hrun₁
      obtain ⟨fuel', ended', hrun', hsame⟩ := ih honward hrun₁
      refine ⟨fuel' + 1, ended', ?_, hsame⟩
      rw [run_succ, hmove']
      exact hrun'
    | @ended _ ended' hmove hmove' hsame =>
      rw [hmove] at hrun₁
      cases hrun₁
      refine ⟨1, ended', ?_, hsame⟩
      rw [run_succ, hmove']
      rfl

/-- If the second machine comes to an end, so does the first. -/
theorem run_back (h : m.PadsOnward bound m') {fuel : Nat} {ended' : Outcome × Machine}
    (hrun : m'.run fuel = some ended') :
    ∃ fuel' ended, m.run fuel' = some ended ∧ SameEnd bound ended ended' := by
  induction fuel generalizing m m' with
  | zero => cases hrun
  | succ fuel ih =>
    obtain ⟨m₁, hidles, hnext⟩ := h.next
    obtain ⟨fuel₁, ended, hrun₁, hsame⟩ :
        ∃ fuel₁ ended, m₁.run fuel₁ = some ended ∧ SameEnd bound ended ended' := by
      rw [run_succ] at hrun
      cases hnext with
      | onward hmove hmove' honward =>
        rw [hmove'] at hrun
        obtain ⟨fuel₂, ended, hrun₂, hsame⟩ := ih honward hrun
        refine ⟨fuel₂ + 1, ended, ?_, hsame⟩
        rw [run_succ, hmove]
        exact hrun₂
      | @ended ended _ hmove hmove' hsame =>
        rw [hmove'] at hrun
        cases hrun
        refine ⟨1, ended, ?_, hsame⟩
        rw [run_succ, hmove]
        rfl
    obtain ⟨fuel', hrun'⟩ := hidles.leads.run_back hrun₁
    exact ⟨fuel', ended, hrun', hsame⟩

/-- Wherever the first machine comes, the second one comes with the same shared state. -/
theorem reaches (h : m.PadsOnward bound m') {x : Machine} (hx : m.Reaches x) :
    ∃ x', m'.Reaches x' ∧ x.world.Related (padding bound) x'.world := by
  -- The state that is reached may lie among idle moves, so it is followed to where these end.
  obtain ⟨y, x', hx', hidles, hworld, _⟩ : ∃ y x', m'.Reaches x' ∧ x.IdlesTo y ∧
      y.world.Related (padding bound) x'.world ∧ y.PadsNext bound x' := by
    have hfollow : ∀ {z z' : Machine}, z.PadsOnward bound z' → ∃ y, z.IdlesTo y ∧
        y.world.Related (padding bound) z'.world ∧ y.PadsNext bound z' := by
      intro z z' hz
      obtain ⟨y, hidles, hnext⟩ := hz.next
      exact ⟨y, hidles, hidles.world_eq ▸ hz.pads.world, hnext⟩
    induction hx with
    | refl =>
      obtain ⟨y, hy⟩ := hfollow h
      exact ⟨y, m', .refl, hy⟩
    | next _ hmove ih =>
      obtain ⟨y, x', hx', hidles, hworld, hnext⟩ := ih
      cases hidles with
      | refl =>
        cases hnext with
        | onward hmove₁ hmove' honward =>
          cases hmove.symm.trans hmove₁
          obtain ⟨y, hy⟩ := hfollow honward
          exact ⟨y, _, .next hx' hmove', hy⟩
        | ended hmove₁ => cases hmove.symm.trans hmove₁
      | move hmove₁ _ hrest =>
        cases hmove.symm.trans hmove₁
        exact ⟨y, x', hx', hrest, hworld, hnext⟩
  exact ⟨x', hx', hidles.world_eq ▸ hworld⟩

end PadsOnward

end Machine

end Resumable
