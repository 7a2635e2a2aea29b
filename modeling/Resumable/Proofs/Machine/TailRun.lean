import Mathlib.Data.List.Induction
import Resumable.Proofs.Machine.Lockstep

/-!
A run with plain calls in the place of tail calls that comes to an end is matched by the run with tail
calls. Where idle activations return, one machine waits for the other.
-/

namespace Resumable

theorem Activation.length_mark (a : Activation) :
    a.mark.length = if a.handler.isSome then 1 else 0 := by
  unfold mark
  cases a.handler <;> rfl

theorem Activation.length_installed (a : Activation) (depth height : Nat) :
    (a.installed depth height).length = if a.handler.isSome then 1 else 0 := by
  unfold installed
  cases a.handler <;> rfl

/-- A thread shows one list of activations only. -/
theorem acts_unique {acts acts' : List Activation} {depth height : Nat}
    (hframes : framesFrom height acts = framesFrom height acts')
    (hhandlers : handlersFrom depth height acts = handlersFrom depth height acts')
    (hstack : stackOf acts = stackOf acts') : acts = acts' := by
  induction acts generalizing acts' depth height with
  | nil =>
    cases acts' with
    | nil => rfl
    | cons => cases hframes
  | cons a acts ih =>
    cases acts' with
    | nil => cases hframes
    | cons a' acts' =>
    rw [framesFrom_cons, framesFrom_cons, List.cons.injEq] at hframes
    obtain ⟨hframe, hframes⟩ := hframes
    have hsegment : a.segment.length = a'.segment.length := by
      cases acts with
      | nil =>
        have hnil : acts' = [] := by simpa using (congrArg List.length hframes).symm
        subst hnil
        simpa using congrArg List.length hstack
      | cons x xs =>
        cases acts' with
        | nil => cases hframes
        | cons x' xs' =>
          rw [framesFrom_cons, framesFrom_cons, List.cons.injEq] at hframes
          have hbase := congrArg Frame.base hframes.1
          have hbound := congrArg Frame.boundary hframes.1
          simp only [Activation.frame, Activation.length_mark] at hbase hbound
          rw [hbound] at hbase
          omega
    obtain ⟨hsegments, hstack⟩ := List.append_inj hstack hsegment
    have hbound : a.handler.isSome = a'.handler.isSome := congrArg Frame.boundary hframe
    rw [handlersFrom_cons, handlersFrom_cons] at hhandlers
    obtain ⟨hinstalled, hhandlers⟩ := List.append_inj hhandlers
      (by rw [Activation.length_installed, Activation.length_installed, hbound])
    rw [hsegment] at hframes hhandlers
    rw [ih hframes hhandlers hstack]
    congr 1
    obtain ⟨code, env, locals, ip, handler, operands⟩ := a
    obtain ⟨code', env', locals', ip', handler', operands'⟩ := a'
    simp only [Activation.frame, Frame.mk.injEq] at hframe
    obtain ⟨rfl, rfl, rfl, rfl, _⟩ := hframe
    cases handler with
    | none =>
      cases handler' with
      | none =>
        obtain rfl : operands = operands' := hsegments
        rfl
      | some => cases hbound
    | some bound =>
      cases handler' with
      | none => cases hbound
      | some bound' =>
        simp only [Activation.installed, List.cons.injEq, Installed.mk.injEq] at hinstalled
        simp only [Activation.segment, Activation.mark, List.cons_append, List.cons.injEq] at hsegments
        obtain ⟨⟨hclauses, _, _, hlabel⟩, _⟩ := hinstalled
        obtain ⟨_, rfl⟩ : _ ∧ operands = operands' := hsegments
        rw [Prod.ext hclauses hlabel]

/-- What a move leads to, at once or after further moves. -/
inductive Progress.Leads : Progress → Progress → Prop
  | refl (p : Progress) : Leads p p
  | move {m : Machine} {p : Progress} (hrest : Leads m.advance p) : Leads (.more m) p

/-- At most `fuel` further moves. -/
def Progress.run (fuel : Nat) : Progress → Option (Outcome × Machine)
  | .more m => m.run fuel
  | .ended outcome m => some (outcome, m)

namespace Machine

variable {m m' : Machine} {pre pre' acts : List Activation} {a a' : Activation}

/-- What it comes to if a call that is to end the work of a machine gives a value to its activations:
if there are none left, the value is the outcome. -/
def handing (m : Machine) (v : Value) : List Activation → Progress
  | [] => .ended (.returned v) { m with thread := { m.thread.showing [] [] with levels := [] } }
  | a :: acts => .more (m.showing (a :: acts) [v])

theorem handing_of_ne (v : Value) (hne : acts ≠ []) : m.handing v acts = .more (m.showing acts [v]) := by
  cases acts with
  | nil => exact absurd rfl hne
  | cons => rfl

theorem run_succ (fuel : Nat) : m.run (fuel + 1) = m.advance.run fuel := by
  rw [run]
  cases m.advance <;> rfl

/-- What an instruction has come to. -/
def conclude (line : Nat) : EStateM.Result Stop Machine (Option Value) → Progress
  | .ok none m => .more m
  | .ok (some v) m => m.answer v
  | .error s m => m.stop line s

end Machine

/-- The innermost call of a thread executes instructions. -/
def Thread.Running (t : Thread) : Prop :=
  ∃ level levels, t.levels = level :: levels ∧ level.phase = .running

namespace Thread.Running

variable {m : Machine} {pre : List Activation} {a : Activation}

theorem advance_eq (hm : m.thread.Running) (acts : List Activation) (extra : List Value) :
    (m.showing acts extra).advance = (m.showing acts extra).runInstruction := by
  obtain ⟨level, levels, hlevels, hphase⟩ := hm
  simp only [Machine.advance, Machine.showing_thread, Thread.showing_levels, hlevels, hphase]

theorem advance_jump (hm : m.thread.Running) {operand line : Nat}
    (hat : a.code.At a.ip .jump operand line) (extra : List Value) :
    (m.showing (pre ++ [a]) extra).advance =
      .more (m.showing (pre ++ [{ a with ip := a.ip + operand }]) extra) := by
  rw [hm.advance_eq, Machine.runInstruction, Exec.fetch_showing m pre a extra hat]
  simp only [Exec.execute_jump]

/-- The last activation fetches an instruction and executes it. -/
theorem advance_over (hm : m.thread.Running) {op : Op} {operand line : Nat}
    (hat : a.code.At a.ip op operand line) (extra : List Value) :
    (m.showing (pre ++ [a]) extra).advance =
      Machine.conclude line (Exec.execute { op := op.narrow, operand, start := a.ip, line }
        (m.showing (pre ++ [{ a with ip := a.ip + 1 + op.width }]) extra)) := by
  rw [hm.advance_eq, Machine.runInstruction, Exec.fetch_showing m pre a extra hat,
    ← Exec.execute_narrow]
  rfl

/-- The same with some of its operands on top. -/
theorem advance_execute (hm : m.thread.Running) {op : Op} {operand line start : Nat}
    {ops vs : List Value} (hip : a.ip = start) (hat : a.code.At start op operand line)
    (hoperands : a.operands = ops ++ vs) :
    (m.showing (pre ++ [a]) []).advance =
      Machine.conclude line (Exec.execute { op := op.narrow, operand, start, line }
        (m.showing (pre ++ [{ a with ip := start + 1 + op.width, operands := ops }]) vs)) := by
  subst hip
  have hat' : { a with operands := ops }.code.At { a with operands := ops }.ip op operand line := hat
  rw [Machine.showing_operands hoperands, hm.advance_over hat']

/-- The last activation executes an instruction on an index in either of its forms. -/
theorem advance_indexed_over (hm : m.thread.Running) {op : Op} {index line next : Nat}
    (hop : op.narrow = op) (hat : a.code.Indexed a.ip op index line next) (extra : List Value) :
    (m.showing (pre ++ [a]) extra).advance =
      Machine.conclude line (Exec.execute { op, operand := index, start := a.ip, line }
        (m.showing (pre ++ [{ a with ip := next }]) extra)) := by
  cases hat with
  | narrow hwidth hat => rw [hm.advance_over hat, hwidth, hop]
  | wide hwide hat => rw [hm.advance_over hat, (Op.width_of_wide? hwide).2, Op.narrow_of_wide? hwide]

/-- The same with some of its operands on top. -/
theorem advance_indexed (hm : m.thread.Running) {op : Op} {index line next : Nat}
    {ops vs : List Value} (hop : op.narrow = op) (hat : a.code.Indexed a.ip op index line next)
    (hoperands : a.operands = ops ++ vs) :
    (m.showing (pre ++ [a]) []).advance =
      Machine.conclude line (Exec.execute { op, operand := index, start := a.ip, line }
        (m.showing (pre ++ [{ a with ip := next, operands := ops }]) vs)) := by
  have hat' : { a with operands := ops }.code.Indexed { a with operands := ops }.ip op index line next :=
    hat
  rw [Machine.showing_operands hoperands, hm.advance_indexed_over hop hat']

end Thread.Running

theorem Thread.setPhase_showing (t : Thread) (acts : List Activation) (extra : List Value)
    (phase : Phase) : (t.showing acts extra).setPhase phase = (t.setPhase phase).showing acts extra := by
  unfold setPhase
  rw [showing_levels]
  cases t.levels <;> rfl

namespace Thread.Sole

variable {m : Machine} {phase : Phase}

theorem baseOf_eq (hm : m.thread.Sole phase) : Exec.baseOf m.thread.levels = 0 := by
  obtain ⟨level, hlevels, _, hdepth, _⟩ := hm
  rw [hlevels, Exec.baseOf, hdepth]

theorem running (hm : m.thread.Sole .running) : m.thread.Running := by
  obtain ⟨level, hlevels, hphase, _⟩ := hm
  exact ⟨level, [], hlevels, hphase⟩

/-- A failure ends the thread. -/
theorem stop_eq (hm : m.thread.Sole phase) (e : RuntimeError) (line : Nat) :
    ∃ t, m.stop line (.error e) = { m with thread := t }.finish (.error (e.atLine line)) := by
  obtain ⟨level, hlevels, _, _, hpurpose⟩ := hm
  refine ⟨{ m.thread.leave level with levels := [] }, ?_⟩
  simp only [Machine.stop, hlevels, Machine.unwind, hpurpose]

/-- A value of the call ends the thread. -/
theorem answer_eq (hm : m.thread.Sole phase) (v : Value) :
    ∃ t, m.answer v = { m with thread := t }.finish (.ok v) := by
  obtain ⟨level, hlevels, _, _, hpurpose⟩ := hm
  refine ⟨{ m.thread with levels := [] }, ?_⟩
  simp only [Machine.answer, hlevels, hpurpose]

/-- A call that has been made and has activations runs. -/
theorem advance_settle (hm : m.thread.Sole .opening) {acts : List Activation} (hne : acts ≠ [])
    (extra : List Value) : (m.showing acts extra).advance =
      .more { m.showing acts extra with thread := (m.showing acts extra).thread.setPhase .running } := by
  obtain ⟨level, hlevels, hphase, hdepth, _⟩ := hm
  have hcalls : (m.showing acts extra).thread.levels = [level] := hlevels
  have hlt : level.depth < (m.showing acts extra).thread.frames.size := by
    simpa [hdepth] using List.length_pos_iff.2 hne
  rw [Machine.advance, hcalls]
  simp only [hphase]
  rw [Machine.settleCall, if_pos hlt]

/-- A call that has been made and has no activations has come to a value. -/
theorem advance_given (hm : m.thread.Sole .opening) (v : Value) :
    ∃ t, (m.showing [] [v]).advance = { m with thread := t }.finish (.ok v) := by
  obtain ⟨t, hanswer⟩ := answer_eq (m := m.showing [] []) hm v
  obtain ⟨level, hlevels, hphase, hdepth, _⟩ := hm
  refine ⟨t, ?_⟩
  have hpop := Exec.pop_showing m [] [] v
  rw [List.nil_append] at hpop
  have hcalls : (m.showing [] [v]).thread.levels = [level] := hlevels
  have hnot : ¬ level.depth < (m.showing [] [v]).thread.frames.size := by simp
  rw [Machine.advance, hcalls]
  simp only [hphase]
  rw [Machine.settleCall, if_neg hnot, hpop]
  exact hanswer

theorem setPhase (hm : m.thread.Sole phase) (phase' : Phase) : (m.thread.setPhase phase').Sole phase' := by
  obtain ⟨level, hlevels, _, hdepth, hpurpose⟩ := hm
  refine ⟨{ level with phase := phase' }, ?_, rfl, hdepth, hpurpose⟩
  simp only [Thread.setPhase, hlevels]

/-- How far the only call of a sound machine has come. -/
theorem underway {κ : Kind} {acts : List Activation} {extra : List Value} (hm : m.thread.Sole phase)
    (hsound : (m.showing acts extra).Sound κ) : ∃ above extra', Underway κ phase above extra' ∧
      m.showing acts extra = m.showing above extra' := by
  obtain ⟨below, above, extra', level, levels, hready, hunderway, hshows⟩ := hsound.ready
  obtain ⟨only, hlevels, hphase, _⟩ := hm
  have hcalls := hready.calls
  rw [Machine.showing_thread, Thread.showing_levels, hlevels] at hcalls
  cases hcalls
  have hbelow : below = [] := by
    cases hready.suspended
    rfl
  subst hbelow
  rw [hphase] at hunderway
  rw [Machine.showing_showing, List.nil_append] at hshows
  exact ⟨above, extra', hunderway, hshows⟩

/-- The activations of a sound machine that runs. -/
theorem sound_acts {pre : List Activation} {a : Activation} (hm : m.thread.Sole .running)
    (hsound : (m.showing (pre ++ [a]) []).Sound .value) :
    (∀ b ∈ pre, b.Sound .value [.value]) ∧ a.Sound .value [] ∧ Grounded .value (pre ++ [a]) := by
  obtain ⟨above, extra, hunderway, hshows⟩ := hm.underway hsound
  generalize hrunning : Phase.running = phase at hunderway
  cases hunderway with
  | @entered _ pre' a' _ hpre ha hground =>
    have hthread := congrArg Machine.thread hshows
    have hframes := congrArg (fun t => t.frames.toList) hthread
    have hstack := congrArg (fun t => t.stack.toList) hthread
    have hhandlers := congrArg (fun t => t.handlers.toList) hthread
    simp only [Machine.showing_thread, Thread.showing_frames, Thread.showing_stack,
      Thread.showing_handlers, List.append_nil] at hframes hstack hhandlers
    have hacts := acts_unique hframes hhandlers hstack
    obtain ⟨rfl, hlast⟩ := List.append_inj' hacts rfl
    cases hlast
    exact ⟨hpre, ha, hground⟩
  | _ => cases hrunning

/-- The first activation of a sound machine has no handler, and if the machine runs, there is one. -/
theorem grounded {acts : List Activation} {extra : List Value} (hm : m.thread.Sole phase)
    (hsound : (m.showing acts extra).Sound .value) :
    Grounded .value acts ∧ (phase = .running → acts ≠ []) := by
  obtain ⟨above, extra', hunderway, hshows⟩ := hm.underway hsound
  have hframes := congrArg (fun m => m.thread.frames.toList) hshows
  simp only [Machine.showing_thread, Thread.showing_frames] at hframes
  have habove : Grounded .value above ∧ (phase = .running → above ≠ []) := by
    cases hunderway with
    | made => exact ⟨nofun, nofun⟩
    | given => exact ⟨nofun, nofun⟩
    | entered _ _ _ hground => exact ⟨hground, fun _ => by simp⟩
  cases acts with
  | nil =>
    cases above with
    | nil => exact ⟨nofun, habove.2⟩
    | cons => cases hframes
  | cons a acts =>
    cases above with
    | nil => cases hframes
    | cons b above =>
      refine ⟨?_, fun _ => by simp⟩
      rintro hκ _ ⟨⟩
      rw [framesFrom_cons, framesFrom_cons, List.cons.injEq] at hframes
      have hbound : a.handler.isSome = b.handler.isSome := congrArg Frame.boundary hframes.1
      rw [habove.1 hκ b rfl] at hbound
      exact Option.not_isSome_iff_eq_none.1 (by simp [hbound])

end Thread.Sole

namespace Machine

variable {m m' : Machine} {pre pre' acts : List Activation} {a a' : Activation}

namespace Single

/-- A failure ends the work. -/
theorem stop_eq (hm : m.Single) (e : RuntimeError) (line : Nat) :
    ∃ f, m.stop line (.error e) = .ended (.failed (e.atLine line)) f ∧ f.world = m.world := by
  obtain ⟨hwaiting, level, hlevels, _, _, hpurpose⟩ := hm
  have hstop : m.stop line (.error e) = .ended (.failed (e.atLine line))
      { m with thread := { m.thread.leave level with levels := [] } } := by
    simp only [stop, hlevels, unwind, hpurpose, finish, hwaiting]
  exact ⟨_, hstop, rfl⟩

/-- The last activation returns. -/
theorem advance_ret (hm : m.Single) {line : Nat} (hat : a.code.At a.ip .ret 0 line) (v : Value) :
    (m.showing (pre ++ [a]) [v]).advance = m.handing v pre := by
  have hreturn := Exec.returnValue_showing m pre { a with ip := a.ip + 1 + Op.ret.width } [] v
  rw [List.nil_append, hm.2.baseOf_eq] at hreturn
  rw [hm.2.running.advance_eq, runInstruction, Exec.fetch_showing m pre a [v] hat]
  simp only [Exec.execute_ret, hreturn]
  cases pre with
  | nil =>
    obtain ⟨hwaiting, level, hlevels, _, _, hpurpose⟩ := hm
    simp only [List.length_nil, Nat.le_refl, if_true, answer, showing_thread, Thread.showing_levels,
      hlevels, hpurpose, finish, showing_waiting, handing, hwaiting]
    rfl
  | cons b pre =>
    rw [if_neg (by simp)]
    rfl

theorem advance_returns (hm : m.Single) {line : Nat} {v : Value} (hat : a.code.At a.ip .ret 0 line)
    (hoperands : a.operands = [v]) : (m.showing (pre ++ [a]) []).advance = m.handing v pre := by
  have hone : a.operands = [] ++ [v] := hoperands
  have hat' : { a with operands := [] }.code.At { a with operands := [] }.ip .ret 0 line := hat
  rw [showing_operands hone]
  exact hm.advance_ret hat' v

/-- An idle activation hands the value that it is given on. -/
theorem leads_of_idle (hm : m.Single) (ha : a.Idle) (v : Value) :
    Progress.Leads (.more (m.showing (pre ++ [a]) [v])) (m.handing v pre) := by
  have hreturns : ∀ offset, a.code.Returns offset →
      Progress.Leads (.more (m.showing (pre ++ [{ a with ip := offset }]) [v])) (m.handing v pre) := by
    intro offset hoffset
    induction hoffset with
    | @ret offset line hat =>
      refine .move ?_
      rw [hm.advance_ret hat]
      exact .refl _
    | @jump offset operand line hat _ ih =>
      refine .move ?_
      rw [hm.2.running.advance_jump hat]
      exact ih
  exact hreturns a.ip ha

end Single

end Machine

/-- What one move of two machines comes to: paired machines, a value that both hand to the
activations below, or the same failure. The second machine may also have no room for a frame, or start
a task. -/
inductive Progress.Meets : Progress → Progress → Prop
  | paired {m m' : Machine} (hpaired : Paired m m') : Meets (.more m) (.more m')
  | handed {m m' : Machine} {v v' : Value} {pre left idle : List Activation} (hm : m.Coupled m')
    (hleft : Spread Value.Untails pre left) (hidle : ∀ y ∈ idle, y.Idle) (hv : v.Untails v') :
    Meets (m.handing v pre) (m'.handing v' (left ++ idle))
  | failed {e : RuntimeError} {m m' : Machine} (hw : m.world.Related untailing m'.world) :
    Meets (.ended (.failed e) m) (.ended (.failed e) m')
  | overflow {p : Progress} {e : RuntimeError} {detail : String} {m' : Machine}
    (he : e.root = .stackOverflow detail) : Meets p (.ended (.failed e) m')
  | spawned {p : Progress} {m' : Machine} (hm' : m'.waiting ≠ []) : Meets p (.more m')

namespace Machine

variable {m m' : Machine} {pre pre' : List Activation} {a a' : Activation}

theorem conclude_meets {r r' : EStateM.Result Stop Machine (Option Value)} (h : Meets none r r')
    (line : Nat) : Progress.Meets (conclude line r) (conclude line r') := by
  cases h with
  | paired hpaired => exact .paired hpaired
  | @failed e m m' hm =>
    obtain ⟨f, hstop, hworld⟩ := hm.single.stop_eq e line
    obtain ⟨f', hstop', hworld'⟩ := hm.single'.stop_eq e line
    rw [conclude, conclude, hstop, hstop']
    refine .failed ?_
    rw [hworld, hworld']
    exact hm.world
  | @overflow _ detail m' hm' =>
    obtain ⟨f', hstop', _⟩ := hm'.stop_eq (.stackOverflow detail) line
    rw [conclude.eq_3, hstop']
    exact .overflow (RuntimeError.root_atLine line _)
  | spawned hm' => exact .spawned hm'

end Machine

/-- From where code of either kind only returns. -/
theorem Code.Untails.returns {code code' : Code Value} {κ : Kind} {H : Code.Typing}
    {last offset : Nat} {kinds : List Kind} (h : code.Untails code')
    (htyped : code.WellTyped κ H last) (hlast : offset ≤ last) (hkinds : H offset = some kinds)
    (hreturns : code.Returns offset) : code'.Returns offset := by
  obtain rfl | rfl := h
  · exact hreturns
  · exact (htyped.returns hlast hkinds hreturns).2

namespace Abreast

variable {m m' : Machine} {pre pre' : List Activation} {a a' : Activation}

/-- Where an activation is to return after a call, nothing else is on its stack, and the other one is
to return as well. -/
theorem idle (h : Abreast pre a pre' a') (ha : a.Sound .value [.value]) (hidle : a.Idle) :
    a.operands = [] ∧ a'.Idle := by
  obtain ⟨H, last, kinds, htyped, hlast, hkinds, hoperands⟩ := ha.shape.typed
  have hnone : kinds = [] := by
    simpa using (htyped.returns hlast hkinds hidle).1
  subst hnone
  refine ⟨List.forall₂_nil_left_iff.1 hoperands, ?_⟩
  unfold Activation.Idle
  rw [h.mirrors.ip]
  exact h.mirrors.code.returns htyped hlast hkinds hidle

/-- One move of both machines. -/
theorem advance (hm : m.Coupled m') (h : Abreast pre a pre' a')
    (hsound : (m.showing (pre ++ [a]) []).Sound .value) :
    Progress.Meets (m.showing (pre ++ [a]) []).advance (m'.showing (pre' ++ [a']) []).advance := by
  obtain ⟨_, ha, hground⟩ := hm.single.2.sound_acts hsound
  obtain ⟨hcode, henv, hlocals, hip, hrelated⟩ := h.mirrors
  have hstarts : a.code.Starts 0 a.ip := by
    obtain ⟨H, last, kinds, htyped, hlast, hkinds, _⟩ := ha.shape.typed
    exact htyped.typed.starts _ _ (Nat.zero_le _) hlast hkinds
  have hat' : ∀ {op operand line}, op ≠ .tailCall → a.code.At a.ip op operand line →
      a'.code.At a.ip op operand line := by
    intro op operand line hop hat
    exact (hcode.at' hat hstarts).resolve_right fun htail => hop htail.1
  cases ha.next with
  | @ret line v hat hoperands =>
    rw [hoperands] at hrelated
    obtain ⟨v', hv, hoperands'⟩ := forall₂_singleton_left hrelated
    obtain ⟨left, init, rfl, hleft, hinit, _⟩ := h.below
    have hret : a'.code.At a'.ip .ret 0 line := hip.symm ▸ hat' nofun hat
    rw [hm.single.advance_returns hat hoperands, hm.single'.advance_returns hret hoperands']
    exact .handed hm hleft hinit hv
  | @straight op operand line takes leaves ops vs hat hstraight htail hoperands hfits hnext =>
    rw [hoperands] at hrelated
    obtain ⟨ops', vs', hops, hvs, hoperands'⟩ := forall₂_split hrelated
    obtain ⟨op', hop, hat₁⟩ : ∃ op', (op' = op ∨ op = .tailCall ∧ op' = .call) ∧
        a'.code.At a.ip op' operand line := by
      obtain hsame | ⟨htailCall, hcall⟩ := hcode.at' hat hstarts
      · exact ⟨op, Or.inl rfl, hsame⟩
      · exact ⟨.call, Or.inr ⟨htailCall, rfl⟩, hcall⟩
    have hwidth : op'.width = op.width := by
      obtain rfl | ⟨rfl, rfl⟩ := hop <;> rfl
    have hnarrow : op'.narrow = op.narrow ∨ op.narrow = .tailCall ∧ op'.narrow = .call := by
      obtain rfl | ⟨rfl, rfl⟩ := hop
      · exact Or.inl rfl
      · exact Or.inr ⟨rfl, rfl⟩
    have habreast : Abreast pre { a with ip := a.ip + 1 + op.width, operands := ops } pre'
        { a' with ip := a.ip + 1 + op'.width, operands := ops' } :=
      h.update ⟨hcode, henv, hlocals, by rw [hwidth], hops⟩ rfl rfl
    rw [hm.single.2.running.advance_execute rfl hat hoperands, hm.single'.2.running.advance_execute hip hat₁ hoperands']
    refine Machine.conclude_meets (Meets.straight hm habreast hnext (hground.replaceLast rfl)
      hstraight hfits hvs hnarrow ?_ a.ip line) line
    intro htailCall
    obtain rfl := Op.eq_tailCall_of_narrow htailCall
    cases hstraight
    exact ⟨htail rfl, habreast.idle hnext (htail rfl)⟩
  | @jump operand line hat htarget =>
    have hjump : a'.code.At a'.ip .jump operand line := hip.symm ▸ hat' nofun hat
    rw [hm.single.2.running.advance_jump hat, hm.single'.2.running.advance_jump hjump, hip]
    exact .paired (.running hm (h.update ⟨hcode, henv, hlocals, rfl, hrelated⟩ rfl rfl))
  | @branch operand line ops v hat hoperands htarget hnext =>
    rw [hoperands] at hrelated
    obtain ⟨ops', _, hops, hlast, hoperands'⟩ := forall₂_split hrelated
    obtain ⟨v', hv, rfl⟩ := forall₂_singleton_left hlast
    have hexecute : Meets none
        (Exec.execute { op := .jumpIfFalse, operand, start := a.ip, line } (m.showing
          (pre ++ [{ a with ip := a.ip + 3, operands := ops }]) ([] ++ [v])))
        (Exec.execute { op := .jumpIfFalse, operand, start := a.ip, line } (m'.showing
          (pre' ++ [{ a' with ip := a.ip + 3, operands := ops' }]) ([] ++ [v']))) := by
      rw [Exec.execute_jumpIfFalse, Exec.execute_jumpIfFalse, Likeness.isTruthy_eq (L := untailing) hv]
      split
      · exact .paired (.running hm (h.update ⟨hcode, henv, hlocals, rfl, hops⟩ rfl rfl))
      · exact .paired (.running hm (h.update ⟨hcode, henv, hlocals, rfl, hops⟩ rfl rfl))
    have hbranch : a'.code.At a.ip .jumpIfFalse operand line := hat' nofun hat
    rw [hm.single.2.running.advance_execute rfl hat hoperands,
      hm.single'.2.running.advance_execute hip hbranch hoperands']
    exact Machine.conclude_meets hexecute line

end Abreast

/-- Outcomes that are the same up to tail calls. -/
inductive Outcome.Untails : Outcome → Outcome → Prop
  | returned {v v' : Value} (hv : v.Untails v') : Untails (.returned v) (.returned v')
  | failed (e : RuntimeError) : Untails (.failed e) (.failed e)

/-- There was room for all frames and values. -/
def Outcome.Fits (outcome : Outcome) : Prop :=
  ∀ e detail, outcome = .failed e → e.root ≠ .stackOverflow detail

theorem Machine.run_mono {m : Machine} {n k : Nat} {r : Outcome × Machine}
    (hrun : m.run n = some r) (hle : n ≤ k) : m.run k = some r := by
  induction n generalizing m k with
  | zero => cases hrun
  | succ n ih =>
    obtain ⟨k, rfl⟩ : ∃ j, k = j + 1 := ⟨k - 1, by omega⟩
    rw [run_succ] at hrun ⊢
    cases hadvance : m.advance with
    | more m' =>
      rw [hadvance] at hrun
      exact ih hrun (by omega)
    | ended outcome m' =>
      rw [hadvance] at hrun
      exact hrun

namespace Progress

variable {p q p' q' : Progress} {n : Nat}

/-- No task is started. -/
def Quiet (p : Progress) : Prop :=
  ∀ m, p.Leads (.more m) → m.waiting = []

/-- If the second one comes to an end with `n` moves, then the first one comes to the same end. -/
def Matches (n : Nat) (p p' : Progress) : Prop :=
  ∀ outcome' m', p'.run n = some (outcome', m') → p'.Quiet → outcome'.Fits →
    ∃ fuel outcome m, p.run fuel = some (outcome, m) ∧ outcome.Untails outcome' ∧
      m.world.Related untailing m'.world

namespace Leads

theorem trans {r : Progress} (h : p.Leads q) (h' : q.Leads r) : p.Leads r := by
  induction h with
  | refl => exact h'
  | move _ ih => exact .move (ih h')

theorem sound {κ : Kind} (h : p.Leads q) (hp : p.Sound κ) : q.Sound κ := by
  induction h with
  | refl => exact hp
  | move _ ih =>
    cases hp with
    | more hm => exact ih hm.advance

theorem reaches {m m' : Machine} (h : Leads (.more m) (.more m')) : m.Reaches m' := by
  generalize hp : Progress.more m = p at h
  generalize hq : Progress.more m' = q at h
  induction h generalizing m with
  | refl =>
    cases hp.trans hq.symm
    exact .refl
  | @move m₁ q hrest ih =>
    cases hp
    cases hmove : m₁.advance with
    | more m₂ => exact .cons hmove (ih hmove.symm hq)
    | ended outcome m₂ =>
      rw [hmove, ← hq] at hrest
      cases hrest

theorem run {r : Outcome × Machine} (h : p.Leads q) (hrun : p.run n = some r) :
    q.run n = some r := by
  induction h generalizing n with
  | refl => exact hrun
  | @move m q _ ih =>
    have hmore : m.run n = some r := hrun
    cases n with
    | zero => cases hmore
    | succ n =>
      rw [Machine.run_succ] at hmore
      have hq := ih hmore
      cases q with
      | more m' => exact Machine.run_mono hq (Nat.le_succ n)
      | ended => exact hq

theorem run_back {r : Outcome × Machine} (h : p.Leads q) (hrun : q.run n = some r) :
    ∃ fuel, p.run fuel = some r := by
  induction h with
  | refl => exact ⟨n, hrun⟩
  | move _ ih =>
    obtain ⟨fuel, hfuel⟩ := ih hrun
    exact ⟨fuel + 1, (Machine.run_succ fuel).trans hfuel⟩

end Leads

namespace Matches

theorem left (hleads : p.Leads q) (h : Matches n q p') : Matches n p p' := by
  intro outcome' m' hrun hquiet hfits
  obtain ⟨fuel, outcome, m, hmatched, hrest⟩ := h outcome' m' hrun hquiet hfits
  obtain ⟨fuel', hfuel'⟩ := hleads.run_back hmatched
  exact ⟨fuel', outcome, m, hfuel', hrest⟩

theorem right (hleads : p'.Leads q') (h : Matches n p q') : Matches n p p' := by
  intro outcome' m' hrun hquiet hfits
  exact h outcome' m' (hleads.run hrun) (fun m hm => hquiet m (hleads.trans hm)) hfits

end Matches

end Progress

namespace Machine.Coupled

variable {m m' : Machine} {acts acts' idle : List Activation} {v v' : Value} {n : Nat}

/-- Idle activations on top hand the value on. -/
theorem matches_idle {p : Progress} (hm : m.Coupled m') (hidle : ∀ y ∈ idle, y.Idle)
    (h : p.Matches n (m'.handing v' acts')) : p.Matches n (m'.handing v' (acts' ++ idle)) := by
  induction idle using List.reverseRecOn with
  | nil => rwa [List.append_nil]
  | append_singleton idle y ih =>
    rw [handing_of_ne _ (by simp), ← List.append_assoc]
    exact .right (hm.single'.leads_of_idle (hidle y (by simp)) v')
      (ih fun y hy => hidle y (by simp [hy]))

/-- Where both machines hand a value to the activations below, the ones that mirror each other go on
with it, and the idle ones hand it on. -/
theorem matches_handing (hm : m.Coupled m') (hacts : Spread Value.Untails acts acts')
    (hidle : ∀ y ∈ idle, y.Idle) (hv : v.Untails v') (hsound : (m.handing v acts).Sound .value)
    (hrunning : ∀ {pre pre' : List Activation} {a a' : Activation}, Abreast pre a pre' a' →
      (m.showing (pre ++ [a]) []).Sound .value →
      Progress.Matches n (.more (m.showing (pre ++ [a]) [])) (.more (m'.showing (pre' ++ [a']) []))) :
    (m.handing v acts).Matches n (m'.handing v' (acts' ++ idle)) := by
  induction acts using List.reverseRecOn generalizing acts' idle with
  | nil =>
    refine hm.matches_idle hidle ?_
    obtain ⟨blocks, rfl, hblocks⟩ := hacts
    cases hblocks
    rintro _ _ ⟨⟩ _ _
    exact ⟨0, _, _, rfl, .returned hv, hm.world⟩
  | append_singleton pre b ih =>
    refine hm.matches_idle hidle ?_
    obtain ⟨left, right, rfl, hleft, hright⟩ := hacts.split
    obtain ⟨ys, rest, rfl, ⟨⟨init, last, rfl, hinit, hlast⟩, hbounds⟩, blocks, rfl, hblocks⟩ :=
      hright.cons_inv
    cases hblocks
    rw [handing_of_ne _ (by simp)] at hsound ⊢
    rw [handing_of_ne _ (by simp), List.flatten_nil, List.append_nil, ← List.append_assoc]
    obtain hmirrors | ⟨hb, _, hlast⟩ := hlast
    · rw [← List.append_nil [v], ← showing_pushAll] at hsound ⊢
      rw [← List.append_nil [v'], ← showing_pushAll]
      have habreast : Abreast pre b (left ++ init) last :=
        ⟨⟨left, init, rfl, hleft, hinit, hbounds⟩, hmirrors⟩
      cases hsound with
      | more hsound =>
        exact hrunning (habreast.update (hmirrors.pushAll (.cons hv .nil)) rfl rfl) hsound
    · have hleads : Progress.Leads (.more (m.showing (pre ++ [b]) [v])) (m.handing v pre) :=
        hm.single.leads_of_idle hb v
      exact .left hleads (.right (hm.single'.leads_of_idle hlast v')
        (ih hleft hinit (hleads.sound hsound)))

/-- A run with plain calls that comes to an end is matched by the run with tail calls. -/
theorem matches_running {pre pre' : List Activation} {a a' : Activation} (hm : m.Coupled m')
    (h : Abreast pre a pre' a') (hsound : (m.showing (pre ++ [a]) []).Sound .value) (n : Nat) :
    Progress.Matches n (.more (m.showing (pre ++ [a]) [])) (.more (m'.showing (pre' ++ [a']) [])) := by
  induction n generalizing m m' pre pre' a a' with
  | zero => rintro _ _ ⟨⟩
  | succ n ih =>
    have hmatches : (m.showing (pre ++ [a]) []).advance.Matches n
        (m'.showing (pre' ++ [a']) []).advance := by
      have hadvance := hsound.advance
      have hmeets := Abreast.advance hm h hsound
      generalize (m.showing (pre ++ [a]) []).advance = p at hadvance hmeets
      generalize (m'.showing (pre' ++ [a']) []).advance = p' at hmeets
      cases hmeets with
      | paired hpaired =>
        cases hpaired with
        | running hm h =>
          cases hadvance with
          | more hsound => exact ih hm h hsound
        | given hm hacts hne hspare hv =>
          rw [← handing_of_ne _ hne] at hadvance ⊢
          rw [← handing_of_ne _ (by simp [hacts.ne_nil hne])]
          exact hm.matches_handing hacts (fun y hy => (hspare y hy).1) hv hadvance (ih hm)
      | handed hm hleft hidle hv => exact hm.matches_handing hleft hidle hv hadvance (ih hm)
      | failed hw =>
        rintro _ _ ⟨⟩ _ _
        exact ⟨0, _, _, rfl, .failed _, hw⟩
      | overflow he =>
        rintro _ _ ⟨⟩ _ hfits
        exact absurd he (hfits _ _ rfl)
      | spawned hm' =>
        intro _ _ _ hquiet _
        exact absurd (hquiet _ (.refl _)) hm'
    intro outcome' s' hrun hquiet hfits
    have hrun' : (m'.showing (pre' ++ [a']) []).run (n + 1) = some (outcome', s') := hrun
    rw [run_succ] at hrun'
    obtain ⟨fuel, outcome, s, hmatched, hrest⟩ := hmatches outcome' s' hrun'
      (fun m hm => hquiet m (.move hm)) hfits
    exact ⟨fuel + 1, outcome, s, (run_succ fuel).trans hmatched, hrest⟩

end Machine.Coupled

end Resumable
