import Resumable.Proofs.Machine.Bracket
import Resumable.Proofs.Machine.TwinStep

/-!
Two machines that run twins. Their threads may stand on different activations and lie inside different
calls, but above that they have the same calls in progress and the same tasks, move by move.
-/

namespace Resumable

/-- What two threads stand on: the activations below, the calls outside, and what is known of the first
call of each, whatever its phase. -/
structure Footing where
  low : List Activation
  low' : List Activation
  outer : List Level
  outer' : List Level
  first : Level → Level → Prop
  stable : ∀ level level' phase phase', first level level' →
    first { level with phase } { level' with phase := phase' }

/-- Tasks stand on nothing, and their first call ends the thread. -/
def Footing.task : Footing where
  low := []
  low' := []
  outer := []
  outer' := []
  first := fun level level' => level.purpose = .finish ∧ level'.purpose = .finish
  stable := fun _ _ _ _ h => h

/-- Calls inside others at the same place: what becomes of their outcomes is the same. -/
structure Level.Matches (level level' : Level) : Prop where
  line : level'.line = level.line
  purpose : level.purpose = .pass ∧ level'.purpose = .pass ∨
    level.purpose = .catch level.depth ∧ level'.purpose = .catch level'.depth

/-- Two calls that wait for a value. -/
def Level.WaitTogether (κ : Kind) (level level' : Level) (mid : List Activation) : Prop :=
  level.phase = .opening ∧ level'.phase = .opening ∧ mid = [] ∨
    level.phase = .running ∧ level'.phase = .running ∧ (κ = .clause → mid ≠ [])

/-- What lies below two calls at the same place: the footing, or further calls that wait. Only
functions of an embedding make calls inside others. -/
inductive Under (κ : Kind) (ρ : Pairing) (F : Footing) : Level → Level → List Activation →
    List Activation → List Level → List Level → Prop
  | first {level level' : Level} (hfirst : F.first level level') (hlevel : level.Above F.low)
    (hlevel' : level'.Above F.low') : Under κ ρ F level level' F.low F.low' F.outer F.outer'
  | inner {level level' o o' : Level} {below below' mid mid' : List Activation}
    {levels levels' : List Level} (hκ : κ = .clause)
    (hunder : Under κ ρ F o o' below below' levels levels')
    (hmid : List.Forall₂ (Activation.Twins κ ρ.ids (Value.Twins κ ρ) [.value]) mid mid')
    (hwaits : o.WaitTogether κ o' mid) (hmatch : level.Matches level')
    (hlevel : level.Above (below ++ mid)) (hlevel' : level'.Above (below' ++ mid')) :
    Under κ ρ F level level' (below ++ mid) (below' ++ mid') (o :: levels) (o' :: levels')

/-- How far two calls have come: they are about to be made, or they have been made and their values
are there, or the last of their activations run. If a clause may return at once, no activation may be
left to take its value. -/
inductive UnderwayTogether (κ : Kind) (ρ : Pairing) : Phase → Phase → List Activation →
    List Activation → List Value → List Value → Prop
  | made {callee callee' : Value} {args args' : List Value} (hcallee : callee.Twins κ ρ callee')
    (hargs : List.Forall₂ (Value.Twins κ ρ) args args') :
    UnderwayTogether κ ρ (.made callee args) (.made callee' args') [] [] [] []
  | given {v v' : Value} (hv : v.Twins κ ρ v') :
    UnderwayTogether κ ρ .opening .opening [] [] [v] [v']
  | entered {phase : Phase} {pre pre' : List Activation} {a a' : Activation}
    (hphase : phase = .opening ∨ phase = .running)
    (hpre : List.Forall₂ (Activation.Twins κ ρ.ids (Value.Twins κ ρ) [.value]) pre pre')
    (ha : a.Twins κ ρ.ids (Value.Twins κ ρ) [] a') :
    UnderwayTogether κ ρ phase phase (pre ++ [a]) (pre' ++ [a']) [] []
  | stranded {v v' : Value} (hκ : κ ≠ .clause) (hv : v.Twins κ ρ v') :
    UnderwayTogether κ ρ .running .running [] [] [v] [v']

namespace Thread

/-- Two threads that wait for a value. -/
inductive WaitTogether (κ : Kind) (ρ : Pairing) (F : Footing) (t t' : Thread) : Prop
  | intro {level level' : Level} {levels levels' : List Level}
    {below below' mid mid' : List Activation} (hlevels : t.levels = level :: levels)
    (hlevels' : t'.levels = level' :: levels')
    (hunder : Under κ ρ F level level' below below' levels levels')
    (hmid : List.Forall₂ (Activation.Twins κ ρ.ids (Value.Twins κ ρ) [.value]) mid mid')
    (hwaits : level.WaitTogether κ level' mid) (hshows : t = t.showing (below ++ mid) [])
    (hshows' : t' = t'.showing (below' ++ mid') [])

/-- Two threads that run. -/
inductive RunTogether (κ : Kind) (ρ : Pairing) (F : Footing) (t t' : Thread) : Prop
  | intro {level level' : Level} {levels levels' : List Level}
    {below below' mid mid' : List Activation} {extra extra' : List Value}
    (hlevels : t.levels = level :: levels) (hlevels' : t'.levels = level' :: levels')
    (hunder : Under κ ρ F level level' below below' levels levels')
    (hunderway : UnderwayTogether κ ρ level.phase level'.phase mid mid' extra extra')
    (hshows : t = t.showing (below ++ mid) extra) (hshows' : t' = t'.showing (below' ++ mid') extra')

end Thread

namespace Machine

/-- The next move of a machine finds no room. -/
def Overflowing (m : Machine) : Prop :=
  ∃ detail m', m.StopsAt (.error (.stackOverflow detail)) m'

/-- Where a move leads two threads that run on the given footing: both go on, or both wait for a task,
or the first call of each returns, and its outcome is delivered. -/
inductive ArriveTogether (κ : Kind) (ρ : Pairing) (F : Footing) (waiting waiting' : List (Int × Thread)) :
    Progress → Progress → Prop
  | on {m m' : Machine} (hworld : m.world.Related (twinning κ ρ) m'.world)
    (hwaiting : m.waiting = waiting) (hwaiting' : m'.waiting = waiting')
    (hrun : m.thread.RunTogether κ ρ F m'.thread) :
    ArriveTogether κ ρ F waiting waiting' (.more m) (.more m')
  | spawned {m m' : Machine} {id : Int} {t t' : Thread}
    (hworld : m.world.Related (twinning κ ρ) m'.world)
    (hwaiting : m.waiting = (id, t) :: waiting) (hwaiting' : m'.waiting = (id, t') :: waiting')
    (ht : t.WaitTogether κ ρ F t') (hrun : m.thread.RunTogether κ ρ .task m'.thread) :
    ArriveTogether κ ρ F waiting waiting' (.more m) (.more m')
  | delivered {m m' : Machine} {level level' : Level} {result result' : Except RuntimeError Value}
    (hfirst : F.first level level') (hworld : m.world.Related (twinning κ ρ) m'.world)
    (hwaiting : m.waiting = waiting) (hwaiting' : m'.waiting = waiting')
    (hlevels : m.thread.levels = F.outer) (hlevels' : m'.thread.levels = F.outer')
    (hshows : m.thread = m.thread.showing F.low []) (hshows' : m'.thread = m'.thread.showing F.low' [])
    (hresult : OutcomesRelated (Value.Twins κ ρ) result result') :
    ArriveTogether κ ρ F waiting waiting' (m.deliver level result) (m'.deliver level' result')

end Machine

variable {κ : Kind} {ρ : Pairing} {F : Footing} {level level' : Level} {levels levels' : List Level}
  {below below' mid mid' : List Activation}

theorem Machine.unwind_pass (hpass : level.purpose = .pass) {m : Machine} {e : RuntimeError} :
    m.unwind e (level :: levels) =
      { m with thread := { m.thread.leave level with levels } }.unwind (e.atLine level.line) levels := by
  rw [unwind, hpass]

/-- Handlers below a call are out of its sight. -/
theorem unseen_of_above (habove : level.Above below) : Unseen (level :: levels) below := by
  refine ⟨Nat.le_of_eq habove.depth, ?_⟩
  intro effect
  by_contra hfound
  obtain ⟨⟨index, h, clause⟩, hfind⟩ := Option.ne_none_iff_exists'.1 hfound
  obtain ⟨below', b, above, rfl, _, _, _, hbase, _⟩ := findHandler_locate hfind
  rw [Exec.baseOf, habove.depth, List.length_append, List.length_cons] at hbase
  omega

namespace Under

theorem above (hunder : Under κ ρ F level level' below below' levels levels') :
    level.Above below ∧ level'.Above below' := by
  cases hunder with
  | first _ hlevel hlevel' => exact ⟨hlevel, hlevel'⟩
  | inner _ _ _ _ _ hlevel hlevel' => exact ⟨hlevel, hlevel'⟩

/-- The calls below the first ones are still there. -/
theorem outer_le (hunder : Under κ ρ F level level' below below' levels levels') :
    F.outer.length ≤ levels.length ∧ F.outer'.length ≤ levels'.length := by
  induction hunder with
  | first => exact ⟨Nat.le_refl _, Nat.le_refl _⟩
  | inner _ _ _ _ _ _ _ ih => exact ⟨Nat.le_succ_of_le ih.1, Nat.le_succ_of_le ih.2⟩

/-- The phases of calls do not matter to what lies below them. -/
theorem setPhase (hunder : Under κ ρ F level level' below below' levels levels')
    (phase phase' : Phase) :
    Under κ ρ F { level with phase } { level' with phase := phase' } below below' levels levels' := by
  cases hunder with
  | first hfirst hlevel hlevel' =>
    exact .first (F.stable _ _ _ _ hfirst) ⟨hlevel.depth, hlevel.height, hlevel.handlers⟩
      ⟨hlevel'.depth, hlevel'.height, hlevel'.handlers⟩
  | inner hκ hunder hmid hwaits hmatch hlevel hlevel' =>
    exact .inner hκ hunder hmid hwaits ⟨hmatch.line, hmatch.purpose⟩
      ⟨hlevel.depth, hlevel.height, hlevel.handlers⟩ ⟨hlevel'.depth, hlevel'.height, hlevel'.handlers⟩

/-- Unless clauses are functions of two parameters, nothing lies below a call. -/
theorem eq_nil (hunder : Under κ ρ F level level' below below' levels levels')
    (hF : κ ≠ .clause → F.low = [] ∧ F.low' = []) (hκ : κ ≠ .clause) : below = [] ∧ below' = [] := by
  cases hunder with
  | first => exact hF hκ
  | inner hκ' => exact absurd hκ' hκ

end Under

/-- The last of some activations gets the value that it waits for. -/
theorem UnderwayTogether.of_given {phase : Phase} {v v' : Value} (hphase : phase = .opening ∨ phase = .running)
    (hmid : List.Forall₂ (Activation.Twins κ ρ.ids (Value.Twins κ ρ) [.value]) mid mid')
    (hne : mid ≠ []) (hv : v.Twins κ ρ v') (t t' : Thread) (below below' : List Activation) :
    ∃ acts acts', UnderwayTogether κ ρ phase phase acts acts' [] [] ∧
      t.showing (below ++ mid) [v] = t.showing (below ++ acts) [] ∧
      t'.showing (below' ++ mid') [v'] = t'.showing (below' ++ acts') [] := by
  obtain ⟨pre, a, rfl⟩ := (List.eq_nil_or_concat' mid).resolve_left hne
  obtain ⟨pre', a', rfl, hpre, ha⟩ := forall₂_concat_left hmid
  refine ⟨pre ++ [a.pushAll [v]], pre' ++ [a'.pushAll [v']], .entered hphase hpre (ha.push hv), ?_, ?_⟩
  · simp [Thread.showing]
  · simp [Thread.showing]

namespace Thread

variable {t t' : Thread}

theorem runTogether_showing {extra extra' : List Value} (hlevels : t.levels = level :: levels)
    (hlevels' : t'.levels = level' :: levels')
    (hunder : Under κ ρ F level level' below below' levels levels')
    (hunderway : UnderwayTogether κ ρ level.phase level'.phase mid mid' extra extra') :
    (t.showing (below ++ mid) extra).RunTogether κ ρ F (t'.showing (below' ++ mid') extra') :=
  .intro hlevels hlevels' hunder hunderway rfl rfl

/-- Two calls are about to be made. -/
theorem runTogether_made {callee callee' : Value} {args args' : List Value}
    (hlevels : t.levels = level :: levels) (hlevels' : t'.levels = level' :: levels')
    (hunder : Under κ ρ F level level' below below' levels levels')
    (hphase : level.phase = .made callee args) (hphase' : level'.phase = .made callee' args')
    (hcallee : callee.Twins κ ρ callee') (hargs : List.Forall₂ (Value.Twins κ ρ) args args')
    (hshows : t = t.showing below []) (hshows' : t' = t'.showing below' []) :
    t.RunTogether κ ρ F t' := by
  have hmade : UnderwayTogether κ ρ level.phase level'.phase [] [] [] [] := by
    rw [hphase, hphase']
    exact .made hcallee hargs
  refine .intro hlevels hlevels' hunder hmade ?_ ?_
  · rw [List.append_nil]
    exact hshows
  · rw [List.append_nil]
    exact hshows'

/-- Two calls that wait get their values. -/
theorem runTogether_of_given {v v' : Value} (hlevels : t.levels = level :: levels)
    (hlevels' : t'.levels = level' :: levels')
    (hunder : Under κ ρ F level level' below below' levels levels')
    (hmid : List.Forall₂ (Activation.Twins κ ρ.ids (Value.Twins κ ρ) [.value]) mid mid')
    (hphases : level.phase = .opening ∧ level'.phase = .opening ∨
      level.phase = .running ∧ level'.phase = .running ∧ (κ = .clause → mid ≠ []))
    (hv : v.Twins κ ρ v') :
    (t.showing (below ++ mid) [v]).RunTogether κ ρ F (t'.showing (below' ++ mid') [v']) := by
  by_cases hnil : mid = []
  · subst hnil
    cases hmid
    refine runTogether_showing hlevels hlevels' hunder ?_
    obtain ⟨hphase, hphase'⟩ | ⟨hphase, hphase', hne⟩ := hphases
    · rw [hphase, hphase']
      exact .given hv
    · rw [hphase, hphase']
      exact .stranded (fun hκ => hne hκ rfl) hv
  · have hphase : (level.phase = .opening ∨ level.phase = .running) ∧ level'.phase = level.phase := by
      obtain ⟨hphase, hphase'⟩ | ⟨hphase, hphase', _⟩ := hphases
      · exact ⟨Or.inl hphase, hphase'.trans hphase.symm⟩
      · exact ⟨Or.inr hphase, hphase'.trans hphase.symm⟩
    obtain ⟨acts, acts', hunderway, hshows, hshows'⟩ :=
      UnderwayTogether.of_given hphase.1 hmid hnil hv t t' below below'
    rw [hshows, hshows']
    refine runTogether_showing hlevels hlevels' hunder ?_
    rw [hphase.2]
    exact hunderway

theorem WaitTogether.push {v v' : Value} (hwaits : t.WaitTogether κ ρ F t')
    (hv : v.Twins κ ρ v') : (t.push v).RunTogether κ ρ F (t'.push v') := by
  obtain ⟨hlevels, hlevels', hunder, hmid, hwaits, hshows, hshows'⟩ := hwaits
  rw [hshows, hshows', showing_push, showing_push]
  exact runTogether_of_given hlevels hlevels' hunder hmid (hwaits.imp_left fun h => ⟨h.1, h.2.1⟩) hv

end Thread

namespace Under

variable {m m' : Machine}

/-- The values of two calls go to the calls outside, or the first calls return. -/
theorem answer {v v' : Value} (hunder : Under κ ρ F level level' below below' levels levels')
    (hworld : m.world.Related (twinning κ ρ) m'.world)
    (hlevels : m.thread.levels = level :: levels) (hlevels' : m'.thread.levels = level' :: levels')
    (hv : v.Twins κ ρ v') :
    Machine.ArriveTogether κ ρ F m.waiting m'.waiting ((m.showing below []).answer v)
      ((m'.showing below' []).answer v') := by
  have hcalls : (m.showing below []).thread.levels = level :: levels := hlevels
  have hcalls' : (m'.showing below' []).thread.levels = level' :: levels' := hlevels'
  cases hunder with
  | first hfirst hlevel hlevel' =>
    rw [Machine.answer_eq_deliver hcalls, Machine.answer_eq_deliver hcalls']
    exact .delivered hfirst hworld rfl rfl rfl rfl rfl rfl hv
  | @inner _ _ o o' below below' mid mid' levels levels' hκ hunder hmid hwaits hmatch hlevel hlevel' =>
    have houter : ({ m.thread.showing (below ++ mid) [] with levels := o :: levels } :
        Thread).WaitTogether κ ρ F
          { m'.thread.showing (below' ++ mid') [] with levels := o' :: levels' } :=
      .intro rfl rfl hunder hmid hwaits rfl rfl
    obtain ⟨hpass, hpass'⟩ | ⟨hcatch, hcatch'⟩ := hmatch.purpose
    · simp only [Machine.answer, hcalls, hcalls', hpass, hpass']
      exact .on hworld rfl rfl (houter.push hv)
    · simp only [Machine.answer, hcalls, hcalls', hcatch, hcatch']
      refine .on hworld rfl rfl (houter.push ((twinning κ ρ).tuple ?_))
      exact .cons ((twinning κ ρ).flat rfl) (.cons hv .nil)

/-- Two calls fail, and so do those outside until one catches the failure. -/
theorem unwind {e : RuntimeError} (hunder : Under κ ρ F level level' below below' levels levels')
    (hworld : m.world.Related (twinning κ ρ) m'.world) (hextends : m.thread.Extends below)
    (hextends' : m'.thread.Extends below') :
    Machine.ArriveTogether κ ρ F m.waiting m'.waiting (m.unwind e (level :: levels))
      (m'.unwind e (level' :: levels')) := by
  induction hunder generalizing m m' e with
  | first hfirst hlevel hlevel' =>
    rw [Machine.unwind_eq_deliver, Machine.unwind_eq_deliver,
      Thread.leave_eq_showing hextends hlevel, Thread.leave_eq_showing hextends' hlevel']
    exact .delivered hfirst hworld rfl rfl rfl rfl rfl rfl rfl
  | @inner level level' o o' below below' mid mid' levels levels' hκ hunder hmid hwaits hmatch hlevel
      hlevel' ih =>
    have hleave := Thread.leave_eq_showing hextends hlevel
    have hleave' := Thread.leave_eq_showing hextends' hlevel'
    obtain ⟨hpass, hpass'⟩ | ⟨hcatch, hcatch'⟩ := hmatch.purpose
    · rw [Machine.unwind_pass hpass, Machine.unwind_pass hpass', hleave, hleave', hmatch.line]
      let t : Thread := { m.thread.showing (below ++ mid) [] with levels := o :: levels }
      let t' : Thread := { m'.thread.showing (below' ++ mid') [] with levels := o' :: levels' }
      have hextends : t.Extends below := m.thread.extends_showing below mid []
      have hextends' : t'.Extends below' := m'.thread.extends_showing below' mid' []
      have hworld' : ({ m with thread := t } : Machine).world.Related (twinning κ ρ)
          ({ m' with thread := t' } : Machine).world := hworld
      exact ih hworld' hextends hextends'
    · simp only [Machine.unwind, hcatch, hcatch', hleave, hleave']
      have houter : ({ m.thread.showing (below ++ mid) [] with levels := o :: levels } :
          Thread).WaitTogether κ ρ F
            { m'.thread.showing (below' ++ mid') [] with levels := o' :: levels' } :=
        .intro rfl rfl hunder hmid hwaits rfl rfl
      have hsize : ∀ (t : Thread) (acts : List Activation) (level : Level), level.Above acts →
          ((t.showing acts []).frames.size : Int) - level.depth = 0 := by
        intro t acts level habove
        simp [habove.depth]
      rw [hsize _ _ _ hlevel, hsize _ _ _ hlevel']
      refine .on hworld rfl rfl (houter.push ((twinning κ ρ).tuple ?_))
      exact .cons ((twinning κ ρ).flat rfl) (.cons ((twinning κ ρ).flat rfl)
        (.cons ((twinning κ ρ).flat rfl) .nil))

end Under

/-- What two actions come to whose callers go on alike: both have the value `x` and lead to machines
that go on together, or both fail and the calls in progress with them. -/
inductive Exec.ArriveTogether {α : Type} (κ : Kind) (ρ : Pairing) (F : Footing)
    (waiting waiting' : List (Int × Thread)) (x : α) :
    EStateM.Result Stop Machine α → EStateM.Result Stop Machine α → Prop
  | ok {m m' : Machine} (hm : Machine.ArriveTogether κ ρ F waiting waiting' (.more m) (.more m')) :
    ArriveTogether κ ρ F waiting waiting' x (.ok x m) (.ok x m')
  | error {m m' : Machine} {e : RuntimeError}
    (hm : ∀ line, Machine.ArriveTogether κ ρ F waiting waiting' (m.stop line (.error e))
      (m'.stop line (.error e))) :
    ArriveTogether κ ρ F waiting waiting' x (.error (.error e) m) (.error (.error e) m')

namespace Level.WaitTogether

variable {start : List Activation}

/-- Calls that wait with some activations still wait with the first of them. -/
theorem shorten (hwaits : level.WaitTogether κ level' start) (hbefore : mid <+: start)
    (hsolid : κ = .clause → mid = [] → start = []) : level.WaitTogether κ level' mid := by
  obtain ⟨hphase, hphase', rfl⟩ | ⟨hphase, hphase', hne⟩ := hwaits
  · exact Or.inl ⟨hphase, hphase', List.prefix_nil.1 hbefore⟩
  · exact Or.inr ⟨hphase, hphase', fun hκ hnil => hne hκ (hsolid hκ hnil)⟩

theorem phases (hwaits : level.WaitTogether κ level' start) :
    (level.phase = .opening ∨ level.phase = .running) ∧ level'.phase = level.phase := by
  obtain ⟨hphase, hphase', _⟩ | ⟨hphase, hphase', _⟩ := hwaits
  · exact ⟨Or.inl hphase, hphase'.trans hphase.symm⟩
  · exact ⟨Or.inr hphase, hphase'.trans hphase.symm⟩

end Level.WaitTogether

/-- Actions that concur lead to machines that go on together. -/
theorem Exec.Concur.arrives {α : Type} {x : α} {s s' : Machine} {start : List Activation} {tells : Prop}
    {r r' : EStateM.Result Stop Machine α}
    (hconcur : Exec.Concur κ ρ s s' below below' start tells x r r')
    (hlevels : s.thread.levels = level :: levels) (hlevels' : s'.thread.levels = level' :: levels')
    (hunder : Under κ ρ F level level' below below' levels levels')
    (hwaits : level.WaitTogether κ level' start) :
    Exec.ArriveTogether κ ρ F s.waiting s'.waiting x r r' ∨
      (ρ.whole = true → r ≠ r') ∧ (Exec.Overflows r ∨ Exec.Overflows r' ∨ tells) := by
  cases hconcur with
  | @given m m' mid mid' v v' hm hmid hsolid hv =>
    refine Or.inl (.ok (.on hm.world hm.waiting hm.waiting' ?_))
    refine Thread.runTogether_of_given (hm.levels.trans hlevels) (hm.levels'.trans hlevels') hunder
      hmid (hwaits.imp (fun h => ⟨h.1, h.2.1⟩) fun h => ⟨h.1, h.2.1, ?_⟩) hv
    exact fun hκ hnil => h.2.2 hκ (hsolid hκ hnil)
  | @entered m m' mid mid' a a' hm hmid ha =>
    refine Or.inl (.ok (.on hm.world hm.waiting hm.waiting' ?_))
    refine Thread.runTogether_showing (hm.levels.trans hlevels) (hm.levels'.trans hlevels') hunder ?_
    rw [hwaits.phases.2]
    exact .entered hwaits.phases.1 hmid ha
  | @called m m' mid mid' callee callee' args args' line mode hm hmid hbefore hsolid hκ hcallee
      hargs =>
    refine Or.inl (.ok (.on hm.world hm.waiting hm.waiting' ?_))
    refine Thread.runTogether_made rfl rfl ?_ rfl rfl hcallee hargs rfl rfl
    simp only [Machine.showing_thread, Thread.showing_levels, hm.levels, hm.levels', hlevels, hlevels']
    refine .inner hκ hunder hmid (hwaits.shorten hbefore hsolid) ⟨rfl, ?_⟩ ?_ ?_
    · cases mode <;> simp [CallMode.purpose]
    · constructor <;> simp
    · constructor <;> simp
  | @spawned m m' mid mid' callee callee' hm hmid hbefore hsolid hwhole hcallee =>
    obtain ⟨hid, hdrawn⟩ := hm.world.drawTask hwhole
    have hwait : (m.showing (below ++ mid) []).thread.WaitTogether κ ρ F
        (m'.showing (below' ++ mid') []).thread :=
      .intro (hm.levels.trans hlevels) (hm.levels'.trans hlevels') hunder hmid
        (hwaits.shorten hbefore hsolid) rfl rfl
    have hfirst : Under κ ρ .task (Machine.taskLevel callee) (Machine.taskLevel callee') [] [] []
        [] := .first ⟨rfl, rfl⟩ ⟨rfl, rfl, rfl⟩ ⟨rfl, rfl, rfl⟩
    have hwaiting : ((m.showing (below ++ mid) []).spawning callee).waiting =
        (m.world.tasks.draw.1, m.thread.showing (below ++ mid) []) :: s.waiting := by
      rw [← hm.waiting]
      rfl
    have hwaiting' : ((m'.showing (below' ++ mid') []).spawning callee').waiting =
        (m.world.tasks.draw.1, m'.thread.showing (below' ++ mid') []) :: s'.waiting := by
      rw [← hm.waiting', ← hid]
      rfl
    exact Or.inl (.ok (.spawned hdrawn hwaiting hwaiting' hwait
      (Thread.runTogether_made rfl rfl hfirst rfl rfl hcallee .nil rfl rfl)))
  | @failed m m' e hm hextends hextends' =>
    refine Or.inl (.error fun line => ?_)
    rw [Machine.stop, Machine.stop, hm.levels, hm.levels', hlevels, hlevels', ← hm.waiting,
      ← hm.waiting']
    exact hunder.unwind hm.world hextends hextends'
  | parted hne hcause => exact Or.inr ⟨hne, hcause⟩

namespace Machine

variable {m m' : Machine}

theorem eq_showing {acts : List Activation} {extra : List Value}
    (hshows : m.thread = m.thread.showing acts extra) : m = m.showing acts extra := by
  rw [showing, ← hshows]

theorem advance_made {callee : Value} {args : List Value} (hlevels : m.thread.levels = level :: levels)
    (hphase : level.phase = .made callee args) :
    m.advance = .ofCall 0 (Exec.call callee args 0 false (m.setPhase .opening)) := by
  rw [advance, hlevels]
  simp only [hphase]
  rfl

theorem advance_opening (hlevels : m.thread.levels = level :: levels) (hphase : level.phase = .opening) :
    m.advance = m.settleCall level := by
  rw [advance, hlevels]
  simp only [hphase]

/-- What an instruction at `line` leads to. -/
def ofInstruction (line : Nat) : EStateM.Result Stop Machine (Option Value) → Progress
  | .ok none m => .more m
  | .ok (some v) m => m.answer v
  | .error s m => m.stop line s

theorem advance_running {i : Fetched} {m₁ : Machine} (hlevels : m.thread.levels = level :: levels)
    (hphase : level.phase = .running) (hfetch : Exec.fetch m = .ok i m₁) :
    m.advance = ofInstruction i.line (Exec.execute i m₁) := by
  rw [advance, hlevels]
  simp only [hphase, runInstruction, hfetch]
  cases Exec.execute i m₁ with
  | ok result n => cases result <;> rfl
  | error => rfl

/-- Calls that are made. -/
theorem advance_together_made {callee callee' : Value} {args args' : List Value}
    (hworld : m.world.Related (twinning κ ρ) m'.world)
    (hlevels : m.thread.levels = level :: levels) (hlevels' : m'.thread.levels = level' :: levels')
    (hunder : Under κ ρ F level level' below below' levels levels')
    (hphase : level.phase = .made callee args) (hphase' : level'.phase = .made callee' args')
    (hcallee : callee.Twins κ ρ callee') (hargs : List.Forall₂ (Value.Twins κ ρ) args args')
    (hshows : m.thread = m.thread.showing below []) (hshows' : m'.thread = m'.thread.showing below' []) :
    ArriveTogether κ ρ F m.waiting m'.waiting m.advance m'.advance ∨
      (ρ.whole = true → m ≠ m') ∧ (m.Overflowing ∨ m'.Overflowing ∨ m.Invokes ρ.tells) := by
  rw [advance_made hlevels hphase, advance_made hlevels' hphase']
  have hsets : ∀ {n : Machine} {acts : List Activation}, n.thread = n.thread.showing acts [] →
      n.setPhase .opening = (n.setPhase .opening).showing (acts ++ []) [] := by
    intro n acts hn
    rw [List.append_nil]
    exact setPhase_showing (eq_showing hn) .opening
  have hcalls : ∀ {n : Machine} {first : Level} {rest : List Level}, n.thread.levels = first :: rest →
      (n.setPhase .opening).thread.levels = { first with phase := .opening } :: rest := by
    intro n first rest hn
    simp only [Machine.setPhase, Thread.setPhase, hn]
  have habove := hunder.above
  have hunseen : Unseen (m.setPhase .opening).thread.levels below := by
    rw [hcalls hlevels]
    exact unseen_of_above ⟨habove.1.depth, habove.1.height, habove.1.handlers⟩
  have hunseen' : Unseen (m'.setPhase .opening).thread.levels below' := by
    rw [hcalls hlevels']
    exact unseen_of_above ⟨habove.2.depth, habove.2.height, habove.2.handlers⟩
  have hbeside : Beside (twinning κ ρ) (m.setPhase .opening) (m'.setPhase .opening)
      (m.setPhase .opening) (m'.setPhase .opening) := ⟨hworld, rfl, rfl, rfl, rfl⟩
  have htells : Exec.Invokes ρ.tells callee args ((m.setPhase .opening).showing (below ++ []) []) →
      m.Invokes ρ.tells := by
    rw [← hsets hshows]
    exact .made hlevels hphase
  have hconcur := Exec.Concur.call hbeside hunseen hunseen' .nil hcallee hargs 0 htells
  rw [← hsets hshows, ← hsets hshows'] at hconcur
  obtain harrive | ⟨hne, hcause⟩ := hconcur.arrives (hcalls hlevels) (hcalls hlevels')
    (hunder.setPhase .opening .opening) (Or.inl ⟨rfl, rfl, rfl⟩)
  · generalize Exec.call callee args 0 false (m.setPhase .opening) = r at harrive
    generalize Exec.call callee' args' 0 false (m'.setPhase .opening) = r' at harrive
    cases harrive with
    | ok hm => exact Or.inl hm
    | error hm => exact Or.inl (hm 0)
  · refine Or.inr ⟨?_, hcause.imp ?_ (Or.imp_left ?_)⟩
    · rintro hwhole rfl
      rw [hlevels] at hlevels'
      cases hlevels'
      rw [hphase] at hphase'
      cases hphase'
      exact hne hwhole rfl
    · rintro ⟨detail, n, hstop⟩
      exact ⟨detail, n, .call hlevels hphase hstop⟩
    · rintro ⟨detail, n, hstop⟩
      exact ⟨detail, n, .call hlevels' hphase' hstop⟩

/-- A call that is made may turn out to need no activation, or it has some. -/
theorem settle_given {v : Value} (habove : level.Above below)
    (hshows : m.thread = m.thread.showing (below ++ []) [v]) :
    m.settleCall level = (m.showing below []).answer v := by
  have hdepth : ¬ level.depth < m.thread.frames.size := by
    rw [hshows, habove.depth]
    simp
  rw [settleCall, if_neg hdepth, pop_given (eq_showing hshows)]

theorem settle_entered {extra : List Value} (habove : level.Above below) (hne : mid ≠ [])
    (hshows : m.thread = m.thread.showing (below ++ mid) extra) :
    m.settleCall level = .more (m.setPhase .running) := by
  have hdepth : level.depth < m.thread.frames.size := by
    rw [hshows, habove.depth]
    simpa using List.length_pos_iff.2 hne
  rw [settleCall, if_pos hdepth]
  rfl

/-- Instructions that are executed. -/
theorem advance_together_running {pre pre' : List Activation} {a a' : Activation}
    (hκ : κ = .value ∨ κ = .clause) (hworld : m.world.Related (twinning κ ρ) m'.world)
    (hlevels : m.thread.levels = level :: levels) (hlevels' : m'.thread.levels = level' :: levels')
    (hunder : Under κ ρ F level level' below below' levels levels')
    (hphase : level.phase = .running) (hphase' : level'.phase = .running)
    (hpre : List.Forall₂ (Activation.Twins κ ρ.ids (Value.Twins κ ρ) [.value]) pre pre')
    (ha : a.Twins κ ρ.ids (Value.Twins κ ρ) [] a')
    (hshows : m.thread = m.thread.showing (below ++ (pre ++ [a])) [])
    (hshows' : m'.thread = m'.thread.showing (below' ++ (pre' ++ [a'])) []) :
    ArriveTogether κ ρ F m.waiting m'.waiting m.advance m'.advance ∨
      (ρ.whole = true → m ≠ m') ∧ (m.Overflowing ∨ m'.Overflowing ∨ m.Invokes ρ.tells) := by
  obtain ⟨habove, habove'⟩ := hunder.above
  have hbase : Exec.baseOf m.thread.levels = below.length := by
    rw [hlevels]
    exact habove.depth
  have hbase' : Exec.baseOf m'.thread.levels = below'.length := by
    rw [hlevels']
    exact habove'.depth
  have hunseen : Unseen m.thread.levels below := by
    rw [hlevels]
    exact unseen_of_above habove
  have hunseen' : Unseen m'.thread.levels below' := by
    rw [hlevels']
    exact unseen_of_above habove'
  have hlength := hpre.length_eq
  rw [← List.append_assoc] at hshows hshows'
  obtain ⟨i, m₁, m₁', hfetch, hfetch', hexecutes⟩ := executes_beside ⟨hworld, rfl, rfl, rfl, rfl⟩
    hunseen hunseen' hpre ha hκ
      (by intro _ _ _ _ _ _ _; simp [hbase, hbase', hlength]) hlevels
      hphase
  rw [← eq_showing hshows] at hfetch hexecutes
  rw [← eq_showing hshows'] at hfetch'
  rw [advance_running hlevels hphase hfetch, advance_running hlevels' hphase' hfetch']
  generalize hr : Exec.execute i m₁ = r at hexecutes
  generalize hr' : Exec.execute i m₁' = r' at hexecutes
  have hconcurs : ∀ b, Exec.Concur κ ρ m m' below below' (pre ++ [b]) (m.Invokes ρ.tells) none r r' →
      ArriveTogether κ ρ F m.waiting m'.waiting (ofInstruction i.line r) (ofInstruction i.line r') ∨
        (ρ.whole = true → m ≠ m') ∧ (m.Overflowing ∨ m'.Overflowing ∨ m.Invokes ρ.tells) := by
    intro b hconcur
    obtain harrive | ⟨hne, hcause⟩ := hconcur.arrives hlevels hlevels' hunder
      (Or.inr ⟨hphase, hphase', by simp⟩)
    · cases harrive with
      | ok hm => exact Or.inl hm
      | error hm => exact Or.inl (hm i.line)
    · refine Or.inr ⟨?_, hcause.imp ?_ (Or.imp_left ?_)⟩
      · rintro hwhole rfl
        rw [hfetch] at hfetch'
        cases hfetch'
        exact hne hwhole (hr.symm.trans hr')
      · rintro ⟨detail, n, rfl⟩
        exact ⟨detail, n, .execute hlevels hphase hfetch hr⟩
      · rintro ⟨detail, n, rfl⟩
        exact ⟨detail, n, .execute hlevels' hphase' hfetch' hr'⟩
  cases hexecutes with
  | @returns v v' hv =>
    by_cases hnil : pre = []
    · subst hnil
      cases hpre
      rw [if_pos (by simp [hbase]), if_pos (by simp [hbase']), List.append_nil, List.append_nil]
      exact Or.inl (hunder.answer hworld hlevels hlevels' hv)
    · have hpos : pre.length ≠ 0 := by simpa using hnil
      refine hconcurs a ?_
      rw [if_neg (by rw [hbase, List.length_append]; omega),
        if_neg (by rw [hbase', List.length_append]; omega)]
      exact .given ⟨hworld, rfl, rfl, rfl, rfl⟩ hpre (fun _ h => absurd h hnil) hv
  | @concur _ _ b hconcur => exact hconcurs b hconcur

/-- One move of two machines that run together on the same footing. They part only if one of them
finds no room or a function is called that depends on what need not correspond, and only if they are not
the same machine. -/
theorem advance_together (hκ : κ = .value ∨ κ = .clause)
    (hF : κ ≠ .clause → F.low = [] ∧ F.low' = [])
    (hworld : m.world.Related (twinning κ ρ) m'.world)
    (hrun : m.thread.RunTogether κ ρ F m'.thread) :
    ArriveTogether κ ρ F m.waiting m'.waiting m.advance m'.advance ∨
      (ρ.whole = true → m ≠ m') ∧ (m.Overflowing ∨ m'.Overflowing ∨ m.Invokes ρ.tells) := by
  obtain ⟨hlevels, hlevels', hunder, hunderway, hshows, hshows'⟩ := hrun
  rename_i level level' levels levels' below below' mid mid' extra extra'
  obtain ⟨habove, habove'⟩ := hunder.above
  generalize hphase : level.phase = phase at hunderway
  generalize hphase' : level'.phase = phase' at hunderway
  cases hunderway with
  | made hcallee hargs =>
    rw [List.append_nil] at hshows hshows'
    exact advance_together_made hworld hlevels hlevels' hunder hphase hphase' hcallee hargs hshows
      hshows'
  | given hv =>
    rw [advance_opening hlevels hphase, advance_opening hlevels' hphase', settle_given habove hshows,
      settle_given habove' hshows']
    exact Or.inl (hunder.answer hworld hlevels hlevels' hv)
  | @entered phase pre pre' a a' hentered hpre ha =>
    obtain rfl | rfl := hentered
    · rw [advance_opening hlevels hphase, advance_opening hlevels' hphase',
        settle_entered habove (by simp) hshows, settle_entered habove' (by simp) hshows']
      refine Or.inl (.on hworld rfl rfl ?_)
      rw [setPhase_showing (eq_showing hshows), setPhase_showing (eq_showing hshows')]
      refine Thread.runTogether_showing ?_ ?_ (hunder.setPhase .running .running)
        (.entered (Or.inr rfl) hpre ha)
      · simp only [Machine.setPhase, Thread.setPhase, hlevels]
      · simp only [Machine.setPhase, Thread.setPhase, hlevels']
    · exact advance_together_running hκ hworld hlevels hlevels' hunder hphase hphase' hpre ha hshows
        hshows'
  | stranded hκ' hv =>
    obtain ⟨rfl, rfl⟩ := hunder.eq_nil hF hκ'
    have hfetch : ∀ {n : Machine} {v : Value}, n.thread = n.thread.showing ([] ++ []) [v] →
        Exec.fetch n = .error (.error (.invalidBytecode "no active frame")) n := by
      intro n v hn
      rw [eq_showing hn]
      rfl
    have hstop : ∀ {n : Machine} {first : Level} {rest : List Level} {v : Value},
        n.thread.levels = first :: rest → first.phase = .running →
        n.thread = n.thread.showing ([] ++ []) [v] →
        n.advance = n.unwind (.invalidBytecode "no active frame") (first :: rest) := by
      intro n first rest v hn hrunning hshown
      rw [advance, hn]
      simp only [hrunning, runInstruction, hfetch hshown, stop, hn]
      rfl
    rw [hstop hlevels hphase hshows, hstop hlevels' hphase' hshows']
    refine Or.inl (hunder.unwind hworld ?_ ?_)
    · rw [hshows]
      exact m.thread.extends_self [] _
    · rw [hshows']
      exact m'.thread.extends_self [] _

end Machine

end Resumable
