import Resumable.Proofs.Machine.TwinRun

/-!
Two machines that run twins, with the tasks that they start. A task stands on nothing, and while it
runs, the threads that started it wait in the same place. So both machines go on together until the
first calls of the threads with which they began return.
-/

namespace Resumable

/-- Threads that wait for tasks, the latest first. Those that were there before, `waiting` in one
machine and `waiting'` in the other, do not matter. The thread that runs stands on the last footing. -/
inductive WaitingTogether (κ : Kind) (ρ : Pairing) (F : Footing)
    (waiting waiting' : List (Int × Thread)) :
    Footing → List (Int × Thread) → List (Int × Thread) → Prop
  | nil : WaitingTogether κ ρ F waiting waiting' F waiting waiting'
  | cons {G : Footing} {tasks tasks' : List (Int × Thread)} {id : Int} {t t' : Thread}
    (htasks : WaitingTogether κ ρ F waiting waiting' G tasks tasks')
    (ht : t.WaitTogether κ ρ G t') :
    WaitingTogether κ ρ F waiting waiting' .task ((id, t) :: tasks) ((id, t') :: tasks')

/-- Unless clauses are functions of two parameters, nothing lies below the first call of the thread that
runs. -/
theorem WaitingTogether.low_eq_nil {κ : Kind} {ρ : Pairing} {F G : Footing}
    {waiting waiting' tasks tasks' : List (Int × Thread)}
    (htasks : WaitingTogether κ ρ F waiting waiting' G tasks tasks')
    (hF : κ ≠ .clause → F.low = [] ∧ F.low' = []) (hκ : κ ≠ .clause) : G.low = [] ∧ G.low' = [] := by
  cases htasks with
  | nil => exact hF hκ
  | cons => exact ⟨rfl, rfl⟩

namespace Machine

/-- Two machines that run together since their threads stood on the given footing. -/
structure Together (κ : Kind) (ρ : Pairing) (F : Footing) (waiting waiting' : List (Int × Thread))
    (m m' : Machine) : Prop where
  world : m.world.Related (twinning κ ρ) m'.world
  threads : ∃ G, WaitingTogether κ ρ F waiting waiting' G m.waiting m'.waiting ∧
    m.thread.RunTogether κ ρ G m'.thread

/-- Where the first calls on a footing have returned, with related outcomes that are delivered. -/
structure ReturnTogether (κ : Kind) (ρ : Pairing) (F : Footing) (waiting waiting' : List (Int × Thread))
    (level level' : Level) (result result' : Except RuntimeError Value) (m m' : Machine) : Prop where
  first : F.first level level'
  world : m.world.Related (twinning κ ρ) m'.world
  waiting : m.waiting = waiting
  waiting' : m'.waiting = waiting'
  levels : m.thread.levels = F.outer
  levels' : m'.thread.levels = F.outer'
  shows : m.thread = m.thread.showing F.low []
  shows' : m'.thread = m'.thread.showing F.low' []
  result : OutcomesRelated (Value.Twins κ ρ) result result'

/-- Where a move leads two machines that run together. -/
inductive ProceedTogether (κ : Kind) (ρ : Pairing) (F : Footing)
    (waiting waiting' : List (Int × Thread)) : Progress → Progress → Prop
  | on {m m' : Machine} (hm : Together κ ρ F waiting waiting' m m') :
    ProceedTogether κ ρ F waiting waiting' (.more m) (.more m')
  | returns {m m' : Machine} {level level' : Level} {result result' : Except RuntimeError Value}
    (hm : ReturnTogether κ ρ F waiting waiting' level level' result result' m m') :
    ProceedTogether κ ρ F waiting waiting' (m.deliver level result) (m'.deliver level' result')

variable {κ : Kind} {ρ : Pairing} {F : Footing} {waiting waiting' : List (Int × Thread)}
  {m m' s s' : Machine}

theorem deliver_finish {level : Level} (hpurpose : level.purpose = .finish)
    (result : Except RuntimeError Value) : m.deliver level result = m.finish result := by
  cases result <;> simp only [deliver, hpurpose]

/-- Tasks end with related outcomes, and the threads that wait for them get their number. -/
theorem finish_together {G : Footing} {tasks tasks' : List (Int × Thread)} {id : Int} {t t' : Thread}
    {result result' : Except RuntimeError Value}
    (htasks : WaitingTogether κ ρ F waiting waiting' G tasks tasks')
    (ht : t.WaitTogether κ ρ G t') (hworld : m.world.Related (twinning κ ρ) m'.world)
    (hwaiting : m.waiting = (id, t) :: tasks) (hwaiting' : m'.waiting = (id, t') :: tasks')
    (hresult : OutcomesRelated (Value.Twins κ ρ) result result') :
    ProceedTogether κ ρ F waiting waiting' (m.finish result) (m'.finish result') := by
  simp only [finish, hwaiting, hwaiting']
  exact .on ⟨hworld.storeResult id hresult, G, htasks, ht.push ((twinning κ ρ).flat rfl)⟩

/-- One move of two machines that run together. They part only if one of them finds no room or a function
is called that depends on what need not correspond, and only if they are not the same machine. -/
theorem Together.advance (hκ : κ = .value ∨ κ = .clause)
    (hF : κ ≠ .clause → F.low = [] ∧ F.low' = []) (hm : Together κ ρ F waiting waiting' m m') :
    ProceedTogether κ ρ F waiting waiting' m.advance m'.advance ∨
      (ρ.whole = true → m ≠ m') ∧ (m.Overflowing ∨ m'.Overflowing ∨ m.Invokes ρ.tells) := by
  obtain ⟨hworld, G, htasks, hrun⟩ := hm
  have hstep := fun hG => advance_together hκ hG hworld hrun
  generalize m.waiting = tasks at htasks hstep
  generalize m'.waiting = tasks' at htasks hstep
  refine (hstep (htasks.low_eq_nil hF)).imp_left fun harrive => ?_
  generalize m.advance = progress at harrive
  generalize m'.advance = progress' at harrive
  cases harrive with
  | on hworld hsame hsame' hrun =>
    refine .on ⟨hworld, G, ?_, hrun⟩
    rw [hsame, hsame']
    exact htasks
  | spawned hworld hmore hmore' ht hrun =>
    refine .on ⟨hworld, .task, ?_, hrun⟩
    rw [hmore, hmore']
    exact .cons htasks ht
  | delivered hfirst hworld hsame hsame' hlevels hlevels' hshows hshows' hresult =>
    cases htasks with
    | nil => exact .returns ⟨hfirst, hworld, hsame, hsame', hlevels, hlevels', hshows, hshows', hresult⟩
    | cons htasks ht =>
      rw [deliver_finish hfirst.1, deliver_finish hfirst.2]
      exact finish_together htasks ht hworld hsame hsame' hresult

/-- The first calls on a footing are in progress as long as the machines run together. -/
theorem Together.encloses {first first' : Level} (hm : Together κ ρ F s.waiting s'.waiting m m')
    (hlevels : s.thread.levels = first :: F.outer) (hlevels' : s'.thread.levels = first' :: F.outer') :
    s.Encloses m ∧ s'.Encloses m' := by
  obtain ⟨_, G, htasks, hrun⟩ := hm
  have hlonger : ∀ {G : Footing} {tasks tasks' : List (Int × Thread)},
      WaitingTogether κ ρ F s.waiting s'.waiting G tasks tasks' →
      s.waiting.length ≤ tasks.length ∧ s'.waiting.length ≤ tasks'.length := by
    intro G tasks tasks' htasks
    induction htasks with
    | nil => exact ⟨Nat.le_refl _, Nat.le_refl _⟩
    | cons _ _ ih => exact ⟨Nat.le_succ_of_le ih.1, Nat.le_succ_of_le ih.2⟩
  generalize hwaiting : m.waiting = tasks at htasks
  generalize hwaiting' : m'.waiting = tasks' at htasks
  unfold Encloses
  rw [hwaiting, hwaiting', hlevels, hlevels']
  cases htasks with
  | nil =>
    obtain ⟨hcalls, hcalls', hunder, _⟩ := hrun
    have houter := hunder.outer_le
    rw [hcalls, hcalls']
    exact ⟨Or.inr ⟨rfl, Nat.succ_le_succ houter.1⟩, Or.inr ⟨rfl, Nat.succ_le_succ houter.2⟩⟩
  | cons htasks =>
    have hle := hlonger htasks
    exact ⟨Or.inl (Nat.lt_succ_of_le hle.1), Or.inl (Nat.lt_succ_of_le hle.2)⟩

theorem after_succ_of_more {n : Nat} {m₁ : Machine} (hmove : (m.after n).advance = .more m₁) :
    m.after (n + 1) = m₁ := by
  rw [after_succ, after, hmove]
  rfl

/-- Two calls are in progress after `n` moves, and the shared states are related. -/
structure Alongside (κ : Kind) (ρ : Pairing) (s s' : Machine) (n : Nat) : Prop where
  during : s.During (s.after n)
  during' : s'.During (s'.after n)
  world : (s.after n).world.Related (twinning κ ρ) (s'.after n).world

/-- As long as neither machine finds no room and no function is called that depends on what need not
correspond, the first calls on a footing go on side by side, until both return in the same move. -/
theorem Together.goes_on {first first' : Level} (hκ : κ = .value ∨ κ = .clause)
    (hF : κ ≠ .clause → F.low = [] ∧ F.low' = []) (hs : Together κ ρ F s.waiting s'.waiting s s')
    (hlevels : s.thread.levels = first :: F.outer) (hlevels' : s'.thread.levels = first' :: F.outer')
    {n : Nat} (hfree : ∀ i < n, Alongside κ ρ s s' i → ¬ (s.after i).Overflowing ∧
      ¬ (s'.after i).Overflowing ∧ ¬ (s.after i).Invokes ρ.tells) :
    Alongside κ ρ s s' n ∧ Together κ ρ F s.waiting s'.waiting (s.after n) (s'.after n) ∨
      ∃ i < n, Alongside κ ρ s s' i ∧ ∃ level level' result result' x x',
        ReturnTogether κ ρ F s.waiting s'.waiting level level' result result' x x' ∧
        (s.after i).advance = x.deliver level result ∧
        (s'.after i).advance = x'.deliver level' result' := by
  induction n with
  | zero => exact Or.inl ⟨⟨.made, .made, hs.world⟩, hs⟩
  | succ n ih =>
    obtain ⟨halong, htogether⟩ | ⟨i, hi, hreturns⟩ :=
      ih fun i hi => hfree i (Nat.lt_succ_of_lt hi)
    · obtain ⟨hroom, hroom', htells⟩ := hfree n (Nat.lt_succ_self n) halong
      obtain hproceed | ⟨_, hcause⟩ := htogether.advance hκ hF
      · generalize hmove : (s.after n).advance = progress at hproceed
        generalize hmove' : (s'.after n).advance = progress' at hproceed
        cases hproceed with
        | on hm =>
          refine Or.inl ?_
          obtain ⟨hinside, hinside'⟩ := hm.encloses hlevels hlevels'
          have hduring := During.next halong.during hmove hinside
          have hduring' := During.next halong.during' hmove' hinside'
          rw [← after_succ_of_more hmove, ← after_succ_of_more hmove'] at hm
          rw [← after_succ_of_more hmove] at hduring
          rw [← after_succ_of_more hmove'] at hduring'
          exact ⟨⟨hduring, hduring', hm.world⟩, hm⟩
        | returns hm =>
          exact Or.inr ⟨n, Nat.lt_succ_self n, halong, _, _, _, _, _, _, hm, hmove, hmove'⟩
      · exact absurd hcause (by simp only [hroom, hroom', htells, or_self, not_false_eq_true])
    · exact Or.inr ⟨i, Nat.lt_succ_of_lt hi, hreturns⟩

end Machine

end Resumable
