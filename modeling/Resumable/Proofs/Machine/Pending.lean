import Resumable.Proofs.Machine.Bracket
import Resumable.Proofs.Machine.TailRun
import Resumable.Proofs.Machine.Turn

/-!
An activation that is pending: whatever is called above it, it and everything below it stay in place
until it returns, or a clause or a suspended computation takes its place. Calls of other functions in
tail position give it another function.
-/

namespace Resumable

/-- The frame at a depth is there, and it is not the boundary of a handler. -/
def Thread.PlainAt (t : Thread) (depth : Nat) : Prop :=
  ∃ f, t.frames[depth]? = some f ∧ f.boundary = false

instance (t : Thread) (depth : Nat) : Decidable (t.PlainAt depth) :=
  decidable_of_iff ((t.frames[depth]?).any (fun f => !f.boundary) = true) (by
    unfold Thread.PlainAt
    cases t.frames[depth]? <;> simp)

/-- An activation that is not a boundary is pending directly above the activations `low`. It belongs to
the innermost of the calls `outer`, and all calls inside that one have been made above it. -/
structure Thread.Pending (t : Thread) (low : List Activation) (outer : List Level) : Prop where
  calls : ∃ inner, t.levels = inner ++ outer ∧ ∀ level ∈ inner, low.length < level.depth
  below : t.Extends low
  frame : ∃ f, t.frames[low.length]? = some f ∧ f.boundary = false ∧ f.base = heightOf low

/-- There are as many handlers as there are boundaries. -/
theorem length_handlersFrom_frames (depth height : Nat) (acts : List Activation) :
    (handlersFrom depth height acts).length = (framesFrom height acts).countP Frame.boundary := by
  induction acts generalizing depth height with
  | nil => rfl
  | cons a acts ih =>
    rw [handlersFrom_cons, framesFrom_cons, List.length_append, List.countP_cons, ih,
      Activation.length_installed, Nat.add_comm]
    rfl

namespace Thread

variable {t : Thread} {low acts : List Activation} {outer : List Level} {extra : List Value}

/-- The activations of a thread in which one is pending. -/
theorem Pending.split (hpending : t.Pending low outer) (hshows : t = t.showing acts extra) :
    ∃ a up, acts = low ++ a :: up ∧ a.handler = none := by
  obtain ⟨frames, stack, handlers, hframes, hstack, hhandlers⟩ := hpending.below
  obtain ⟨f, hf, hplain, hbase⟩ := hpending.frame
  rw [hshows] at hframes hstack hhandlers hf
  rw [showing_frames, List.getElem?_toArray] at hf
  replace hframes := List.toArray_inj hframes
  replace hstack := List.toArray_inj hstack
  replace hhandlers := List.toArray_inj hhandlers
  obtain ⟨start, a, up, rfl, hlength, rfl⟩ := framesFrom_locate hf
  have hnone : a.handler = none := by simpa [Activation.frame] using hplain
  rw [framesFrom_append] at hframes
  obtain ⟨hframes, _⟩ := List.append_inj hframes (by simp [hlength])
  have hheight : heightOf start = heightOf low := by
    simpa [Activation.frame, Activation.mark, hnone] using hbase
  rw [stackOf_append, List.append_assoc] at hstack
  obtain ⟨hstack, _⟩ := List.append_inj hstack (by simp [hheight])
  rw [handlersFrom_append] at hhandlers
  obtain ⟨hhandlers, _⟩ := List.append_inj hhandlers
    (by rw [length_handlersFrom_frames, length_handlersFrom_frames, hframes])
  exact ⟨a, up, by rw [acts_unique hframes hhandlers hstack], hnone⟩

theorem Extends.pending {a : Activation} {up : List Activation}
    (hextends : t.Extends (low ++ a :: up)) (ha : a.handler = none)
    (hcalls : ∃ inner, t.levels = inner ++ outer ∧ ∀ level ∈ inner, low.length < level.depth) :
    t.Pending low outer := by
  refine ⟨hcalls, hextends.prefix, ?_⟩
  obtain ⟨frames, _, _, hframes, _⟩ := hextends
  refine ⟨a.frame (heightOf low), ?_, ?_, ?_⟩
  · simp [hframes]
  · simp [Activation.frame, ha]
  · simp [Activation.frame, Activation.mark, ha]

theorem pending_showing {a : Activation} {up : List Activation} (t : Thread)
    (hcalls : ∃ inner, t.levels = inner ++ outer ∧ ∀ level ∈ inner, low.length < level.depth)
    (ha : a.handler = none) (extra : List Value) :
    (t.showing (low ++ a :: up) extra).Pending low outer :=
  (t.extends_self (low ++ a :: up) extra).pending ha hcalls

theorem Pending.push (hpending : t.Pending low outer) (v : Value) : (t.push v).Pending low outer :=
  ⟨hpending.calls, hpending.below.push v, hpending.frame⟩

theorem Pending.plainAt (hpending : t.Pending low outer) : t.PlainAt low.length := by
  obtain ⟨f, hf, hplain, _⟩ := hpending.frame
  exact ⟨f, hf, hplain⟩

theorem PlainAt.lt {depth : Nat} (hplain : t.PlainAt depth) : depth < t.frames.size := by
  obtain ⟨f, hf, _⟩ := hplain
  exact (Array.getElem?_eq_some_iff.1 hf).1

theorem PlainAt.activation {depth : Nat} (hplain : t.PlainAt depth)
    (hshows : t = t.showing acts extra) :
    ∃ below a up, acts = below ++ a :: up ∧ below.length = depth ∧ a.handler = none := by
  obtain ⟨f, hf, hplain⟩ := hplain
  rw [hshows] at hf
  simp only [showing_frames, List.getElem?_toArray] at hf
  obtain ⟨below, a, up, hacts, hlength, rfl⟩ := framesFrom_locate hf
  exact ⟨below, a, up, hacts, hlength, by simpa [Activation.frame] using hplain⟩

end Thread

theorem concat_eq_append_cons {α : Type} {xs ys zs : List α} {x y : α}
    (h : xs ++ [x] = ys ++ y :: zs) :
    zs = [] ∧ xs = ys ∧ x = y ∨ ∃ zs', zs = zs' ++ [x] ∧ xs = ys ++ y :: zs' := by
  obtain rfl | ⟨zs', z, rfl⟩ := List.eq_nil_or_concat' zs
  · obtain ⟨rfl, hlast⟩ := List.append_inj' h rfl
    exact Or.inl ⟨rfl, rfl, by simpa using hlast⟩
  · rw [← List.cons_append, ← List.append_assoc] at h
    obtain ⟨rfl, hlast⟩ := List.append_inj' h rfl
    exact Or.inr ⟨zs', by simpa using hlast.symm, rfl⟩

/-- An activation that is not a boundary stays where it is, and stays plain, if the last activation goes
on and others come on top. -/
theorem plain_of_grows {pre low up : List Activation} {a x : Activation}
    (hacts : pre ++ [x] = low ++ a :: up) (hnone : a.handler = none) {x' : Activation}
    (hhandler : x'.handler = x.handler) (more : List Activation) :
    ∃ b rest, pre ++ x' :: more = low ++ b :: rest ∧ b.handler = none := by
  obtain ⟨_, rfl, rfl⟩ | ⟨up', _, rfl⟩ := concat_eq_append_cons hacts
  · exact ⟨x', more, rfl, hhandler.trans hnone⟩
  · exact ⟨a, up' ++ x' :: more, by simp, hnone⟩

/-- An instruction leaves a pending activation in place, unless there is then no plain activation at its
depth. -/
theorem Turn.pending {acts acts' low up : List Activation} {a : Activation} (hturn : Turn acts acts')
    (hacts : acts = low ++ a :: up) (hnone : a.handler = none) :
    (∃ b rest, acts' = low ++ b :: rest ∧ b.handler = none) ∨
      ∀ start b rest, acts' = start ++ b :: rest → start.length = low.length → b.handler ≠ none := by
  cases hturn with
  | grows hhandler => exact Or.inl (plain_of_grows hacts hnone hhandler _)
  | returns =>
    obtain ⟨_, rfl, rfl⟩ | ⟨up', _, rfl⟩ := concat_eq_append_cons hacts
    · refine Or.inr fun start b rest hsplit hlength => ?_
      have hlonger := congrArg List.length hsplit
      rw [List.length_append, List.length_cons] at hlonger
      omega
    · exact Or.inl ⟨a, up', rfl, hnone⟩
  | @answers pre above b c hb hc =>
    obtain ⟨mid, rfl, hrest⟩ | ⟨mid, rfl, hrest⟩ := List.append_eq_append_iff.1 hacts
    · cases mid with
      | nil =>
        cases hrest
        rw [hnone] at hb
        cases hb
      | cons x mid =>
        refine Or.inr fun start y rest hsplit hlength => ?_
        have hlonger := congrArg List.length hsplit
        simp only [List.length_append, List.length_cons, List.length_nil] at hlonger hlength
        omega
    · cases mid with
      | nil =>
        cases hrest
        rw [hnone] at hb
        cases hb
      | cons x mid =>
        cases hrest
        exact Or.inl ⟨a, mid ++ [c], by simp, hnone⟩
  | @resumes pre above x b hx hne hb =>
    obtain ⟨_, rfl, rfl⟩ | ⟨up', _, rfl⟩ := concat_eq_append_cons hacts
    · refine Or.inr fun start y rest hsplit hlength => ?_
      obtain ⟨rfl, hrest⟩ := List.append_inj hsplit hlength.symm
      cases hrest
      exact Option.isSome_iff_ne_none.1 hb
    · exact Or.inl ⟨a, up' ++ b :: above, by simp, hnone⟩

namespace Machine

variable {κ : Kind} {m m' : Machine} {low below above : List Activation} {level first : Level}
  {levels inner outer : List Level} {extra : List Value}

/-- What becomes of a pending activation with a move: its thread ends, or goes on, or waits for a task.
It is still pending, unless its thread goes on with no plain activation at its depth. -/
inductive StillPending (low : List Activation) (outer : List Level) (m m' : Machine) : Prop
  | ends (hshorter : m'.waiting.length < m.waiting.length)
  | runs (hwaiting : m'.waiting = m.waiting)
    (hpending : m'.thread.PlainAt low.length → m'.thread.Pending low outer)
  | waits {id : Int} {t : Thread} (hwaiting : m'.waiting = (id, t) :: m.waiting)
    (hpending : t.Pending low outer)

/-- A thread ends, or goes on with no more frames than given. -/
def Few (depth : Nat) (m m' : Machine) : Prop :=
  m'.waiting.length < m.waiting.length ∨
    m'.waiting = m.waiting ∧ m'.thread.frames.size ≤ depth

theorem Few.stillPending (hfew : Few low.length m m') : StillPending low outer m m' := by
  obtain hshorter | ⟨hwaiting, hsize⟩ := hfew
  · exact .ends hshorter
  · exact .runs hwaiting fun hplain => absurd hplain.lt (by omega)

theorem StillPending.trans_left {n : Machine} (hstill : StillPending low outer n m')
    (hwaiting : n.waiting = m.waiting) : StillPending low outer m m' := by
  cases hstill with
  | ends hshorter => exact .ends (hwaiting ▸ hshorter)
  | runs hwaiting' hpending => exact .runs (hwaiting'.trans hwaiting) hpending
  | waits hwaiting' hpending => exact .waits (hwaiting'.trans (congrArg _ hwaiting)) hpending

/-- A failure that ends a call leaves no more frames than there were below it. -/
theorem unwind_few {depth : Nat} {e : RuntimeError}
    (hfew : m.thread.frames.size ≤ depth ∨ ∃ level ∈ levels.head?, level.depth ≤ depth)
    (hunwind : m.unwind e levels = .more m') : Few depth m m' := by
  induction levels generalizing m e with
  | nil =>
    rw [unwind] at hunwind
    have hshorter := finish_shallow hunwind
    exact Or.inl hshorter
  | cons level levels ih =>
    have hless : (m.thread.leave level).frames.size ≤ depth := by
      simp only [Thread.leave, Array.size_shrink]
      obtain hfew | ⟨_, ⟨⟩, hdepth⟩ := hfew
      · omega
      · omega
    cases hkind : level.purpose with
    | finish =>
      simp only [unwind, hkind] at hunwind
      have hshorter := finish_shallow hunwind
      exact Or.inl hshorter
    | pass =>
      simp only [unwind, hkind] at hunwind
      have hrest := ih (m := { m with thread := { m.thread.leave level with levels } }) (Or.inl hless)
        hunwind
      exact hrest
    | «catch» depth =>
      simp only [unwind, hkind] at hunwind
      cases hunwind
      exact Or.inr ⟨rfl, hless⟩

/-- Calls that are made above a pending activation do not change it when they fail. -/
theorem unwind_pending {e : RuntimeError} {rest : List Level} (hbelow : Suspended κ below levels)
    (hlevel : level.Above below) (hpurpose : level.purpose = .finish ↔ levels = [])
    (hextends : m.thread.Extends below) (hlevels : level :: levels = inner ++ first :: rest)
    (hinner : ∀ l ∈ inner, low.length < l.depth) (hfirst : first.depth ≤ low.length)
    (hlow : low.length < below.length → ∃ a up, below = low ++ a :: up ∧ a.handler = none)
    (hunwind : m.unwind e (level :: levels) = .more m') :
    StillPending low (first :: rest) m m' := by
  induction inner generalizing m below level levels e with
  | nil =>
    cases hlevels
    exact (unwind_few (Or.inr ⟨first, rfl, hfirst⟩) hunwind).stillPending
  | cons level' inner ih =>
    obtain ⟨rfl, hrest⟩ : level = level' ∧ levels = inner ++ first :: rest := by
      simpa using hlevels
    obtain ⟨hdeeper, hinner⟩ := List.forall_mem_cons.1 hinner
    obtain ⟨a, up, rfl, hnone⟩ := hlow (hlevel.depth ▸ hdeeper)
    have hleave := Thread.leave_eq_showing hextends hlevel
    cases hkind : level.purpose with
    | finish =>
      have hnil := hpurpose.1 hkind
      simp [hrest] at hnil
    | pass =>
      simp only [unwind, hkind, hleave] at hunwind
      generalize hacts : low ++ a :: up = acts at hbelow hunwind
      cases hbelow with
      | nil => simp at hacts
      | @cons below above outer' levels hbelow houter hpurpose' _ _ _ =>
        have hstill := ih (m := { m with thread := { m.thread.showing (below ++ above) [] with
          levels := outer' :: levels } }) hbelow houter hpurpose'
          (m.thread.extends_showing below above []) hrest hinner ?_ hunwind
        · exact hstill.trans_left rfl
        · intro hdeep
          obtain ⟨mid, rfl, _⟩ := split_in_first hacts.symm hdeep
          exact ⟨a, mid, rfl, hnone⟩
    | «catch» depth =>
      simp only [unwind, hkind, hleave] at hunwind
      cases hunwind
      refine .runs rfl fun _ => Thread.Pending.push ?_ _
      exact Thread.pending_showing { m.thread with levels } ⟨inner, hrest, hinner⟩ hnone []

/-- What a call leaves to the call outside. -/
theorem answer_passes {v : Value} (hlevels : m.thread.levels = level :: levels)
    (hanswer : m.answer v = .more m') :
    m'.waiting.length < m.waiting.length ∨
      m'.waiting = m.waiting ∧ ∃ w, m'.thread = { m.thread with levels }.push w := by
  rw [answer_eq_deliver hlevels] at hanswer
  cases hkind : level.purpose with
  | finish =>
    simp only [deliver, hkind] at hanswer
    have hshorter := finish_shallow hanswer
    exact Or.inl hshorter
  | pass =>
    simp only [deliver, hkind] at hanswer
    cases hanswer
    exact Or.inr ⟨rfl, _, rfl⟩
  | «catch» depth =>
    simp only [deliver, hkind] at hanswer
    cases hanswer
    exact Or.inr ⟨rfl, _, rfl⟩

/-- A call is not made below the one from which it is made. -/
theorem depth_le_of_runs {t : Thread} {deeper : Level} (hruns : t.Runs κ)
    (hlevels : t.levels = deeper :: level :: levels) : level.depth ≤ deeper.depth := by
  obtain ⟨hcalls, hbelow, hlevel, _, _, _⟩ := hruns
  cases hcalls.symm.trans hlevels
  cases hbelow with
  | cons _ houter =>
    rw [hlevel.depth, houter.depth, List.length_append]
    exact Nat.le_add_right _ _

/-- A move in a call that has been made above a pending activation. -/
theorem Ready.inner_pending {a : Activation} {up : List Activation} {rest : List Level}
    (hready : m.Ready κ (low ++ a :: up) level levels) (hunderway : Underway κ level.phase above extra)
    (hshows : m = m.showing (low ++ a :: up ++ above) extra) (hnone : a.handler = none)
    (hlevels : levels = inner ++ first :: rest) (hdeeper : low.length < level.depth)
    (hinner : ∀ l ∈ inner, low.length < l.depth) (hfirst : first.depth ≤ low.length)
    (hmove : m.advance = .more m') :
    StillPending low (first :: rest) m m' := by
  have hsame : ∀ {t : Thread} {phase : Phase}, t.levels = { level with phase } :: levels →
      t.Extends (low ++ a :: up) → t.Pending low (first :: rest) := by
    intro t phase hcalls hextends
    refine hextends.pending hnone ⟨{ level with phase } :: inner, hcalls.trans ?_, ?_⟩
    · exact congrArg _ hlevels
    · exact List.forall_mem_cons.2 ⟨hdeeper, hinner⟩
  have hsound : m.Sound κ :=
    ⟨hready.world, .intro hready.calls hready.suspended hready.above hready.purpose hunderway
      (congrArg Machine.thread hshows), hready.waiting⟩
  have hnext := hsound.advance
  have hmoves := hready.moves hunderway hshows
  rw [hmove] at hnext
  generalize m.advance = progress at hmoves hmove
  cases hmoves with
  | @on m'' phase honward =>
    cases hmove
    cases honward with
    | same hwaiting hcalls hextends => exact .runs hwaiting fun _ => hsame hcalls hextends
    | @called deeper hwaiting hcalls hextends =>
      cases hnext with
      | more hm =>
        have hle := depth_le_of_runs hm.thread hcalls
        refine .runs hwaiting fun _ => hextends.pending hnone
          ⟨deeper :: { level with phase } :: inner, hcalls.trans ?_, ?_⟩
        · exact congrArg (deeper :: { level with phase } :: ·) hlevels
        · exact List.forall_mem_cons.2 ⟨Nat.lt_of_lt_of_le hdeeper hle,
            List.forall_mem_cons.2 ⟨hdeeper, hinner⟩⟩
    | spawned hwaiting hcalls hextends => exact .waits hwaiting (hsame hcalls hextends)
  | @answers m'' v hwaiting hcalls hshows' =>
    obtain hshorter | ⟨hwaiting', w, hthread⟩ := answer_passes hcalls hmove
    · exact .ends (hwaiting ▸ hshorter)
    · refine .runs (hwaiting'.trans hwaiting) fun _ => ?_
      have hextends : Thread.Extends { m''.thread with levels } (low ++ a :: up) := by
        rw [hshows']
        exact Thread.extends_self { m''.thread with levels } _ []
      rw [hthread]
      exact (hextends.pending hnone ⟨inner, hlevels, hinner⟩).push w
  | @fails m'' phase e hwaiting hextends =>
    have habove : { level with phase }.Above (low ++ a :: up) :=
      ⟨hready.above.depth, hready.above.height, hready.above.handlers⟩
    have hsplit : { level with phase } :: levels = ({ level with phase } :: inner) ++ first :: rest :=
      congrArg _ hlevels
    have hstill : StillPending low (first :: rest) m'' m' :=
      unwind_pending hready.suspended habove hready.purpose hextends hsplit
        (List.forall_mem_cons.2 ⟨hdeeper, hinner⟩) hfirst (fun _ => ⟨a, up, rfl, hnone⟩) hmove
    exact hstill.trans_left hwaiting

/-- An instruction of the call to which a pending activation belongs. -/
theorem Goes.pending {a : Activation} {acts up : List Activation}
    (hgoes : m.Goes below acts m') (hacts : below ++ acts = low ++ a :: up)
    (hlow : below.length ≤ low.length) (hnone : a.handler = none) (hlevels : m.thread.levels = outer) :
    StillPending low outer m m' := by
  obtain ⟨mid, rfl, hmid⟩ := split_in_second hacts hlow
  -- what the turn leaves at the depth of the activation
  have hstill : ∀ {acts' : List Activation} {t : Thread} {extra : List Value} {inner : List Level},
      Turn acts acts' → t.levels = inner ++ outer →
      (∀ l ∈ inner, l.depth = (below ++ acts').length) → t = t.showing (below ++ acts') extra →
      t.PlainAt (below ++ mid).length → t.Pending (below ++ mid) outer := by
    intro acts' t extra inner hturn hcalls hdepth hshows hplain
    obtain ⟨b, rest, rfl, hb⟩ | hgone := hturn.pending hmid hnone
    · rw [← List.append_assoc] at hshows hdepth
      rw [hshows]
      refine Thread.pending_showing t ⟨inner, hcalls, fun l hl => ?_⟩ hb extra
      rw [hdepth l hl]
      simp
    · obtain ⟨start, b, rest, hsplit, hlength, hb⟩ := hplain.activation hshows
      obtain ⟨start', rfl, hrest⟩ := split_in_second hsplit
        (by rw [hlength, List.length_append]; exact Nat.le_add_right _ _)
      exact absurd hb (hgone start' b rest hrest (by simpa using hlength))
  cases hgoes with
  | on hturn hwaiting hcalls hshows =>
    have hsame : m'.thread.levels = [] ++ outer := hcalls.trans hlevels
    exact .runs hwaiting (hstill hturn hsame nofun hshows)
  | @called acts' inner hturn hwaiting hcalls hdepth hshows =>
    have hmore : m'.thread.levels = [inner] ++ outer := hcalls.trans (congrArg _ hlevels)
    exact .runs hwaiting (hstill hturn hmore (List.forall_mem_singleton.2 hdepth) hshows)
  | @spawned pre x x' id t hsplit hhandler hwaiting hcalls hshows =>
    obtain ⟨b, rest, hsame, hb⟩ := plain_of_grows (hsplit.symm.trans hmid) hnone hhandler []
    rw [hsame, ← List.append_assoc] at hshows
    refine .waits hwaiting ?_
    rw [hshows]
    exact Thread.pending_showing t ⟨[], hcalls.trans hlevels, nofun⟩ hb []

/-- A move of the call to which a pending activation belongs. -/
theorem Ready.direct_pending {a : Activation} {up : List Activation}
    (hready : m.Ready .clause below level levels) (hunderway : Underway .clause level.phase above extra)
    (hshows : m = m.showing (below ++ above) extra) (hphase : level.phase = .running)
    (hacts : below ++ above = low ++ a :: up) (hlow : below.length ≤ low.length)
    (hnone : a.handler = none) (hmove : m.advance = .more m') :
    StillPending low (level :: levels) m m' := by
  rw [hphase] at hunderway
  cases hunderway with
  | @entered _ pre x _ hpre hx hground =>
    obtain ⟨i, n, hfetch, hexecutes⟩ := hready.step_executes hpre hphase hx hground
    have hfetch' : Exec.fetch m = .ok i n := by
      rw [hshows]
      exact hfetch
    simp only [Machine.advance, hready.calls, hphase] at hmove
    rw [runInstruction, hfetch'] at hmove
    simp only [] at hmove
    cases hrun : Exec.execute i n with
    | ok result n' =>
      rw [hrun] at hexecutes hmove
      cases result with
      | none =>
        cases hmove
        have hgoes := hready.step_goes hpre hx hfetch hrun
        exact hgoes.pending hacts hlow hnone hready.calls
      | some v =>
        obtain ⟨_, rfl⟩ := hexecutes
        have hcalls : (m.showing below []).thread.levels = level :: levels := hready.calls
        obtain hshorter | ⟨hwaiting, w, hthread⟩ := answer_passes hcalls hmove
        · exact .ends hshorter
        · refine Few.stillPending (Or.inr ⟨hwaiting, ?_⟩)
          rw [hthread]
          simpa [Thread.push] using hlow
    | error s n' =>
      rw [hrun] at hexecutes hmove
      cases s with
      | corrupt => exact hexecutes.elim
      | error e =>
        have hretains := hexecutes.2.2
        simp only [stop, hretains.levels, hready.calls] at hmove
        have hfew := unwind_few (Or.inr ⟨level, rfl, hready.above.depth ▸ hlow⟩) hmove
        exact hfew.stillPending.trans_left hretains.waiting

/-- While a call goes on to which a pending activation belongs, and as long as there is a plain
activation at its depth, that one is pending. -/
theorem Sound.advance_pending {rest : List Level} (hsound : m.Sound .clause)
    (hpending : m.thread.Pending low (first :: rest)) (hphase : first.phase = .running)
    (hdepth : first.depth ≤ low.length) (hmove : m.advance = .more m') :
    StillPending low (first :: rest) m m' := by
  obtain ⟨below, above, extra, level, levels, hready, hunderway, hshows⟩ := hsound.ready
  obtain ⟨a, up, hacts, hnone⟩ := hpending.split (congrArg Machine.thread hshows)
  obtain ⟨inner, hlevels, hinner⟩ := hpending.calls
  rw [hready.calls] at hlevels
  cases inner with
  | nil =>
    cases hlevels
    exact hready.direct_pending hunderway hshows hphase hacts (hready.above.depth ▸ hdepth) hnone hmove
  | cons level' inner =>
    obtain ⟨rfl, houter⟩ : level = level' ∧ levels = inner ++ first :: rest := by
      simpa using hlevels
    obtain ⟨hdeeper, hinner⟩ := List.forall_mem_cons.1 hinner
    have hlong := hready.above.depth ▸ hdeeper
    obtain ⟨mid, rfl, _⟩ := split_in_first hacts hlong
    exact hready.inner_pending hunderway hshows hnone houter hdeeper hinner hdepth hmove

end Machine

end Resumable
