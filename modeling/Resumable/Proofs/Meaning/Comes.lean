import Resumable.Proofs.Meaning.Direct

/-!
What it means that steps match a direct evaluation: they lead to what it comes to, and if it comes to
nothing then there are at least as many of them as it was given.
-/

namespace Resumable.Meaning

/-! ### Steps -/

/-- Some steps lead to somewhere, whatever the values of names that are passed over. -/
def Next.Leads (next next' : Next) : Prop :=
  ∃ k, ∀ fills : List (List Value), fills.length = k → next.after fills = next'

/-- There is no end within the given number of steps. -/
def Next.Lasts (n : Nat) (next : Next) : Prop :=
  ∀ fills : List (List Value), fills.length ≤ n → ∃ σ, next.after fills = .more σ

namespace Next

variable {next next' next'' : Next} {n : Nat} {σ : State}

theorem after_ended (fills : List (List Value)) (outcome : Outcome) (μ : Memory) :
    after fills (.ended outcome μ) = .ended outcome μ := by
  cases fills <;> rfl

theorem after_append (fills fills' : List (List Value)) (next : Next) :
    next.after (fills ++ fills') = (next.after fills).after fills' := by
  induction fills generalizing next with
  | nil => rfl
  | cons fill fills ih =>
    cases next with
    | more σ => exact ih _
    | ended outcome μ => exact (after_ended fills' outcome μ).symm

theorem Leads.refl (next : Next) : next.Leads next :=
  ⟨0, fun fills hlength => by rw [List.length_eq_zero_iff.1 hlength]; rfl⟩

theorem Leads.trans (h : next.Leads next') (h' : next'.Leads next'') : next.Leads next'' := by
  obtain ⟨k, hk⟩ := h
  obtain ⟨l, hl⟩ := h'
  refine ⟨k + l, fun fills hlength => ?_⟩
  rw [← List.take_append_drop k fills, after_append,
    hk _ (List.length_take_of_le (by omega)), hl _ (by rw [List.length_drop]; omega)]

theorem Leads.of_step (hstep : ∀ fill, σ.step fill = next) : (Next.more σ).Leads next := by
  refine ⟨1, fun fills hlength => ?_⟩
  obtain ⟨fill, rfl⟩ := List.length_eq_one_iff.1 hlength
  exact hstep fill

theorem Lasts.of_step (hstep : ∀ fill, σ.step fill = next) (h : next.Lasts n) :
    (Next.more σ).Lasts (n + 1) := by
  rintro (_ | ⟨fill, fills⟩) hlength
  · exact ⟨σ, rfl⟩
  · rw [after, hstep]
    exact h fills (Nat.le_of_succ_le_succ hlength)

theorem Leads.lasts (hleads : next.Leads next') (h : next'.Lasts n) : next.Lasts n := by
  obtain ⟨k, hk⟩ := hleads
  intro fills hlength
  obtain hlt | hle := Nat.lt_or_ge fills.length k
  · obtain ⟨σ, hσ⟩ := h [] (Nat.zero_le n)
    have hmore := hk (fills ++ List.replicate (k - fills.length) []) (by simp; omega)
    rw [after_append] at hmore
    cases hafter : next.after fills with
    | more σ => exact ⟨σ, rfl⟩
    | ended outcome μ =>
      rw [hafter, after_ended] at hmore
      rw [← hmore] at hσ
      cases hσ
  · rw [← List.take_append_drop k fills, after_append, hk _ (List.length_take_of_le hle)]
    exact h _ (by rw [List.length_drop]; omega)

/-- There is one end only. -/
theorem Leads.unique {outcome outcome' : Outcome} {μ μ' : Memory} {fills : List (List Value)}
    (h : next.Leads (.ended outcome μ)) (hafter : next.after fills = .ended outcome' μ') :
    outcome = outcome' ∧ μ = μ' := by
  obtain ⟨k, hk⟩ := h
  have hlong := hk ((fills ++ List.replicate k []).take k) (by simp)
  have hsame := congrArg (after ((fills ++ List.replicate k []).drop k)) hlong
  rw [← after_append, List.take_append_drop, after_append, hafter, after_ended, after_ended] at hsame
  cases hsame
  exact ⟨rfl, rfl⟩

end Next

/-! ### What an evaluation comes to -/

/-- There are no handlers in the functions of a memory, and there is no suspended computation. -/
structure Memory.Simple (μ : Memory) : Prop where
  functions : ∀ id f, μ.functions.lookup id = some f → f.body.Simple
  continuations : μ.continuations = []

namespace Memory.Simple

variable {μ : Memory}

theorem withWorld (h : μ.Simple) (world : World) : (μ.withWorld world).Simple :=
  ⟨h.functions, h.continuations⟩

theorem makeFunction (h : μ.Simple) (name : Option Symbol) {f : Function} (hf : f.body.Simple) :
    (μ.makeFunction name f).2.Simple := by
  refine ⟨fun id g hg => ?_, h.continuations⟩
  change ((μ.world.draw.1, f) :: μ.functions).lookup id = some g at hg
  rw [List.lookup_cons] at hg
  cases hid : id == μ.world.draw.1 with
  | true =>
    rw [hid] at hg
    cases hg
    exact hf
  | false =>
    rw [hid] at hg
    exact h.functions id g hg

end Memory.Simple

/-- The steps lead to where a direct evaluation comes to, in the memory that it leaves. -/
def Comes {α S : Type} (memory : S → Memory) (n : Nat) (σ : State) (k : α → S → Next) (next : Next) :
    Option (Except RuntimeError α × S) → Prop
  | none => next.Lasts n
  | some (.ok v, t) => (memory t).Simple ∧ next.Leads (k v t)
  | some (.error e, t) => (memory t).Simple ∧ next.Leads ((σ.withMemory (memory t)).finish (.error e))

theorem run_bind {α β S : Type} (x : ExceptT RuntimeError (StateT S Option) α)
    (f : α → ExceptT RuntimeError (StateT S Option) β) (t : S) :
    (x >>= f) t = match x t with
      | none => none
      | some (.ok v, t) => f v t
      | some (.error e, t) => some (.error e, t) := by
  change ((x t).bind fun p => ExceptT.bindCont f p.1 p.2) = _
  cases hx : x t with
  | none => rfl
  | some p =>
    obtain ⟨_ | _, _⟩ := p <;> rfl

namespace Comes

variable {α β S : Type} {memory : S → Memory} {n : Nat} {σ : State} {k k' : α → S → Next}
  {next next' : Next}
  {r : Option (Except RuntimeError α × S)}

theorem of_leads (hleads : next.Leads next') (h : Comes memory n σ k next' r) :
    Comes memory n σ k next r := by
  obtain _ | ⟨_ | v, t⟩ := r
  · exact hleads.lasts h
  · exact ⟨h.1, hleads.trans h.2⟩
  · exact ⟨h.1, hleads.trans h.2⟩

theorem of_step {σ' : State} (hstep : ∀ fill, σ'.step fill = next) (h : Comes memory n σ k next r) :
    Comes memory (n + 1) σ k (.more σ') r := by
  obtain _ | ⟨_ | v, t⟩ := r
  · exact Next.Lasts.of_step hstep h
  · exact ⟨h.1, (Next.Leads.of_step hstep).trans h.2⟩
  · exact ⟨h.1, (Next.Leads.of_step hstep).trans h.2⟩

theorem mono (hk : ∀ v t, (k v t).Leads (k' v t)) (h : Comes memory n σ k next r) :
    Comes memory n σ k' next r := by
  obtain _ | ⟨_ | v, t⟩ := r
  · exact h
  · exact h
  · exact ⟨h.1, h.2.trans (hk v t)⟩

theorem bind {x : ExceptT RuntimeError (StateT S Option) α}
    {f : α → ExceptT RuntimeError (StateT S Option) β} {l : β → S → Next} {t : S}
    (h : Comes memory n σ k next (x t))
    (hf : ∀ v t, (memory t).Simple → Comes memory n σ l (k v t) (f v t)) :
    Comes memory n σ l next ((x >>= f) t) := by
  rw [run_bind]
  generalize x t = r at h
  obtain _ | ⟨_ | v, t⟩ := r
  · exact h
  · exact h
  · exact (hf v t h.1).of_leads h.2

theorem ret {v : α} {t : S} (ht : (memory t).Simple) (h : next.Leads (k v t)) :
    Comes memory n σ k next ((pure v : ExceptT RuntimeError (StateT S Option) α) t) :=
  ⟨ht, h⟩

theorem ofCall {x : Calling Value} {b : Surroundings} {μ : Memory}
    {l : Value → Surroundings × Memory → Next} (h : Comes id n σ (fun v μ => l v (b, μ)) next (x μ)) :
    Comes Prod.snd n σ l next (Evaluating.ofCall x (b, μ)) := by
  rw [Evaluating.ofCall]
  generalize x μ = r at h
  obtain _ | ⟨_ | v, t⟩ := r
  · exact h
  · exact h
  · exact h

theorem within {x : Evaluating Value} {b : Surroundings} {μ : Memory} {l : Value → Memory → Next}
    (h : Comes Prod.snd n σ (fun v t => l v t.2) next (x (b, μ))) :
    Comes id n σ l next (Calling.within b x μ) := by
  rw [Calling.within]
  generalize x (b, μ) = r at h
  obtain _ | ⟨_ | v, t⟩ := r
  · exact h
  · exact h
  · exact h

theorem inScope {x : Evaluating Value} {b : Surroundings} {μ : Memory}
    {k l : Value → Surroundings × Memory → Next} (h : Comes Prod.snd n σ k next (x (b, μ)))
    (hk : ∀ v t, (k v t).Leads (l v
      ({ t.1 with locals := t.1.locals.drop (t.1.locals.length - b.locals.length) }, t.2))) :
    Comes Prod.snd n σ l next (Evaluating.inScope x (b, μ)) := by
  have hscope : Evaluating.inScope x (b, μ) = (x >>= fun v => do
      modify fun t => ({ t.1 with locals := t.1.locals.drop (t.1.locals.length - b.locals.length) }, t.2)
      return v) (b, μ) := rfl
  rw [hscope]
  exact h.bind fun v t ht => ⟨ht, hk v t⟩

end Comes

/-! ### Places -/

/-- No handler stands around. -/
def Unhandled (acts : List Activity) : Prop :=
  ∀ a ∈ acts, a.handler = none

/-- With the bindings of a direct evaluation. -/
def Activity.within (a : Activity) (b : Surroundings) : Activity :=
  { a with locals := b.locals, captured := b.captured }

theorem Unhandled.within {a : Activity} {acts : List Activity} (h : Unhandled (a :: acts))
    (b : Surroundings) : Unhandled (a.within b :: acts) :=
  List.forall_mem_cons.2 (List.forall_mem_cons.1 h)

theorem Unhandled.wait {a : Activity} {acts : List Activity} (h : Unhandled (a :: acts))
    (c : Context) : Unhandled (a.wait c :: acts) :=
  List.forall_mem_cons.2 (List.forall_mem_cons.1 h)

namespace State

/-- The place where a call is made. -/
def place (σ : State) (acts : List Activity) : Place where
  limits := σ.limits
  inTail := match acts with
    | [] => false
    | a :: _ => a.inTail
  depth := acts.length
  height := totalHeight acts

/-- The place where an expression is evaluated. -/
def setting (σ : State) (a : Activity) (acts : List Activity) : Setting where
  toPlace := σ.place (a :: acts)
  reading := a.reading
  isGlobal := a.isGlobal

/-- A value for the innermost activity, which is left if nothing else is to be done in it. -/
def land (σ : State) (v : Value) : List Activity → Next
  | [] => σ.finish (.ok v)
  | a :: acts => if a.inTail then σ.hand v acts else σ.goes (a :: acts) (.give v)

end State

section Land

variable {σ : State} {a : Activity} {acts : List Activity} {v : Value}

theorem land_of_inTail (h : a.inTail = true) : σ.land v (a :: acts) = σ.hand v acts :=
  if_pos h

theorem land_of_not_inTail (h : a.inTail = false) :
    σ.land v (a :: acts) = σ.goes (a :: acts) (.give v) :=
  if_neg (by simp [h])

theorem pass_locals (a : Activity) (fill : List Value) (names : List String) :
    ∃ locals, a.pass fill names = { a with locals } := by
  unfold Activity.pass
  split
  · exact ⟨_, rfl⟩
  · exact ⟨_, rfl⟩

theorem pass_nil (a : Activity) (fill : List Value) : a.pass fill [] = a := by
  unfold Activity.pass
  split <;> simp

/-- A value passes contexts with which nothing else is to be done. -/
theorem give_leads (σ : State) (v : Value) (acts : List Activity) :
    (σ.goes acts (.give v)).Leads (σ.land v acts) := by
  obtain _ | ⟨a, acts⟩ := acts
  · exact .of_step fun _ => rfl
  cases htail : a.inTail with
  | false =>
    rw [land_of_not_inTail htail]
    exact .refl _
  | true =>
    rw [land_of_inTail htail]
    refine ⟨a.contexts.length + 1, fun fills hlength => ?_⟩
    obtain ⟨reading, isProgram, locals, captured, contexts, handler⟩ := a
    induction contexts generalizing locals fills with
    | nil =>
      obtain ⟨fill, rfl⟩ := List.length_eq_one_iff.1 hlength
      rfl
    | cons c contexts ih =>
      obtain ⟨fill, fills, rfl⟩ := List.exists_cons_of_length_eq_add_one hlength
      obtain ⟨hc, htail⟩ := Bool.and_eq_true_iff.1 (List.all_cons.symm.trans htail)
      have hlength := Nat.succ.inj hlength
      cases c with
      | passing names =>
        obtain ⟨locals', hpass⟩ := pass_locals
          { reading, isProgram, locals, captured, contexts, handler } fill names
        have hnext := ih fills locals' htail hlength
        rw [← hpass] at hnext
        exact hnext
      | scope size => exact ih fills (locals.drop (locals.length - size)) htail hlength
      | _ => cases hc

theorem hand_leads (σ : State) (v : Value) (acts : List Activity) :
    (σ.hand v acts).Leads (σ.land v acts) := by
  cases acts with
  | nil => exact .refl _
  | cons a acts => exact give_leads σ v (a :: acts)

/-- A value passes a context with which nothing else is to be done. -/
theorem land_wait {a' : Activity} {c : Context} (hc : c.isTransparent = true)
    (htail : a'.inTail = a.inTail)
    (hstep : ∀ fill, State.step fill { σ with acts := a.wait c :: acts, control := .give v } =
      σ.goes (a' :: acts) (.give v)) :
    (σ.land v (a.wait c :: acts)).Leads (σ.land v (a' :: acts)) := by
  have hwait : (a.wait c).inTail = a.inTail := List.all_cons.trans (by rw [hc]; rfl)
  cases ha : a.inTail with
  | true =>
    rw [land_of_inTail (hwait.trans ha), land_of_inTail (htail.trans ha)]
    exact .refl _
  | false =>
    rw [land_of_not_inTail (hwait.trans ha), land_of_not_inTail (htail.trans ha)]
    exact .of_step hstep

end Land

section Settings

variable (σ : State) (a : Activity) (acts : List Activity)

theorem inTail_wait (c : Context) : (a.wait c).inTail = (c.isTransparent && a.inTail) :=
  List.all_cons

theorem isGlobal_wait (c : Context) : (a.wait c).isGlobal = (!c.isScope && a.isGlobal) := by
  change (a.isProgram && !List.any (c :: a.contexts) _) = (!c.isScope && (a.isProgram && _))
  rw [List.any_cons]
  cases a.isProgram <;> cases c.isScope <;> rfl

theorem totalHeight_wait (c : Context) :
    totalHeight (a.wait c :: acts) = totalHeight (a :: acts) + c.held.length := by
  have hheld : (a.wait c).held = a.held ++ c.held := by
    change List.flatMap _ (c :: a.contexts).reverse = _
    rw [List.reverse_cons, List.flatMap_append, List.flatMap_singleton]
    rfl
  have hheight : (a.wait c).height = a.height + c.held.length := by
    rw [Activity.height, hheld, List.length_append, ← Nat.add_assoc]
    rfl
  simp only [totalHeight, List.map_cons, List.sum_cons, hheight]
  omega

theorem isScope_of_not_isTransparent {c : Context} (hc : c.isTransparent = false) :
    c.isScope = false := by
  cases c <;> first | rfl | cases hc

theorem setting_holding {c : Context} {count : Nat} (hc : c.isTransparent = false)
    (hheld : c.held.length = count) :
    σ.setting (a.wait c) acts = (σ.setting a acts).holding count := by
  simp only [State.setting, State.place, Setting.holding, inTail_wait, isGlobal_wait, totalHeight_wait, hc,
    isScope_of_not_isTransparent hc, hheld]
  rfl

theorem setting_passing (names : List String) :
    σ.setting (a.wait (.passing names)) acts = σ.setting a acts := by
  simp only [State.setting, State.place, inTail_wait, isGlobal_wait, totalHeight_wait]
  rfl

theorem setting_scope (size : Nat) :
    σ.setting (a.wait (.scope size)) acts = (σ.setting a acts).inside := by
  simp only [State.setting, State.place, inTail_wait, isGlobal_wait, totalHeight_wait]
  rfl

end Settings

end Resumable.Meaning
