import Resumable.Proofs.Meaning.Programs
import Resumable.Proofs.Meaning.SketchStep

/-!
What a compiled program reads of a variable is what has been stored to that variable. The locals of
different scopes may have the same place one after the other, but this is not seen by any program that
reads no name whose declaration has been passed over: it does what it is evaluated to with such names
left unset.
-/

namespace Resumable.Meaning

/-- Whether none of a number of steps that leave unset what they pass over reads a name that is unset. -/
def Next.readsStored : Nat → Next → Bool
  | 0, _ => true
  | _ + 1, .ended _ _ => true
  | n + 1, .more σ => !σ.readsUnset && readsStored n σ.stepUnset

/-- What steps lead to is sketched by what as many steps lead to that leave unset what they pass over. -/
theorem Next.Sketches.after {next next' : Next} (h : next.Sketches next') (fills : List (List Value))
    (hset : next.readsStored fills.length = true) :
    (next.afterUnset fills.length).Sketches (next'.after fills) := by
  induction fills generalizing next next' with
  | nil => exact h
  | cons fill fills ih =>
    cases h with
    | ended outcome h => exact .ended outcome h
    | more h =>
      rw [List.length_cons, readsStored, Bool.and_eq_true, Bool.not_eq_true'] at hset
      exact ih (h.step hset.1 fill) hset.2

/-- Nothing is read after the end. -/
theorem Next.readsStored_of_ended {next : Next} {n : Nat} {outcome : Outcome} {μ : Memory}
    (hset : next.readsStored n = true) (hended : next.afterUnset n = .ended outcome μ) (m : Nat) :
    next.readsStored m = true := by
  induction n generalizing next m with
  | zero =>
    obtain rfl : next = _ := hended
    cases m <;> rfl
  | succ n ih =>
    cases m with
    | zero => rfl
    | succ m =>
      cases next with
      | ended => rfl
      | more σ =>
        rw [readsStored, Bool.and_eq_true] at hset ⊢
        exact ⟨hset.1, ih hset.2 hended m⟩

variable {μ μ' : Memory} {e : Engine} {code : Code Value} {program : Program}

theorem begin_sketches (h : μ.Sketches μ') (limits : Limits) (reading : Reading) (program : Program) :
    (begin μ limits reading program).Sketches (begin μ' limits reading program) := by
  have hstart : State.Sketches { memory := μ.drawn, limits, control := .run program }
      { memory := μ'.drawn, limits, control := .run program } :=
    ⟨h.drawn, rfl, .nil, rfl, .nil⟩
  have hentry : EntrySketches ({ reading, isProgram := true }, .run program)
      ({ reading, isProgram := true }, .run program) :=
    ⟨⟨rfl, rfl, .nil, .nil, .nil, .none⟩, rfl⟩
  exact hstart.enter 0 hentry

theorem evaluation_sketches (h : μ.Sketches μ') (e : Engine) (o : CompileOptions) (program : Program) :
    (evaluation μ e o program).Sketches (evaluation μ' e o program) := by
  refine begin_sketches ?_ _ _ _
  rw [Memory.supplied, Memory.supplied, h.world]
  exact h.withWorld _

/-- An engine between two runs, in which all values mean something. Of the names that have been passed over
by functions and suspended computations it is not known what they are bound to. -/
def Depicts (μ : Memory) (e : Engine) : Prop :=
  ∃ μ', μ.Sketches μ' ∧ Portrays μ' e

/-- Running code on an engine does what an evaluation does that leaves unset what it passes over: it comes
to a value or to a failure to which the evaluation comes as well, with the same in the shared state, or
both go on forever. -/
structure PerformsStored (e : Engine) (code : Code Value) (next : Next) : Prop where
  ends : ∀ fuel outcome' e', e.interpret fuel code = some (outcome', e') →
    ∃ n outcome μ μ', next.afterUnset n = .ended outcome μ ∧ μ.Sketches μ' ∧
      OutcomeMeans μ' outcome outcome' ∧ Portrays μ' e'
  goesOn : (∀ fuel, e.interpret fuel code = none) → ∀ n, ∃ σ, next.afterUnset n = .more σ

/-- Code that does what an evaluation does, where that takes some values for names that are passed over,
does what its sketch does. -/
theorem Performs.stored {next next' : Next} (h : Performs e code next') (hnext : next.Sketches next')
    (hset : ∀ n, next.readsStored n = true) : PerformsStored e code next := by
  constructor
  · intro fuel outcome' e' hrun
    obtain ⟨fills, outcome, μ', hafter, houtcome, hportrays⟩ := h.ends fuel outcome' e' hrun
    have hends := hnext.after fills (hset _)
    rw [hafter] at hends
    generalize hfirst : next.afterUnset fills.length = first at hends
    cases hends with
    | ended _ hμ => exact ⟨_, outcome, _, μ', hfirst, hμ, houtcome, hportrays⟩
  · intro hforever n
    obtain ⟨fills, σ', rfl, hafter⟩ := h.goesOn hforever n
    have hmore := hnext.after fills (hset _)
    rw [hafter] at hmore
    generalize next.afterUnset fills.length = first at hmore ⊢
    cases hmore with
    | more h => exact ⟨_, rfl⟩

/-- A source text that reads no name whose declaration has been passed over, unless a value has been stored
to it since, finds in every variable what has been stored to it last. -/
theorem Depicts.source_reads_stored {o : CompileOptions} {source : String} (h : Depicts μ e)
    (hread : Program.ofSource source = .ok program)
    (hcompile : (e.compileSource o source).1 = .ok code)
    (hset : ∀ n, (evaluation μ (e.compileSource o source).2 o program).readsStored n = true) :
    PerformsStored (e.compileSource o source).2 code
      (evaluation μ (e.compileSource o source).2 o program) := by
  obtain ⟨μ', hμ, hportrays⟩ := h
  obtain ⟨hresult, hengine⟩ := Engine.compile_of_compileSource hread hcompile
  rw [hengine] at hset ⊢
  have hperforms := hportrays.performs hresult fun x hx => (Program.ofSource_worded hread x hx).named
  exact hperforms.stored (evaluation_sketches hμ _ o program) hset

/-- The declaration of a variable is passed over, which has the place that another one had. A value is stored
to it before it is read. -/
def storesLater : String :=
  "\x7b \x7b var a = 42; 0 \x7d; if false: var x = 1; x = 2; x \x7d"

/-- Whether an evaluation that leaves unset what it passes over comes to a number, and reads no name that
is unset. -/
def comesToStored (steps : Nat) (n : Int64) (next : Next) : Bool :=
  next.readsStored steps &&
    match next.afterUnset steps with
    | .ended (.returned (.int m)) _ => m == n
    | _ => false

/-- The program comes to the value that has been stored. -/
theorem Depicts.source_reads_stored_later :
    ∃ e program code n μ, e = ((Engine.create {} 0).compileSource {} storesLater).2 ∧
      Program.ofSource storesLater = .ok program ∧
      ((Engine.create {} 0).compileSource {} storesLater).1 = .ok code ∧
      (∀ n, (evaluation { world := (Engine.create {} 0).world } e {} program).readsStored n = true) ∧
      PerformsStored e code (evaluation { world := (Engine.create {} 0).world } e {} program) ∧
      (evaluation { world := (Engine.create {} 0).world } e {} program).afterUnset n =
        .ended (.returned (.int 2)) μ := by
  obtain ⟨code, hcompile, -⟩ := Except.exists_of_any (f := fun _ => true)
    (x := ((Engine.create {} 0).compileSource {} storesLater).1) (by decide +kernel)
  obtain ⟨program, hread, hcomes⟩ := Except.exists_of_any
    (f := fun program => comesToStored 40 2 (evaluation { world := (Engine.create {} 0).world }
      ((Engine.create {} 0).compileSource {} storesLater).2 {} program))
    (x := Program.ofSource storesLater) (by decide +kernel)
  rw [comesToStored, Bool.and_eq_true] at hcomes
  obtain ⟨hset, hended⟩ := hcomes
  split at hended
  next m μ hafter =>
    obtain rfl := eq_of_beq hended
    have hstored := Next.readsStored_of_ended hset hafter
    have hdepicts : Depicts { world := (Engine.create {} 0).world } (Engine.create {} 0) :=
      ⟨_, ⟨rfl, .nil, .nil⟩, .create {} 0⟩
    refine ⟨_, program, code, 40, μ, rfl, hread, hcompile, hstored, ?_, hafter⟩
    exact hdepicts.source_reads_stored hread hcompile hstored
  next => cases hended

/-- Nothing is stored to the variable before it is read. -/
def storesNothing : String :=
  "\x7b \x7b var a = 42; 0 \x7d; if false: var x = 1; x \x7d"

/-- A name that is unset is read as the value of the variable that had its place before. -/
example : (((Engine.create {} 0).compileSource {} storesNothing).1.toOption.bind
    (((Engine.create {} 0).compileSource {} storesNothing).2.interpret 60)).any (fun p =>
      match p.1 with
      | .returned (.int n) => n == 42
      | _ => false) = true := by
  decide +kernel

end Resumable.Meaning
