import Resumable.Compile
import Resumable.Proofs.Expr.Lowering

/-!
Compiling never meets a form that it does not support: handlers that are written are the only one, and
lowering leaves none of them.
-/

namespace Resumable

/-- Errors other than for a form that is not supported. -/
def CompileError.IsOther (e : CompileError) : Prop :=
  ∀ kind, e.problem ≠ .nodeNotSupported kind

/-- All errors of a result are of other kinds. -/
def Spared {α : Type} : EStateM.Result CompileError CompileState α → Prop
  | .ok _ s => ∀ e ∈ s.errors, e.IsOther
  | .error fatal s => ∀ e ∈ fatal :: s.errors, e.IsOther

/-- Compiling that reports errors of other kinds only. -/
def Spares {α : Type} (x : Compile α) : Prop :=
  ∀ s, (∀ e ∈ s.errors, e.IsOther) → Spared (x s)

namespace Spares

variable {α β : Type} {x : Compile α} {f : α → Compile β}

theorem ret (a : α) : Spares (pure a) :=
  fun _ hs => hs

theorem bind (hx : Spares x) (hf : ∀ a, Spares (f a)) : Spares (x >>= f) := by
  intro s hs
  have hfirst := hx s hs
  cases hrun : x s with
  | ok a s' =>
    rw [hrun] at hfirst
    rw [bind_of_ok hrun]
    exact hf a s' hfirst
  | error e s' =>
    rw [hrun] at hfirst
    rwa [bind_of_error hrun]

theorem fail {e : CompileError} (he : e.IsOther) : Spares (throw e : Compile α) :=
  fun _ hs => List.forall_mem_cons.2 ⟨he, hs⟩

/-- A change of the state that keeps the errors. -/
theorem changed {f : CompileState → α × CompileState} (hf : ∀ s, (f s).2.errors = s.errors) :
    Spares (modifyGet f) := by
  intro s hs
  change ∀ e ∈ (f s).2.errors, e.IsOther
  rwa [hf]

end Spares

namespace Compile

theorem spares_read {α : Type} {f : CompileState → Compile α} (hf : ∀ s, Spares (f s)) :
    Spares (get >>= f) :=
  fun s => hf s s

theorem spares_report {problem : CompileProblem} (hproblem : ∀ kind, problem ≠ .nodeNotSupported kind)
    (line : Nat) : Spares (report problem line) := by
  unfold report
  split
  · exact .fail hproblem
  · exact fun s hs => List.forall_mem_cons.2 ⟨hproblem, hs⟩

theorem spares_write (f : Code Value → Code Value) : Spares (write f) :=
  .changed fun _ => rfl

theorem spares_emitIndexed (op : Op) (index line : Nat) : Spares (emitIndexed op index line) := by
  unfold emitIndexed
  split
  · exact spares_write _
  · exact spares_report (by simp) line

theorem spares_addConstant (value : Value) (line : Nat) : Spares (addConstant value line) := by
  refine spares_read fun s => ?_
  split
  · exact (spares_write _).bind fun _ => .ret _
  · exact .fail (by simp [CompileError.IsOther])

theorem spares_emitConstant (value : Value) (line : Nat) : Spares (emitConstant value line) :=
  (spares_addConstant value line).bind fun _ => spares_emitIndexed _ _ _

theorem spares_emitSymbol (op : Op) (symbol : Symbol) (line : Nat) :
    Spares (emitSymbol op symbol line) := by
  refine Spares.bind (spares_read fun s => ?_) fun _ => spares_emitIndexed _ _ _
  split
  · exact .ret _
  · exact spares_addConstant _ _

theorem spares_emitCount (op : Op) (count : Nat) (what : String) (line : Nat) :
    Spares (emitCount op count what line) := by
  unfold emitCount
  split
  · exact spares_write _
  · exact (spares_report (by simp) line).bind fun _ => spares_write _

theorem spares_intern (name : String) : Spares (intern name) :=
  .changed fun _ => rfl

theorem spares_resolve (symbol : Symbol) : Spares (resolve symbol) :=
  .changed fun _ => rfl

theorem spares_patch (start line : Nat) : Spares (patch start line) := by
  refine spares_read fun s => ?_
  split
  · exact spares_write _
  · exact spares_report (by simp) line

/-- Whatever is done after an attempt to declare a local, the reason against it is of another kind. -/
theorem spares_declare {α : Type} (symbol : Symbol) {f : Except CompileProblem Nat → Compile α}
    (hok : ∀ slot, Spares (f (.ok slot)))
    (herror : ∀ problem : CompileProblem, (∀ kind, problem ≠ .nodeNotSupported kind) →
      Spares (f (.error problem))) : Spares (declare symbol >>= f) := by
  intro s hs
  rw [declare, bind_of_ok (modifyGet_run _ _)]
  unfold Scopes.declare
  dsimp only
  split
  next hdeclare =>
    split at hdeclare
    · cases hdeclare
    · split at hdeclare
      · cases hdeclare
      · cases hdeclare
        exact hok _ _ hs
  next problem hdeclare =>
    have hproblem : ∀ kind, problem ≠ .nodeNotSupported kind := by
      split at hdeclare
      · cases hdeclare
        simp
      · split at hdeclare
        · cases hdeclare
          simp
        · cases hdeclare
    exact herror problem hproblem _ hs

theorem spares_mustDeclare (symbol : Symbol) (line : Nat) : Spares (mustDeclare symbol line) :=
  spares_declare symbol (fun _ => .ret _) fun _ hproblem => .fail hproblem

theorem spares_load (name : String) (line : Nat) : Spares (load name line) := by
  refine (spares_intern name).bind fun symbol => (spares_resolve symbol).bind fun found => ?_
  cases found with
  | slot n => exact spares_emitIndexed _ _ _
  | captured => exact spares_emitSymbol _ _ _
  | global => exact spares_emitSymbol _ _ _

theorem spares_store (name : String) (line : Nat) : Spares (store name line) := by
  refine (spares_intern name).bind fun symbol => (spares_resolve symbol).bind fun found => ?_
  cases found with
  | slot n => exact (spares_emitIndexed _ _ _).bind fun _ => spares_write _
  | captured => exact (spares_emitSymbol _ _ _).bind fun _ => spares_write _
  | global => exact (spares_emitSymbol _ _ _).bind fun _ => spares_write _

theorem spares_bind (name : String) (line : Nat) : Spares (Compile.bind name line) := by
  refine (spares_intern name).bind fun symbol => spares_read fun s => ?_
  split
  · exact (spares_emitSymbol _ _ _).bind fun _ => spares_write _
  · refine spares_declare symbol (fun slot => ?_) fun problem hproblem => ?_
    · exact (spares_emitIndexed _ _ _).bind fun _ => spares_write _
    · exact (spares_report hproblem line).bind fun _ => (spares_write _).bind fun _ => spares_write _

theorem spares_declareParams (line : Nat) (done : List Symbol) (params : List String) :
    Spares (declareParams line done params) := by
  induction params generalizing done with
  | nil => exact .ret _
  | cons param params ih =>
    refine (spares_intern param).bind fun symbol => ?_
    split
    · refine (spares_report (by simp) line).bind fun _ => (spares_intern _).bind fun _ => ?_
      exact (spares_mustDeclare _ line).bind fun _ => ih _
    · refine spares_declare symbol (fun _ => ih _) fun problem hproblem => ?_
      exact (spares_report hproblem line).bind fun _ => ih _

theorem spares_declareSelf (line : Nat) (name : Option Symbol) (params : List Symbol) :
    Spares (declareSelf line name params) := by
  cases name with
  | none => exact .ret _
  | some n =>
    unfold declareSelf
    dsimp only
    split
    · exact .ret _
    · exact (spares_mustDeclare n line).bind fun _ => .ret _

theorem spares_internName (name : Option String) : Spares (internName name) := by
  cases name with
  | none => exact .ret _
  | some name => exact (spares_intern name).bind fun _ => .ret _

theorem spares_emitFunction (line : Nat) (name : Option String) (params : List String)
    {body : Compile Unit} (hbody : Spares body) : Spares (emitFunction line name params body) := by
  refine (spares_internName name).bind fun name => (Spares.changed fun _ => rfl).bind fun enclosing =>
    (Spares.changed fun _ => rfl).bind fun _ => (spares_declareParams line [] params).bind fun params =>
    (spares_declareSelf line name params).bind fun selfName => hbody.bind fun _ =>
    (spares_write _).bind fun _ => (Spares.changed fun _ => rfl).bind fun function => ?_
  exact (spares_addConstant _ line).bind fun _ => spares_emitIndexed _ _ _

end Compile

open Compile

section Emission

variable (o : CompileOptions)

theorem spares_emitAll {es : List Expr} (hes : ∀ e ∈ es, ∀ tail, Spares (e.emit o tail)) :
    Spares (emitAll o es) := by
  induction es with
  | nil => exact .ret _
  | cons e es ih =>
    obtain ⟨he, hrest⟩ := List.forall_mem_cons.1 hes
    rw [emitAll]
    exact (he false).bind fun _ => ih hrest

theorem spares_emitStatements (tail : Bool) {es : List Expr}
    (hes : ∀ e ∈ es, ∀ tail, Spares (e.emit o tail)) : Spares (emitStatements o tail es) := by
  induction es with
  | nil => exact .ret _
  | cons e es ih =>
    obtain ⟨he, hrest⟩ := List.forall_mem_cons.1 hes
    rw [emitStatements]
    split
    · exact he tail
    · exact (he false).bind fun _ => (spares_write _).bind fun _ => ih hrest

theorem spares_emitFields (line : Nat) {fields : List (String × Expr)}
    (hfields : ∀ f ∈ fields, ∀ tail, Spares (f.2.emit o tail)) : Spares (emitFields o line fields) := by
  induction fields with
  | nil => exact .ret _
  | cons f fields ih =>
    obtain ⟨hf, hrest⟩ := List.forall_mem_cons.1 hfields
    rw [emitFields]
    refine (spares_intern _).bind fun _ => (spares_emitConstant _ line).bind fun _ => ?_
    exact (hf false).bind fun _ => ih hrest

theorem spares_emitPairs {pairs : List (Expr × Expr)}
    (hpairs : ∀ p ∈ pairs, ∀ e ∈ [p.1, p.2], ∀ tail, Spares (e.emit o tail)) :
    Spares (emitPairs o pairs) := by
  induction pairs with
  | nil => exact .ret _
  | cons p pairs ih =>
    obtain ⟨hp, hrest⟩ := List.forall_mem_cons.1 hpairs
    rw [emitPairs]
    exact (hp _ (.head _) false).bind fun _ => (hp _ (.tail _ (.head _)) false).bind fun _ => ih hrest

/-- Expressions without handlers that are written are compiled. -/
theorem Expr.spares_emit (tail : Bool) (e : Expr) (he : e.Every fun e => e.isHandle = false) :
    Spares (e.emit o tail) := by
  have ih : ∀ part ∈ e.parts, ∀ tail, Spares (part.emit o tail) := fun part hmem tail =>
    have := sizeOf_lt_of_mem_parts hmem
    spares_emit tail part (he.part hmem)
  cases e with
  | nothing line =>
    rw [emit]
    exact spares_write _
  | bool | int | float | str =>
    rw [emit]
    exact spares_emitConstant _ _
  | name line name =>
    rw [emit]
    exact spares_load _ _
  | call line callee args =>
    obtain ⟨hcallee, hargs⟩ := List.forall_mem_cons.1 ih
    rw [emit]
    exact (spares_emitAll o hargs).bind fun _ => (hcallee false).bind fun _ => spares_emitCount _ _ _ _
  | cond line test whenTrue whenFalse =>
    have htest := ih test (by simp [parts]) false
    have htrue := ih whenTrue (by simp [parts]) tail
    rw [emit]
    refine htest.bind fun _ => (Spares.changed fun _ => rfl).bind fun _ => htrue.bind fun _ =>
      (Spares.changed fun _ => rfl).bind fun _ => (spares_patch _ _).bind fun _ => ?_
    cases whenFalse with
    | none => exact (spares_write _).bind fun _ => spares_patch _ _
    | some whenFalse =>
      have hfalse := ih whenFalse (by simp [parts]) tail
      exact hfalse.bind fun _ => spares_patch _ _
  | lambda line name params body =>
    rw [emit]
    exact spares_emitFunction _ _ _ (ih body (.head _) true)
  | block line body =>
    rw [emit]
    refine (Spares.changed fun _ => rfl).bind fun _ => ?_
    cases body with
    | nil => exact (spares_write _).bind fun _ => .changed fun _ => rfl
    | cons first body => exact (spares_emitStatements o tail ih).bind fun _ => .changed fun _ => rfl
  | declare line name value =>
    rw [emit]
    exact (ih value (.head _) false).bind fun _ => spares_bind _ _
  | assign line name value =>
    rw [emit]
    exact (ih value (.head _) false).bind fun _ => spares_store _ _
  | list | tuple =>
    rw [emit]
    exact (spares_emitAll o ih).bind fun _ => spares_emitCount _ _ _ _
  | record line fields =>
    rw [emit]
    refine (spares_emitFields o _ fun f hf => ih f.2 (List.mem_map_of_mem hf)).bind fun _ => ?_
    exact spares_emitCount _ _ _ _
  | field line target name =>
    rw [emit]
    exact (ih target (.head _) false).bind fun _ => (spares_intern _).bind fun _ =>
      spares_emitSymbol _ _ _
  | handle => cases he.here
  | handled line pairs body =>
    have hbody := ih body (.head _) true
    have hpairs : Spares (emitPairs o pairs) := spares_emitPairs o fun p hp e he =>
      ih e (List.mem_cons_of_mem _ (List.mem_flatMap.2 ⟨p, hp, he⟩))
    rw [emit]
    exact hpairs.bind fun _ => (spares_emitCount _ _ _ _).bind fun _ =>
      (spares_emitFunction _ _ _ hbody).bind fun _ => spares_write _
termination_by sizeOf e

end Emission

namespace Program

variable {program : Program} {o : CompileOptions} {names : Names} {supply : Supply}
  {errors : List CompileError}

theorem emit_spares (hnone : ∀ e ∈ program, e.Every fun e => e.isHandle = false)
    (hemit : (program.emit o names supply).1 = .error errors) : ∀ e ∈ errors, e.IsOther := by
  have hbody : Spares (program.emitBody o) := by
    unfold emitBody
    split
    · exact (spares_write _).bind fun _ => spares_write _
    · refine (spares_emitStatements o true fun e he tail => e.spares_emit o tail (hnone e he)).bind ?_
      exact fun _ => spares_write _
  have hspared := hbody { names, supply } (by simp)
  unfold emit at hemit
  cases hrun : program.emitBody o { names, supply } with
  | ok u s =>
    rw [hrun] at hspared hemit
    dsimp only at hemit
    split at hemit
    · cases hemit
    · cases hemit
      exact fun e he => hspared e (List.mem_reverse.1 he)
  | error fatal s =>
    rw [hrun] at hspared hemit
    cases hemit
    exact fun e he => hspared e (List.mem_reverse.1 he)

/-- No program has a form that compiling does not support. -/
theorem compile_spares (hcompile : (program.compile o names supply).1 = .error errors) :
    ∀ e ∈ errors, e.IsOther := by
  unfold compile at hcompile
  cases hlower : program.lower with
  | ok lowered =>
    rw [hlower] at hcompile
    have hnone : ∀ e ∈ lowered, e.Every fun e => e.isHandle = false := fun e he =>
      (lower_image hlower (fun e _ => Expr.every_of_forall (fun _ => trivial) e) e he).mono
        fun _ himage => himage.noHandle
    exact emit_spares hnone hcompile
  | error refusals =>
    rw [hlower] at hcompile
    cases hcompile
    intro e he kind hproblem
    have hrefuses := lower_refuses hlower e he
    simp [CompileError.refusesHandler, hproblem] at hrefuses

/-- Lowering succeeds exactly on programs whose handlers fit. It then changes nothing but these: none is
left, and clauses are functions of two parameters unless they were there before. So no program has a form
that compiling does not support. What has no handlers is its own lowering, as every result is. -/
theorem lowering_exact (program : Program) :
    ((∃ lowered, program.lower = .ok lowered) ↔ ∀ e ∈ program, e.Every Expr.HandlerFits) ∧
    (∀ lowered, program.lower = .ok lowered →
      LoweredAll program lowered ∧
      (∀ e ∈ lowered, e.Every (Expr.Image fun part => ∃ e ∈ program, part.Within e)) ∧
      lowered.lower = .ok lowered) ∧
    ((∀ e ∈ program, e.Every fun e => e.isHandle = false) → program.lower = .ok program) ∧
    ∀ o names supply errors, (program.compile o names supply).1 = .error errors →
      ∀ e ∈ errors, e.IsOther := by
  refine ⟨program.lower_iff, fun lowered hlower => ?_, lower_of_noHandle, fun _ _ _ _ => compile_spares⟩
  have himage := lower_image (H := fun part => ∃ e ∈ program, part.Within e) hlower fun e he =>
    e.every_of_within fun part hpart => ⟨e, he, hpart⟩
  refine ⟨loweredAll hlower, himage, lower_of_noHandle fun e he => ?_⟩
  exact (himage e he).mono fun _ hhere => hhere.noHandle

/-- A handler for one effect is lowered, and what it is lowered to stays as it is. -/
theorem lowering_exact_once :
    ∃ lowered, Program.lower [.handle 1 (.name 1 "a") [⟨.name 1 "b", "x", none, none, .name 1 "x", 1⟩]] =
      .ok lowered ∧ lowered.lower = .ok lowered := by
  obtain ⟨-, hresult, -⟩ := lowering_exact
    [.handle 1 (.name 1 "a") [⟨.name 1 "b", "x", none, none, .name 1 "x", 1⟩]]
  have hlower := show Program.lower
    [.handle 1 (.name 1 "a") [⟨.name 1 "b", "x", none, none, .name 1 "x", 1⟩]] = .ok _ from rfl
  exact ⟨_, hlower, (hresult _ hlower).2.2⟩

end Program

end Resumable
