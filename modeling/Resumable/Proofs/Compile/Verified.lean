import Resumable.Proofs.Bytecode.Verifier
import Resumable.Proofs.Compile.Emission.Expression
import Resumable.Proofs.Compile.Typed
import Resumable.Proofs.Expr.Lowering

/-!
What compiling a program guarantees: its code is sound and passes the verifier, and so does every
function in it.
-/

namespace Resumable

namespace Program

variable {o : CompileOptions} {program : Program} {names : Names} {supply : Supply}
  {code : Code Value}

/-- A program that compiles has been lowered, and the result is laid out in its code. -/
theorem compile_layoutProgram {P : Expr → Prop}
    (hcompile : (program.compile o names supply).1 = .ok code) :
    ∃ lowered, program.lower = .ok lowered ∧ ((∀ e ∈ lowered, e.Every P) →
      LayoutProgram P o (program.compile o names supply).2.1 lowered code) := by
  unfold compile at hcompile ⊢
  cases hlower : program.lower with
  | error errors => simp [hlower] at hcompile
  | ok lowered =>
    simp only [hlower] at hcompile
    refine ⟨lowered, rfl, fun hevery => ?_⟩
    exact (emit_layoutProgram hevery (by rw [← hcompile])).1

/-- What is known of the names and the numbers after a program has been compiled. -/
theorem lower_of_compile (hcompile : (program.compile o names supply).1 = .ok code) :
    ∃ lowered, program.lower = .ok lowered ∧
      LayoutProgram (fun _ => True) o (program.compile o names supply).2.1 lowered code ∧
      (names.Coherent supply →
        (program.compile o names supply).2.1.Coherent (program.compile o names supply).2.2) ∧
      supply.objects ≤ (program.compile o names supply).2.2.objects ∧
      ∀ name symbol, names.find? name = some symbol →
        (program.compile o names supply).2.1.find? name = some symbol := by
  unfold compile at hcompile ⊢
  cases hlower : program.lower with
  | error errors => simp [hlower] at hcompile
  | ok lowered =>
    simp only [hlower] at hcompile
    have hevery : ∀ e ∈ lowered, e.Every fun _ => True := fun e _ =>
      Expr.every_of_forall (fun _ => trivial) e
    exact ⟨lowered, rfl, emit_layoutProgram hevery (by rw [← hcompile])⟩

/-- Compiled code is sound for the kind of clauses that the program is lowered to. -/
theorem sound_of_lower {κ : Kind} (hcompile : (program.compile o names supply).1 = .ok code)
    (hclauses : ∀ lowered, program.lower = .ok lowered → ∀ e ∈ lowered, e.ClausesAre κ) :
    code.Sound κ ∧ code.captures = [] := by
  obtain ⟨lowered, hlower, hlayout⟩ := compile_layoutProgram hcompile
  have hall : ∀ e ∈ lowered, e.Every (Expr.ClausesAre κ) :=
    fun e he => (hclauses lowered hlower e he).every
  exact ⟨(hlayout hall).sound (hclauses lowered hlower), (hlayout hall).captures⟩

/-- Compiled code is sound, whatever the clauses of its handlers are. -/
theorem sound_of_compile (hcompile : (program.compile o names supply).1 = .ok code) :
    code.Sound .value ∧ code.captures = [] :=
  sound_of_lower hcompile fun _ _ e _ => e.clausesAre_value

/-- In the code of a source text all clauses are functions of two parameters. -/
theorem sound_of_compileSource {source : String}
    (hcompile : (compileSource o names supply source).1 = .ok code) :
    code.Sound .clause ∧ code.captures = [] := by
  unfold compileSource at hcompile
  cases hread : ofSource source with
  | error failure => simp [hread] at hcompile
  | ok program =>
    simp only [hread] at hcompile
    cases hresult : (program.compile o names supply).1 with
    | error errors => simp [hresult, Except.mapError] at hcompile
    | ok code' =>
      simp only [hresult, Except.mapError, Except.ok.injEq] at hcompile
      subst hcompile
      exact sound_of_lower hresult fun _ hlower => lower_clausesAre (ofSource_written hread) hlower

/-- Every code object that the compiler writes passes the verifier, to any depth of nesting; the
outermost captures nothing. -/
theorem verified_of_compile (hcompile : (program.compile o names supply).1 = .ok code) :
    code.captures = [] ∧ ∀ f, code.Nests f → ∃ is height, f.Verified is height := by
  obtain ⟨hsound, hcaptures⟩ := sound_of_compile hcompile
  exact ⟨hcaptures, fun f hnests => (hsound.nests hnests).verified⟩

/-- A function that captures a local of the function around it. -/
theorem verified_of_compile_capture :
    ∃ code, (compile {} {} {} [.block 1 [.declare 1 "x" (.int 1 5),
        .lambda 2 none [] (.cond 2 (.name 2 "x") (.name 2 "x") none)]]).1 = .ok code ∧
      code.captures = [] ∧ ∀ f, code.Nests f → ∃ is height, f.Verified is height := by
  have hok : (compile {} {} {} [.block 1 [.declare 1 "x" (.int 1 5),
      .lambda 2 none [] (.cond 2 (.name 2 "x") (.name 2 "x") none)]]).1.isOk = true := by
    decide +kernel
  cases hcompile : (compile {} {} {} [.block 1 [.declare 1 "x" (.int 1 5),
      .lambda 2 none [] (.cond 2 (.name 2 "x") (.name 2 "x") none)]]).1 with
  | ok code => exact ⟨code, rfl, verified_of_compile hcompile⟩
  | error errors => rw [hcompile] at hok; cases hok

end Program

end Resumable
