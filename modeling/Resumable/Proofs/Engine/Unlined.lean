import Resumable.Proofs.Compile.Unlined
import Resumable.Proofs.Engine.Resumption
import Resumable.Proofs.Machine.Invocation
import Resumable.Proofs.Machine.UnlinedRun

/-!
Engines without lines. Whether lines are recorded when a program is compiled makes no difference to
what the program does. It shows in the wording of failures alone, so that a function of an embedding
that catches a failure can tell.
-/

namespace Resumable

/-- The failure that has been come to. -/
def Outcome.failure? : Outcome → Option RuntimeError
  | failed e => some e
  | returned _ => none
  | crashed => none

namespace Engine

/-- An engine without lines. -/
def unlined (e : Engine) : Engine :=
  { e with world := e.world.unlined, thread := e.thread.unlined }

/-- What runs of a program come to that do the same but for lines. The values they return and the
global variables they leave are equal without their lines, and so is all else that they leave; they
have written the same, and if they fail, the root of the failure is the same. -/
structure EndSame (r r' : Outcome × Engine) : Prop where
  outcome : r.1.Same r'.1
  globals : ∀ name, Option.Rel SameValue (r.2.get? name) (r'.2.get? name)
  output : r'.2.world.output = r.2.world.output
  rest : r.2.unlined = r'.2.unlined

theorem endSame_of_unlined {o o' : Outcome} {e e' : Engine} (ho : o.Same o')
    (he : e.unlined = e'.unlined) : EndSame (o, e) (o', e') := by
  refine ⟨ho, ?_, (congrArg (fun e => e.world.output) he).symm, he⟩
  intro name
  have hnames : e.names = e'.names := congrArg (fun e => e.names) he
  refine (optionRel_iff_map_eq Value.unlined).2 ?_
  simp only [get?, hnames, Option.map_bind, Function.comp_def, ← Globals.get?_unlined]
  exact congrArg (fun e : Engine => (e'.names.find? name).bind fun s => e.world.globals.get? s) he

/-- Code and the same code without its lines do the same on an engine. -/
theorem interpret_unlined (fuel : Nat) (e : Engine) (code : Code Value)
    (hcatches : ∀ n, ((e.started code).after n).catches = false) :
    Option.Rel EndSame (e.interpret fuel code) (e.interpret fuel code.unlined) := by
  have hstart : (e.started code).unlined = (e.started code.unlined).unlined := by
    refine Machine.unlined_eq_iff.2 ⟨rfl, ?_, rfl⟩
    refine Thread.unlined_eq_iff.2 ⟨rfl, rfl, rfl, rfl, rfl, ?_⟩
    simp only [started, Machine.begin, List.map_cons, Level.unlined, Phase.unlined,
      Value.unlined_closure, Code.unlined_unlined]
  have hrun := Machine.run_same fuel hstart hcatches
  change Option.Rel EndSame
    (((e.started code).run fuel).map fun r => (r.1, ⟨r.2.world, e.names, r.2.thread⟩))
    (((e.started code.unlined).run fuel).map fun r => (r.1, ⟨r.2.world, e.names, r.2.thread⟩))
  generalize (e.started code).run fuel = r at hrun
  generalize (e.started code.unlined).run fuel = r' at hrun
  cases hrun with
  | none => exact .none
  | @some r r' hr =>
    obtain ⟨hworld, hthread, _⟩ := Machine.unlined_eq_iff.1 hr.2
    refine .some (endSame_of_unlined hr.1 ?_)
    simp only [unlined, hworld, hthread]

/-- In a run of code no function of an embedding catches a failure, and no task is started or waited
for, nor is time told or let pass: tasks run beside each other, and two runs take different times. -/
def RunsPlainly (e : Engine) (code : Code Value) : Prop :=
  ∀ n, ((e.started code).after n).catches = false ∧
    ¬ ((e.started code).after n).Invokes Native.isTimed

/-- Recorded lines make no difference to what a program does. A program compiles without them if and
only if it does so with them; either way the same names and numbers are left, and if it does not, the
problems are the same in the same order. The code is the same without its lines, in the code among its
constants too. Run on one engine, for the same number of moves, both come to no end, or they come to
the same, as long as no failure is caught on the way and neither tasks nor time play a part. -/
theorem lines_make_no_difference (names : Names) (supply : Supply) (program : Program) :
    (program.compile .unlined names supply).2 = (program.compile {} names supply).2 ∧
      ((∃ errors errors', (program.compile {} names supply).1 = .error errors ∧
          (program.compile .unlined names supply).1 = .error errors' ∧
          errors'.map CompileError.problem = errors.map CompileError.problem) ∨
        ∃ code, (program.compile {} names supply).1 = .ok code ∧
          (program.compile .unlined names supply).1 = .ok code.unlined ∧
          ∀ (e : Engine) (fuel : Nat), e.RunsPlainly code →
            Option.Rel EndSame (e.interpret fuel code) (e.interpret fuel code.unlined)) := by
  obtain ⟨hleft, hresult⟩ := program.unlines_compile names supply
  refine ⟨hleft, ?_⟩
  generalize (program.compile {} names supply).1 = r at hresult ⊢
  generalize (program.compile .unlined names supply).1 = r' at hresult ⊢
  cases hresult with
  | ok code => exact Or.inr ⟨code, rfl, rfl, fun e fuel h => interpret_unlined fuel e code fun n => (h n).1⟩
  | error hproblems => exact Or.inl ⟨_, _, rfl, rfl, hproblems⟩

/-- Whether a run of code comes to an end within some moves, and no function of an embedding catches a
failure on the way, nor do tasks or time play a part. -/
def runsPlainly (e : Engine) (fuel : Nat) (code : Code Value) : Bool :=
  (e.started code).throughout (fun m => !m.catches && m.sparesCalls Native.isTimed) fuel

theorem runsPlainly_of_test {e : Engine} {fuel : Nat} {code : Code Value}
    (htest : e.runsPlainly fuel code = true) : e.RunsPlainly code := by
  intro n
  obtain ⟨hcatches, hspares⟩ :=
    Bool.and_eq_true_iff.1 ((Machine.Reaches.refl.after n).of_throughout htest)
  exact ⟨by simpa using hcatches, Machine.not_invokes_of_sparesCalls hspares⟩

/-- A program that prints what a function inside a function computes, and then has it fail. -/
def failing : Program :=
  [.declare 1 "plus" (.lambda 1 none ["n"]
      (.lambda 1 none ["x"] (.callOf 1 "+" [.name 1 "x", .name 1 "n"]))),
    .callOf 2 "print" [.call 2 (.callOf 2 "plus" [.int 2 2]) [.int 2 40]],
    .call 3 (.callOf 3 "plus" [.int 3 2]) [.str 3 "a"]]

/-- A program that prints and then fails does both with lines and without them, for the same reason. -/
theorem lines_make_no_difference_failing :
    ∃ code, (failing.compile {} (create {} 0).names (create {} 0).world.supply).1 = .ok code ∧
      (failing.compile .unlined (create {} 0).names (create {} 0).world.supply).1 =
        .ok code.unlined ∧
      (∃ r, (create {} 0).interpret 99 code = some r ∧ r.2.world.output = "42\n" ∧
        r.1.failure?.map RuntimeError.message =
          some "[line 1] TypeError: unsupported operand types for +: string and int") ∧
      Option.Rel EndSame ((create {} 0).interpret 99 code)
        ((create {} 0).interpret 99 code.unlined) := by
  obtain ⟨code, hcompile, htests⟩ := Except.exists_of_any
    (f := fun code => (create {} 0).runsPlainly 99 code &&
      ((create {} 0).interpret 99 code).any fun r => r.2.world.output == "42\n" &&
        r.1.failure?.map RuntimeError.message ==
          some "[line 1] TypeError: unsupported operand types for +: string and int")
    (x := (failing.compile {} (create {} 0).names (create {} 0).world.supply).1)
    (by decide +kernel)
  simp only [Bool.and_eq_true, Option.any_eq_true, beq_iff_eq] at htests
  obtain ⟨hplainly, hends⟩ := htests
  obtain ⟨_, ⟨errors, _, herrors, _⟩ | ⟨code', hcode, hunlined, hrun⟩⟩ :=
    lines_make_no_difference (create {} 0).names (create {} 0).world.supply failing
  · rw [hcompile] at herrors
    cases herrors
  · obtain rfl := Except.ok.inj (hcompile.symm.trans hcode)
    exact ⟨code, hcompile, hunlined, hends, hrun (create {} 0) 99 (runsPlainly_of_test hplainly)⟩

/-- An engine with a function that calls a value and turns a failure into its wording. -/
def catching : Engine :=
  (create {} 0).defineNative ⟨"try", 1, .hook .attempt⟩

/-- A program that has a failure caught and prints what is said of it. -/
def caughtFailure : Program :=
  [.call 1 (.name 1 "print") [.call 1 (.name 1 "try") [.lambda 1 none [] (.name 1 "missing")]]]

/-- A program that is told of a failure prints the line with lines, and does not without. -/
theorem caught_failure_tells_line :
    ∃ code, (caughtFailure.compile {} catching.names catching.world.supply).1 = .ok code ∧
      (caughtFailure.compile .unlined catching.names catching.world.supply).1 =
        .ok code.unlined ∧
      ∃ r r', catching.interpret 30 code = some r ∧ catching.interpret 30 code.unlined = some r' ∧
        r.2.world.output = "(\"err\", \"[line 1] UndefinedVariable: missing\", 0)\n" ∧
        r'.2.world.output = "(\"err\", \"UndefinedVariable: missing\", 0)\n" ∧
        ¬ EndSame r r' := by
  obtain ⟨code, hcompile, htest⟩ := Except.exists_of_any
    (f := fun code => (catching.interpret 30 code).any fun r =>
      r.2.world.output == "(\"err\", \"[line 1] UndefinedVariable: missing\", 0)\n")
    (x := (caughtFailure.compile {} catching.names catching.world.supply).1) (by decide +kernel)
  obtain ⟨code', hcompile', htest'⟩ := Except.exists_of_any
    (f := fun code => (catching.interpret 30 code).any fun r =>
      r.2.world.output == "(\"err\", \"UndefinedVariable: missing\", 0)\n")
    (x := (caughtFailure.compile .unlined catching.names catching.world.supply).1)
    (by decide +kernel)
  obtain ⟨_, hresult⟩ := caughtFailure.unlines_compile catching.names catching.world.supply
  rw [hcompile, hcompile'] at hresult
  cases hresult
  simp only [Option.any_eq_true, beq_iff_eq] at htest htest'
  obtain ⟨r, hrun, houtput⟩ := htest
  obtain ⟨r', hrun', houtput'⟩ := htest'
  refine ⟨code, hcompile, hcompile', r, r', hrun, hrun', houtput, houtput', ?_⟩
  intro hsame
  have hwritten := hsame.output
  rw [houtput, houtput'] at hwritten
  exact absurd hwritten (by decide)

end Engine

end Resumable
