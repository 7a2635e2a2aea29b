import Resumable.Proofs.Meaning.DirectRun
import Resumable.Proofs.Meaning.Programs

/-!
Compilation preserves what programs without handlers mean. A program is compiled and run on an engine;
what comes of it is what its direct evaluation comes to.
-/

namespace Resumable

/-- An expression without handlers mentions no name that lowering makes, since it makes none. -/
theorem Expr.Simple.named {e : Expr} (h : e.Simple) : e.Named fun _ => True := by
  refine h.mono fun e he => ?_
  cases e with
  | lambda => exact ⟨fun _ _ => trivial, fun _ _ => trivial⟩
  | handle | handled => cases he
  | _ => trivial

namespace Meaning

/-- A run on an engine has ended as a direct evaluation ends: in a value that means the same and is shown
with the same text, or in the same failure at the same line. The same has been printed, and whatever is
run later finds the same there. -/
structure EndsAs (r : Except RuntimeError Value) (μ : Memory) (outcome : Outcome) (e : Engine) : Prop where
  means : OutcomeMeans μ (outcomeOf r) outcome
  text : ∀ v w, r = .ok v → outcome = .returned w → e.render w = μ.world.render v
  output : e.world.output = μ.world.output
  portrays : Portrays μ e
  simple : μ.Simple

theorem EndsAs.intro {r : Except RuntimeError Value} {μ : Memory} {outcome : Outcome} {e : Engine}
    (houtcome : OutcomeMeans μ (outcomeOf r) outcome) (hportrays : Portrays μ e) (hμ : μ.Simple) :
    EndsAs r μ outcome e := by
  refine ⟨houtcome, fun v w hr hw => ?_, hportrays.world.output.symm, hportrays, hμ⟩
  subst hr hw
  cases houtcome with
  | returned hv => exact hportrays.world.render_eq hv

namespace Portrays

variable {μ : Memory} {e : Engine} {o : CompileOptions} {program : Program} {code : Code Value}

/-- The direct evaluation of a program with the names and under the limits of an engine that has compiled
it. -/
def evaluated (μ : Memory) (e : Engine) (o : CompileOptions) (program : Program) (n : Nat) :
    Option (Except RuntimeError Value × Memory) :=
  evaluateProgram n e.thread.limits ⟨o, e.names⟩ program (μ.supplied e.world.supply)

/-- A run that ends, and a direct evaluation that comes to something, end alike. -/
theorem endsAs {next : Next} {r : Except RuntimeError Value} {μ' : Memory} {fuel : Nat}
    {outcome : Outcome} {e' : Engine} (h : Performs e code next)
    (hleads : next.Leads (.ended (outcomeOf r) μ')) (hμ' : μ'.Simple)
    (hrun : e.interpret fuel code = some (outcome, e')) : EndsAs r μ' outcome e' := by
  obtain ⟨fills, outcome', μ'', hafter, houtcome, hportrays⟩ := h.ends fuel outcome e' hrun
  obtain ⟨rfl, rfl⟩ := hleads.unique hafter
  exact .intro houtcome hportrays hμ'

/-- A program without handlers is compiled to code that ends if and only if the direct evaluation of the
program comes to something, and then they end alike. -/
theorem preserves_meaning (h : Portrays μ e) (hμ : μ.Simple) (hprogram : ∀ x ∈ program, x.Simple)
    (hcompile : (e.compile o program).1 = .ok code) :
    (∀ fuel outcome e', (e.compile o program).2.interpret fuel code = some (outcome, e') →
      ∃ n r μ', evaluated μ (e.compile o program).2 o program n = some (r, μ') ∧ EndsAs r μ' outcome e') ∧
    (∀ n r μ', evaluated μ (e.compile o program).2 o program n = some (r, μ') →
      ∃ fuel outcome e', (e.compile o program).2.interpret fuel code = some (outcome, e') ∧
        EndsAs r μ' outcome e') := by
  have hperforms := h.performs hcompile fun x hx => (hprogram x hx).named
  generalize (e.compile o program).2 = e₁ at hperforms
  have hcomes := fun n => begin_comes n e₁.thread.limits ⟨o, e₁.names⟩ hprogram
    (hμ.withWorld { μ.world with supply := e₁.world.supply })
  constructor
  · intro fuel outcome e' hrun
    obtain ⟨fills, outcome', μ', hafter, -⟩ := hperforms.ends fuel outcome e' hrun
    cases heval : evaluated μ e₁ o program fills.length with
    | none =>
      obtain ⟨σ, hσ⟩ := (hcomes fills.length).1 heval fills (Nat.le_refl _)
      cases hσ.symm.trans hafter
    | some p =>
      obtain ⟨hsimple, hleads⟩ := (hcomes fills.length).2 p.1 p.2 heval
      exact ⟨_, p.1, p.2, heval, endsAs hperforms hleads hsimple hrun⟩
  · intro n r μ' heval
    obtain ⟨hsimple, hleads⟩ := (hcomes n).2 r μ' heval
    by_cases hforever : ∀ fuel, e₁.interpret fuel code = none
    · obtain ⟨k, hk⟩ := hleads
      obtain ⟨fills, σ, hlength, hσ⟩ := hperforms.goesOn hforever k
      cases hσ.symm.trans (hk fills hlength)
    · obtain ⟨fuel, hfuel⟩ := not_forall.1 hforever
      obtain ⟨⟨outcome, e'⟩, hrun⟩ := Option.ne_none_iff_exists'.1 hfuel
      exact ⟨fuel, outcome, e', hrun, endsAs hperforms hleads hsimple hrun⟩

/-- A function is given one argument, and in a block the result is called with the other. -/
def addition : Program :=
  [.declare 1 "add" (.lambda 1 (some "add") ["a", "b"]
      (.call 1 (.name 1 "+") [.name 1 "a", .name 1 "b"])),
    .block 2 [.declare 2 "inc" (.call 2 (.name 2 "add") [.int 2 1]),
      .call 2 (.name 2 "inc") [.int 2 41]]]

theorem simple_addition : ∀ x ∈ addition, x.Simple := by
  have hname : ∀ line name, (Expr.name line name).Simple := fun _ _ => .intro nofun nofun
  have hint : ∀ line n, (Expr.int line n).Simple := fun _ _ => .intro nofun nofun
  have hcall : ∀ line f es, (∀ e ∈ es, e.Simple ∧ e.isDeclaration = false) →
      (Expr.call line (.name line f) es).Simple := fun _ _ _ hes =>
    .intro (List.forall_mem_cons.2 ⟨rfl, fun e he => (hes e he).2⟩)
      (List.forall_mem_cons.2 ⟨hname _ _, fun e he => (hes e he).1⟩)
  have hone : ∀ line f n, (Expr.call line (.name line f) [.int line n]).Simple := fun _ _ _ =>
    hcall _ _ _ (List.forall_mem_singleton.2 ⟨hint _ _, rfl⟩)
  have hsum : (Expr.call 1 (.name 1 "+") [.name 1 "a", .name 1 "b"]).Simple :=
    hcall _ _ _ (List.forall_mem_cons.2 ⟨⟨hname _ _, rfl⟩, List.forall_mem_singleton.2 ⟨hname _ _, rfl⟩⟩)
  have hadd : (Expr.lambda 1 (some "add") ["a", "b"]
      (.call 1 (.name 1 "+") [.name 1 "a", .name 1 "b"])).Simple :=
    .intro (List.forall_mem_singleton.2 rfl) (List.forall_mem_singleton.2 hsum)
  have hinc : (Expr.declare 2 "inc" (.call 2 (.name 2 "add") [.int 2 1])).Simple :=
    .intro (List.forall_mem_singleton.2 rfl) (List.forall_mem_singleton.2 (hone _ _ _))
  refine List.forall_mem_cons.2 ⟨?_, List.forall_mem_singleton.2 ?_⟩
  · exact .intro (List.forall_mem_singleton.2 rfl) (List.forall_mem_singleton.2 hadd)
  · exact .intro trivial (List.forall_mem_cons.2 ⟨hinc, List.forall_mem_singleton.2 (hone _ _ _)⟩)

/-- Whether a direct evaluation came to a number. -/
def cameTo (n : Int64) (p : Except RuntimeError Value × Memory) : Bool :=
  match p.1 with
  | .ok (.int m) => m == n
  | _ => false

theorem preserves_meaning_addition :
    ∃ e code n μ' fuel outcome e', e = ((Engine.create {} 0).compile {} addition).2 ∧
      ((Engine.create {} 0).compile {} addition).1 = .ok code ∧
      evaluated { world := (Engine.create {} 0).world } e {} addition n = some (.ok (.int 42), μ') ∧
      e.interpret fuel code = some (outcome, e') ∧ EndsAs (.ok (.int 42)) μ' outcome e' := by
  obtain ⟨code, hcompile, -⟩ := Except.exists_of_any (f := fun _ => true)
    (x := ((Engine.create {} 0).compile {} addition).1) (by decide +kernel)
  obtain ⟨⟨r, μ'⟩, heval, hr⟩ := (Option.any_eq_true _ _).1
    (show (evaluated { world := (Engine.create {} 0).world } ((Engine.create {} 0).compile {} addition).2 {}
      addition 9).any (cameTo 42) = true by decide +kernel)
  have hsame : r = .ok (.int 42) := by
    unfold cameTo at hr
    split at hr
    next n h => rw [show r = .ok (.int n) from h, eq_of_beq hr]
    next => cases hr
  subst hsame
  have hpreserves := preserves_meaning (create {} 0) ⟨by simp, rfl⟩ simple_addition hcompile
  obtain ⟨fuel, outcome, e', hrun, hends⟩ := hpreserves.2 9 _ _ heval
  exact ⟨_, code, 9, μ', fuel, outcome, e', rfl, hcompile, heval, hrun, hends⟩

end Portrays

end Meaning

end Resumable
