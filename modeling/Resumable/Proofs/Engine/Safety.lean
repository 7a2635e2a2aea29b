import Resumable.Proofs.Compile.Verified
import Resumable.Proofs.Engine.Sound

/-!
Compiled programs never go wrong, whatever was run before on the same engine.
-/

namespace Resumable

/-- Code that a program compiles to, with any options and any names. -/
def Code.Compiled (code : Code Value) : Prop :=
  ∃ (o : CompileOptions) (names : Names) (supply : Supply) (program : Program),
    (program.compile o names supply).1 = .ok code

namespace Engine

/-- Engines with the library on which any programs have been compiled, or not, and any compiled ones
run, with whatever outcome. The prelude is one of these. -/
inductive Used : Engine → Prop
  | create (limits : Limits) (clock : Nat) : Used (create limits clock)
  | compile {e : Engine} (he : Used e) (o : CompileOptions) (program : Program) :
    Used (e.compile o program).2
  | compileSource {e : Engine} (he : Used e) (o : CompileOptions) (source : String) :
    Used (e.compileSource o source).2
  | interpret {e e' : Engine} {code : Code Value} {fuel : Nat} {outcome : Outcome} (he : Used e)
    (hcode : code.Compiled) (hrun : e.interpret fuel code = some (outcome, e')) : Used e'

theorem Used.sound {e : Engine} (he : e.Used) : e.Sound .value := by
  induction he with
  | create limits clock => exact create_sound limits clock
  | compile _ o program ih => exact ih.compile o program
  | compileSource _ o source ih => exact ih.compileSource o source
  | interpret _ hcode hrun ih =>
    obtain ⟨o, names, supply, program, hcompile⟩ := hcode
    obtain ⟨hsound, hcaptures⟩ := Program.sound_of_compile hcompile
    exact (ih.interpret hsound hcaptures hrun).2.2.2

/-- A run of code that never goes wrong. It neither crashes nor ends because of malformed bytecode,
and no move on the way stops for such a reason, also in tasks. A variable is found undefined by the
load of a global variable alone; otherwise it is the failure of a task that a call hands on. -/
structure NeverWrong (e : Engine) (code : Code Value) : Prop where
  outcome : ∀ fuel outcome e', e.interpret fuel code = some (outcome, e') →
    outcome ≠ .crashed ∧
      ∀ error detail, outcome = .failed error → error.root ≠ .invalidBytecode detail
  stops : ∀ m op s, (e.started code).Reaches m → m.Stops op s →
    ∃ error, s = .error error ∧ (∀ detail, error.root ≠ .invalidBytecode detail) ∧
      ∀ name, error.root = .undefinedVariable name →
        (∃ o, op = some o ∧ o.narrow = .loadGlobal) ∨
          m.world.Keeps error ∧ ∀ o, op = some o → o.narrow = .call ∨ o.narrow = .tailCall

theorem Sound.neverWrong {e : Engine} {code : Code Value} {κ : Kind} (he : e.Sound κ)
    (hcode : code.Sound κ) (hcaptures : code.captures = []) : e.NeverWrong code := by
  refine ⟨?_, ?_⟩
  · intro fuel outcome e' hrun
    obtain ⟨hcrashed, hfailed, _⟩ := he.interpret hcode hcaptures hrun
    exact ⟨hcrashed, fun error detail houtcome => hfailed error houtcome detail⟩
  · intro m op s hreaches hstops
    have hm := (he.started hcode hcaptures).reaches hreaches
    obtain ⟨error, rfl, hmay⟩ := hm.stops hstops
    refine ⟨error, rfl, ?_⟩
    cases op with
    | none =>
      obtain hordinary | hkept := hmay
      · exact ⟨hordinary.1, fun name hname => absurd hname (hordinary.2 name)⟩
      · exact ⟨hm.world.failures error hkept, fun _ _ => Or.inr ⟨hkept, nofun⟩⟩
    | some o =>
      refine ⟨hmay.admissible hm.world, fun name hname => ?_⟩
      obtain hordinary | ⟨hcall, hkept⟩ | ⟨hload, _⟩ := hmay
      · exact absurd hname (hordinary.2 name)
      · exact Or.inr ⟨hkept, by rintro _ ⟨⟩; exact hcall⟩
      · exact Or.inl ⟨o, rfl, hload⟩

/-- Every program that compiles runs without going wrong. -/
theorem neverWrong_of_compile {e : Engine} {o : CompileOptions} {program : Program}
    {code : Code Value} (he : e.Used) (hcompile : (e.compile o program).1 = .ok code) :
    (e.compile o program).2.NeverWrong code := by
  have hcompiled : (program.compile o e.names e.world.supply).1 = .ok code := hcompile
  obtain ⟨hsound, hcaptures⟩ := Program.sound_of_compile hcompiled
  exact (he.compile o program).sound.neverWrong hsound hcaptures

/-- A program whose handler has an effect in the place of its clause, on an engine on which another
program has been compiled. -/
theorem neverWrong_of_compile_handled :
    ∃ code, ((((create {} 0).compile {} [.name 1 "unknown"]).2.compile {}
        [.declare 1 "eff" (.callOf 1 "new_effect" [.str 1 "e"]),
          .handled 2 [(.name 2 "eff", .name 2 "eff")]
            (.lambda 2 none [] (.callOf 2 "eff" [.int 2 3]))]).1 = .ok code) ∧
      (((create {} 0).compile {} [.name 1 "unknown"]).2.compile {}
        [.declare 1 "eff" (.callOf 1 "new_effect" [.str 1 "e"]),
          .handled 2 [(.name 2 "eff", .name 2 "eff")]
            (.lambda 2 none [] (.callOf 2 "eff" [.int 2 3]))]).2.NeverWrong code := by
  have hok : (((create {} 0).compile {} [.name 1 "unknown"]).2.compile {}
      [.declare 1 "eff" (.callOf 1 "new_effect" [.str 1 "e"]),
        .handled 2 [(.name 2 "eff", .name 2 "eff")]
          (.lambda 2 none [] (.callOf 2 "eff" [.int 2 3]))]).1.isOk = true := by
    decide +kernel
  cases hcompile : (((create {} 0).compile {} [.name 1 "unknown"]).2.compile {}
      [.declare 1 "eff" (.callOf 1 "new_effect" [.str 1 "e"]),
        .handled 2 [(.name 2 "eff", .name 2 "eff")]
          (.lambda 2 none [] (.callOf 2 "eff" [.int 2 3]))]).1 with
  | ok code =>
    exact ⟨code, rfl, neverWrong_of_compile ((Used.create {} 0).compile {} _) hcompile⟩
  | error errors =>
    rw [hcompile] at hok
    cases hok

end Engine

end Resumable
