import Resumable.Proofs.Compile.Verified
import Resumable.Proofs.Engine.Sound
import Resumable.Proofs.Machine.Positions

/-!
Engines in an embedding, which adds functions of its own, runs programs compiled from source, and
calls the values that it gets to see. All positions that the machine records on the way fit.
-/

namespace Resumable

/-- Code that a source text compiles to, with any options and any names. -/
def Code.FromSource (code : Code Value) : Prop :=
  ∃ (o : CompileOptions) (names : Names) (supply : Supply) (source : String),
    (Program.compileSource o names supply source).1 = .ok code

/-- The value that has been returned. -/
def Outcome.value? : Outcome → Option Value
  | returned v => some v
  | _ => none

namespace Engine

/-- Engines in an embedding that has seen the values `seen`. It defines functions and variables, makes
values and takes them apart, looks at variables, and runs programs compiled from source and calls
values that it has seen, with whatever outcome. -/
inductive Hosted : Engine → (seen : List Value) → Prop
  | create (limits : Limits) (clock : Nat) : Hosted (create limits clock) []
  | defineNative {e : Engine} {seen : List Value} (he : Hosted e seen) (entry : Library.Entry) :
    Hosted (e.defineNative entry) seen
  | define {e : Engine} {seen : List Value} {v : Value} (he : Hosted e seen) (name : String)
    (hv : v ∈ seen) : Hosted (e.define name v) seen
  | make {e : Engine} {seen : List Value} {v : Value} (he : Hosted e seen) (hdata : v.isData = true)
    (hparts : ∀ part ∈ v.parts, part ∈ seen) : Hosted e (v :: seen)
  | inspect {e : Engine} {seen : List Value} {v part : Value} (he : Hosted e seen) (hv : v ∈ seen)
    (hpart : part ∈ v.parts) : Hosted e (part :: seen)
  | look {e : Engine} {seen : List Value} {name : String} {v : Value} (he : Hosted e seen)
    (hget : e.get? name = some v) : Hosted e (v :: seen)
  | compileSource {e : Engine} {seen : List Value} (he : Hosted e seen) (o : CompileOptions)
    (source : String) : Hosted (e.compileSource o source).2 seen
  | interpret {e e' : Engine} {seen : List Value} {code : Code Value} {fuel : Nat}
    {outcome : Outcome} (he : Hosted e seen) (hcode : code.FromSource)
    (hrun : e.interpret fuel code = some (outcome, e')) : Hosted e' (outcome.value?.toList ++ seen)
  | call {e e' : Engine} {seen args : List Value} {callee : Value} {fuel : Nat} {outcome : Outcome}
    (he : Hosted e seen) (hcallee : callee ∈ seen) (hargs : ∀ v ∈ args, v ∈ seen)
    (hrun : e.call fuel callee args = some (outcome, e')) :
    Hosted e' (outcome.value?.toList ++ seen)

/-- A machine that an embedding starts: it runs a program compiled from source, or calls a value. -/
inductive Starts (e : Engine) (seen : List Value) : Machine → Prop
  | interpret {code : Code Value} (hcode : code.FromSource) : Starts e seen (e.started code)
  | call {callee : Value} {args : List Value} (hcallee : callee ∈ seen)
    (hargs : ∀ v ∈ args, v ∈ seen) : Starts e seen (.begin e.world e.thread callee args)

end Engine

theorem Code.FromSource.sound {code : Code Value} (hcode : code.FromSource) :
    code.Sound .clause ∧ code.captures = [] := by
  obtain ⟨o, names, supply, source, hcompile⟩ := hcode
  exact Program.sound_of_compileSource hcompile

/-- What an embedding sees after a run is sound. -/
theorem Outcome.sound_seen {κ : Kind} {outcome : Outcome} {seen : List Value}
    (houtcome : ∀ v, outcome = .returned v → v.Sound κ) (hseen : ∀ v ∈ seen, v.Sound κ) :
    ∀ v ∈ outcome.value?.toList ++ seen, v.Sound κ := by
  intro v hv
  obtain hv | hv := List.mem_append.1 hv
  · cases outcome with
    | returned w =>
      rw [show v = w by simpa [Outcome.value?] using hv]
      exact houtcome w rfl
    | failed => cases hv
    | crashed => cases hv
  · exact hseen v hv

theorem Except.exists_of_any {ε α : Type} {x : Except ε α} {f : α → Bool}
    (hany : x.toOption.any f = true) : ∃ a, x = .ok a ∧ f a = true := by
  cases x with
  | ok a => exact ⟨a, rfl, hany⟩
  | error => cases hany

namespace Engine

theorem fromSource_of_compileSource {e : Engine} {o : CompileOptions} {source : String}
    {code : Code Value} (hcompile : (e.compileSource o source).1 = .ok code) : code.FromSource :=
  ⟨o, e.names, e.world.supply, source, hcompile⟩

theorem Hosted.sound {e : Engine} {seen : List Value} (he : e.Hosted seen) :
    e.Sound .clause ∧ ∀ v ∈ seen, v.Sound .clause := by
  induction he with
  | create limits clock => exact ⟨create_sound limits clock, by simp⟩
  | defineNative _ entry ih =>
    exact ⟨ih.1.defineNative fun hκ => absurd rfl hκ, ih.2⟩
  | define _ name hv ih => exact ⟨ih.1.define name (ih.2 _ hv), ih.2⟩
  | make _ hdata hparts ih =>
    refine ⟨ih.1, List.forall_mem_cons.2 ⟨?_, ih.2⟩⟩
    exact Value.every_of_isData hdata fun part hpart => ih.2 part (hparts part hpart)
  | inspect _ hv hpart ih => exact ⟨ih.1, List.forall_mem_cons.2 ⟨(ih.2 _ hv).part hpart, ih.2⟩⟩
  | look _ hget ih =>
    refine ⟨ih.1, List.forall_mem_cons.2 ⟨?_, ih.2⟩⟩
    obtain ⟨s, _, hglobal⟩ := Option.bind_eq_some_iff.1 hget
    exact ih.1.world.globals s _ hglobal
  | compileSource _ o source ih => exact ⟨ih.1.compileSource o source, ih.2⟩
  | interpret _ hcode hrun ih =>
    obtain ⟨hsound, hcaptures⟩ := hcode.sound
    obtain ⟨_, _, houtcome, he'⟩ := ih.1.interpret hsound hcaptures hrun
    exact ⟨he', Outcome.sound_seen houtcome ih.2⟩
  | call _ hcallee hargs hrun ih =>
    obtain ⟨_, _, houtcome, he'⟩ := ih.1.call (ih.2 _ hcallee) (fun v hv => ih.2 v (hargs v hv))
      (fun hκ => absurd rfl hκ) hrun
    exact ⟨he', Outcome.sound_seen houtcome ih.2⟩

theorem Hosted.starts {e : Engine} {seen : List Value} {m : Machine} (he : e.Hosted seen)
    (hstarts : e.Starts seen m) : m.Sound .clause := by
  obtain ⟨hengine, hseen⟩ := he.sound
  cases hstarts with
  | interpret hcode =>
    obtain ⟨hsound, hcaptures⟩ := hcode.sound
    exact hengine.started hsound hcaptures
  | call hcallee hargs =>
    exact hengine.begin (hseen _ hcallee) (fun v hv => hseen v (hargs v hv)) fun hκ => absurd rfl hκ

/-- Between any two moves of any run in an embedding, the positions that the machine records fit. -/
theorem Hosted.positionsFit {e : Engine} {seen : List Value} {m m' : Machine} (he : e.Hosted seen)
    (hstarts : e.Starts seen m) (hreaches : m.Reaches m') : m'.PositionsFit :=
  ((he.starts hstarts).reaches hreaches).fits

/-- A program with a handler in force, on an engine with a function that calls back. -/
theorem positionsFit_handler_in_force :
    ∃ code, (((create {} 0).defineNative ⟨"cb", 2, .hook .callBack⟩).compileSource {}
        "handle 1 with \x7b\x7d").1 = .ok code ∧
      (((((create {} 0).defineNative ⟨"cb", 2, .hook .callBack⟩).compileSource {}
        "handle 1 with \x7b\x7d").2.started code).after 5).thread.handlers.size = 1 ∧
      (((((create {} 0).defineNative ⟨"cb", 2, .hook .callBack⟩).compileSource {}
        "handle 1 with \x7b\x7d").2.started code).after 5).PositionsFit := by
  have hhosted : Hosted ((create {} 0).defineNative ⟨"cb", 2, .hook .callBack⟩) [] :=
    (Hosted.create {} 0).defineNative _
  obtain ⟨code, hcompile, hsize⟩ := Except.exists_of_any
    (f := fun code => decide ((((((create {} 0).defineNative ⟨"cb", 2, .hook .callBack⟩).compileSource
      {} "handle 1 with \x7b\x7d").2.started code).after 5).thread.handlers.size = 1))
    (x := (((create {} 0).defineNative ⟨"cb", 2, .hook .callBack⟩).compileSource {}
      "handle 1 with \x7b\x7d").1) (by decide +kernel)
  refine ⟨code, hcompile, of_decide_eq_true hsize, ?_⟩
  exact Hosted.positionsFit (hhosted.compileSource {} _)
    (.interpret (fromSource_of_compileSource hcompile)) (Machine.Reaches.refl.after 5)

end Engine

end Resumable
