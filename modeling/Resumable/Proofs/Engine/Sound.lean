import Resumable.Engine
import Resumable.Proofs.Machine.Progress

/-!
Engines stay sound: the library is, compiling changes nothing but names, and running ends with all
values sound and the thread at rest, whatever the outcome.
-/

namespace Resumable

/-- An engine between two runs. -/
structure Engine.Sound (κ : Kind) (e : Engine) : Prop where
  world : e.world.Sound κ
  thread : e.thread.Rests

/-- A function of the machine that may be around: those of an embedding only if clauses are functions
of two parameters. -/
def Native.Allowed (κ : Kind) (f : Native) : Prop :=
  κ ≠ .clause → ∀ h, f ≠ .hook h

namespace Native

/-- Whether a function belongs to an embedding. -/
def isHook : Native → Bool
  | hook _ => true
  | _ => false

theorem allowed_of_not_isHook {κ : Kind} {f : Native} (hf : f.isHook = false) : f.Allowed κ := by
  rintro - h rfl
  cases hf

end Native

namespace Library

/-- Whether a member of a module is data or a function that belongs to no embedding. -/
def Member.isPlain : Member → Bool
  | .function entry => !entry.function.isHook
  | .constant _ value => value.isSimple

theorem entries_not_isHook : ∀ entry ∈ entries, entry.function.isHook = false := by
  have hall : (entries.all fun entry => !entry.function.isHook) = true := rfl
  simpa using hall

theorem modules_isPlain : ∀ module ∈ modules, ∀ member ∈ module.2, member.isPlain = true := by
  have hall : (modules.all fun module => module.2.all Member.isPlain) = true := rfl
  simpa using hall

end Library

namespace Engine

/-- What is needed of a property of engines, and of a property of values, to hold of a new engine and
of the values in its library. -/
structure Installs (P : Engine → Prop) (V : Value → Prop) : Prop where
  draw : ∀ e, P e → P { e with world := e.world.draw.2 }
  intern : ∀ e name, P e → P (e.intern name).2
  define : ∀ e name v, P e → V v → P (e.define name v)
  native : ∀ id (entry : Library.Entry), entry.function.isHook = false →
    V (.native id entry.name entry.arity entry.function)
  simple : ∀ v, v.isSimple = true → V v
  record : ∀ fields, (∀ f ∈ fields, V f.2) → V (.record fields)

namespace Installs

variable {P : Engine → Prop} {V : Value → Prop} {e : Engine}

theorem makeNative (h : Installs P V) (he : P e) {entry : Library.Entry}
    (hentry : entry.function.isHook = false) : V (e.makeNative entry).1 ∧ P (e.makeNative entry).2 :=
  ⟨h.native _ entry hentry, h.draw e he⟩

theorem internFields (h : Installs P V) (he : P e) {done : List (Symbol × Value)}
    {members : List (String × Value)} (hdone : ∀ f ∈ done, V f.2)
    (hmembers : ∀ f ∈ members, V f.2) :
    (∀ f ∈ (e.internFields done members).1, V f.2) ∧ P (e.internFields done members).2 := by
  induction members generalizing e done with
  | nil => exact ⟨fun f hf => hdone f (List.mem_reverse.1 hf), he⟩
  | cons member members ih =>
    obtain ⟨name, value⟩ := member
    refine ih (h.intern e name he) ?_ fun f hf => hmembers f (.tail _ hf)
    intro f hf
    obtain rfl | hf := List.mem_cons.1 hf
    · exact hmembers (name, value) (.head _)
    · exact hdone f hf

theorem makeMembers (h : Installs P V) (he : P e) {done : List (String × Value)}
    {members : List Library.Member} (hdone : ∀ f ∈ done, V f.2)
    (hmembers : ∀ member ∈ members, member.isPlain = true) :
    (∀ f ∈ (e.makeMembers done members).1, V f.2) ∧ P (e.makeMembers done members).2 := by
  induction members generalizing e done with
  | nil => exact ⟨fun f hf => hdone f (List.mem_reverse.1 hf), he⟩
  | cons member members ih =>
    have hmember := hmembers member (.head _)
    have hrest : ∀ member ∈ members, member.isPlain = true := fun _ h => hmembers _ (.tail _ h)
    cases member with
    | constant name value =>
      refine ih he ?_ hrest
      intro f hf
      obtain rfl | hf := List.mem_cons.1 hf
      · exact h.simple value hmember
      · exact hdone f hf
    | function entry =>
      obtain ⟨hvalue, he'⟩ := h.makeNative he (by simpa [Library.Member.isPlain] using hmember)
      refine ih he' ?_ hrest
      intro f hf
      obtain rfl | hf := List.mem_cons.1 hf
      · exact hvalue
      · exact hdone f hf

theorem installModule (h : Installs P V) (he : P e) {module : String × List Library.Member}
    (hmembers : ∀ member ∈ module.2, member.isPlain = true) : P (e.installModule module) := by
  have hnone : ∀ f ∈ ([] : List (String × Value)), V f.2 := by simp
  have hnone' : ∀ f ∈ ([] : List (Symbol × Value)), V f.2 := by simp
  obtain ⟨hvalues, he'⟩ := h.makeMembers he hnone hmembers
  obtain ⟨hfields, he''⟩ := h.internFields he' hnone' hvalues
  exact h.define _ _ _ he'' (h.record _ hfields)

theorem defineNatives (h : Installs P V) (he : P e) {entries : List Library.Entry}
    (hentries : ∀ entry ∈ entries, entry.function.isHook = false) :
    P (entries.foldl Engine.defineNative e) := by
  induction entries generalizing e with
  | nil => exact he
  | cons entry entries ih =>
    obtain ⟨hvalue, he'⟩ := h.makeNative he (hentries entry (.head _))
    exact ih (h.define _ _ _ he' hvalue) fun _ h => hentries _ (.tail _ h)

theorem installModules (h : Installs P V) (he : P e) {modules : List (String × List Library.Member)}
    (hmembers : ∀ module ∈ modules, ∀ member ∈ module.2, member.isPlain = true) :
    P (modules.foldl Engine.installModule e) := by
  induction modules generalizing e with
  | nil => exact he
  | cons module modules ih =>
    exact ih (h.installModule he (hmembers module (.head _))) fun _ h => hmembers _ (.tail _ h)

/-- A property that the operations keep holds of a new engine if it holds of one without library. -/
theorem create (h : Installs P V) (limits : Limits) (clock : Nat)
    (hempty : P { world := { clock }, thread := { limits } }) : P (create limits clock) :=
  h.installModules (h.defineNatives hempty Library.entries_not_isHook) Library.modules_isPlain

end Installs

/-- A definition changes one global variable. -/
theorem every_define {d : Discipline} {e : Engine} {v : Value} (he : e.world.Every d)
    (name : String) (hv : v.Every d) : (e.define name v).world.Every d := by
  have hinterned : (e.intern name).2.world.Every d := he.congr rfl rfl rfl
  exact hinterned.setGlobal (e.intern name).1 hv

variable {κ : Kind} {e e' : Engine}

theorem Sound.congr (he : e.Sound κ) (hglobals : e'.world.globals = e.world.globals)
    (hcells : e'.world.cells = e.world.cells) (htasks : e'.world.tasks = e.world.tasks)
    (hthread : e'.thread = e.thread) : e'.Sound κ := by
  refine ⟨⟨he.world.toEvery.congr hglobals hcells (by rw [htasks]), ?_⟩, hthread ▸ he.thread⟩
  unfold World.Keeps
  rw [htasks]
  exact he.world.failures

theorem Sound.define {v : Value} (he : e.Sound κ) (name : String) (hv : v.Sound κ) :
    (e.define name v).Sound κ :=
  ⟨⟨every_define he.world.toEvery name hv, he.world.failures⟩, he.thread⟩

theorem Sound.defineNative (he : e.Sound κ) {entry : Library.Entry}
    (hentry : entry.function.Allowed κ) : (e.defineNative entry).Sound κ := by
  have he' : (e.makeNative entry).2.Sound κ := he.congr rfl rfl rfl rfl
  exact he'.define entry.name (.intro hentry (by simp [Value.parts]))

/-- A new engine is sound. -/
theorem create_sound (limits : Limits) (clock : Nat) : (create limits clock).Sound κ := by
  have hinstalls : Installs (Sound κ) (Value.Sound κ) :=
    { draw := fun e he => he.congr rfl rfl rfl rfl
      intern := fun e name he => he.congr rfl rfl rfl rfl
      define := fun e name v he hv => he.define name hv
      native := fun id entry hentry =>
        .intro (Native.allowed_of_not_isHook hentry) (by simp [Value.parts])
      simple := fun v hv => Value.every_of_isFlat (Value.isFlat_of_isSimple hv)
      record := by
        intro fields hfields
        refine Value.every_record_iff.2 fun v hv => ?_
        obtain ⟨f, hf, rfl⟩ := List.mem_map.1 hv
        exact hfields f hf }
  refine hinstalls.create limits clock ⟨⟨⟨?_, ?_, ?_⟩, ?_⟩, ⟨rfl, rfl⟩⟩
  · simp [Globals.get?]
  · simp
  · simp
  · simp [World.Keeps]

theorem Sound.compile (he : e.Sound κ) (o : CompileOptions) (program : Program) :
    (e.compile o program).2.Sound κ :=
  he.congr rfl rfl rfl rfl

theorem Sound.compileSource (he : e.Sound κ) (o : CompileOptions) (source : String) :
    (e.compileSource o source).2.Sound κ :=
  he.congr rfl rfl rfl rfl

/-- A call on a sound engine starts a sound machine. -/
theorem Sound.begin {callee : Value} {args : List Value} (he : e.Sound κ) (hcallee : callee.Sound κ)
    (hargs : ∀ v ∈ args, v.Sound κ) (hfew : κ ≠ .clause → args = []) :
    (Machine.begin e.world e.thread callee args).Sound κ := by
  refine ⟨he.world, ?_, by simp [Machine.begin]⟩
  obtain ⟨level, hlevel⟩ : ∃ level : Level, level = Level.mk 0 0 0 (.made callee args) 0 .finish :=
    ⟨_, rfl⟩
  have hthread : (Machine.begin e.world e.thread callee args).thread =
      { e.thread with levels := [level] }.showing ([] ++ []) [] := by
    have hrests := he.thread
    rw [Machine.begin, hrests.levels, hrests.shows, hlevel]
    rfl
  rw [hthread]
  refine Thread.runs_showing [] [] [] rfl .nil ?_ ?_ ?_
  · rw [hlevel]
    exact ⟨rfl, rfl, rfl⟩
  · simp [hlevel]
  · rw [hlevel]
    exact .made hcallee hargs hfew

/-- A call on a sound engine comes to a sound outcome and leaves the engine sound. -/
theorem Sound.call {callee : Value} {args : List Value} {fuel : Nat} {outcome : Outcome}
    (he : e.Sound κ) (hcallee : callee.Sound κ) (hargs : ∀ v ∈ args, v.Sound κ)
    (hfew : κ ≠ .clause → args = []) (hrun : e.call fuel callee args = some (outcome, e')) :
    outcome ≠ .crashed ∧ (∀ error, outcome = .failed error → error.Admissible) ∧
      (∀ v, outcome = .returned v → v.Sound κ) ∧ e'.Sound κ := by
  rw [Engine.call, Option.map_eq_some_iff] at hrun
  obtain ⟨⟨outcome', m⟩, hrun, hresult⟩ := hrun
  cases hresult
  cases (he.begin hcallee hargs hfew).run hrun with
  | returned hv hworld hthread => exact ⟨nofun, nofun, by rintro _ ⟨⟩; exact hv, hworld, hthread⟩
  | failed herror hworld hthread =>
    exact ⟨nofun, by rintro _ ⟨⟩; exact herror, nofun, hworld, hthread⟩

/-- The machine that runs code on an engine. -/
def started (e : Engine) (code : Code Value) : Machine :=
  .begin e.world.draw.2 e.thread (.closure e.world.draw.1 code []) []

/-- A function without captured names is sound if its code is. -/
theorem sound_program {code : Code Value} (hcode : code.Sound κ) (hcaptures : code.captures = [])
    (id : Nat) : (Value.closure id code []).Sound κ :=
  .intro ⟨hcode, by simp [Code.SuppliedBy, hcaptures]⟩ (by simp [Value.parts])

theorem Sound.started {code : Code Value} (he : e.Sound κ) (hcode : code.Sound κ)
    (hcaptures : code.captures = []) : (e.started code).Sound κ := by
  have he' : Sound κ { e with world := e.world.draw.2 } := he.congr rfl rfl rfl rfl
  exact he'.begin (sound_program hcode hcaptures _) (by simp) fun _ => rfl

theorem Sound.interpret {code : Code Value} {fuel : Nat} {outcome : Outcome} (he : e.Sound κ)
    (hcode : code.Sound κ) (hcaptures : code.captures = [])
    (hrun : e.interpret fuel code = some (outcome, e')) :
    outcome ≠ .crashed ∧ (∀ error, outcome = .failed error → error.Admissible) ∧
      (∀ v, outcome = .returned v → v.Sound κ) ∧ e'.Sound κ := by
  have he' : Sound κ { e with world := e.world.draw.2 } := he.congr rfl rfl rfl rfl
  exact he'.call (sound_program hcode hcaptures _) (by simp) (fun _ => rfl) hrun

end Engine

end Resumable
