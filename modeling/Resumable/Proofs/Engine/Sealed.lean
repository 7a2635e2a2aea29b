import Resumable.Proofs.Engine.Hosted
import Resumable.Proofs.Engine.Safety
import Resumable.Proofs.Machine.Sealed

/-!
No program gets hold of an internal value, whatever an embedding runs and calls. This needs one of two
things: the embedding has no functions of its own, or all programs are compiled from source. Otherwise
a function of the embedding may call a computation whose handler has a clause that returns at once;
then no frame of the call is left, and the machine goes on with those below.
-/

namespace Resumable

/-- Code that may be run: that of any program, or of a source text if clauses have to be functions of
two parameters. -/
def Code.Accepted (code : Code Value) : Kind → Prop
  | .clause => code.FromSource
  | _ => code.Compiled

theorem Code.Accepted.sound {κ : Kind} {code : Code Value} (hκ : κ = .value ∨ κ = .clause)
    (hcode : code.Accepted κ) : code.Sound κ ∧ code.captures = [] := by
  obtain rfl | rfl := hκ
  · obtain ⟨o, names, supply, program, hcompile⟩ := hcode
    exact Program.sound_of_compile hcompile
  · exact Code.FromSource.sound hcode

namespace Engine

/-- Engines in an embedding that has seen the values `seen` and uses no internal value. It defines
functions, if these are allowed, and variables, makes values and takes them apart, looks at variables,
makes forks, compiles programs, runs those that are accepted, and calls values that it has seen, with
whatever outcome. -/
inductive Guarded (κ : Kind) : Engine → (seen : List Value) → Prop
  | create (limits : Limits) (clock : Nat) : Guarded κ (create limits clock) []
  | defineNative {e : Engine} {seen : List Value} (he : Guarded κ e seen) {entry : Library.Entry}
    (hentry : entry.function.Allowed κ) : Guarded κ (e.defineNative entry) seen
  | define {e : Engine} {seen : List Value} {v : Value} (he : Guarded κ e seen) (name : String)
    (hv : v ∈ seen) : Guarded κ (e.define name v) seen
  | make {e : Engine} {seen : List Value} {v : Value} (he : Guarded κ e seen)
    (hdata : v.isData = true) (hordinary : v.isInternal = false)
    (hparts : ∀ part ∈ v.parts, part ∈ seen) : Guarded κ e (v :: seen)
  | inspect {e : Engine} {seen : List Value} {v part : Value} (he : Guarded κ e seen) (hv : v ∈ seen)
    (hpart : part ∈ v.parts) (hordinary : part.isInternal = false) : Guarded κ e (part :: seen)
  | look {e : Engine} {seen : List Value} {name : String} {v : Value} (he : Guarded κ e seen)
    (hget : e.get? name = some v) : Guarded κ e (v :: seen)
  | fork {e : Engine} {seen : List Value} (he : Guarded κ e seen) : Guarded κ e.fork seen
  | compile {e : Engine} {seen : List Value} (he : Guarded κ e seen) (o : CompileOptions)
    (program : Program) : Guarded κ (e.compile o program).2 seen
  | compileSource {e : Engine} {seen : List Value} (he : Guarded κ e seen) (o : CompileOptions)
    (source : String) : Guarded κ (e.compileSource o source).2 seen
  | interpret {e e' : Engine} {seen : List Value} {code : Code Value} {fuel : Nat}
    {outcome : Outcome} (he : Guarded κ e seen) (hcode : code.Accepted κ)
    (hrun : e.interpret fuel code = some (outcome, e')) :
    Guarded κ e' (outcome.value?.toList ++ seen)
  | call {e e' : Engine} {seen args : List Value} {callee : Value} {fuel : Nat} {outcome : Outcome}
    (he : Guarded κ e seen) (hcallee : callee ∈ seen) (hargs : ∀ v ∈ args, v ∈ seen)
    (hrun : e.call fuel callee args = some (outcome, e')) :
    Guarded κ e' (outcome.value?.toList ++ seen)

/-- A machine that such an embedding starts. -/
inductive Launches (κ : Kind) (e : Engine) (seen : List Value) : Machine → Prop
  | interpret {code : Code Value} (hcode : code.Accepted κ) : Launches κ e seen (e.started code)
  | call {callee : Value} {args : List Value} (hcallee : callee ∈ seen)
    (hargs : ∀ v ∈ args, v ∈ seen) : Launches κ e seen (.begin e.world e.thread callee args)

/-- An engine between two runs whose values are their own twins. -/
structure Hides (κ : Kind) (e : Engine) : Prop where
  world : e.world.Related (twinning κ true) e.world
  thread : e.thread.Rests

variable {κ : Kind} {e e' : Engine} {v : Value} {args seen : List Value}

theorem Hides.congr (he : e.Hides κ) (hglobals : e'.world.globals = e.world.globals)
    (hcells : e'.world.cells = e.world.cells) (htasks : e'.world.tasks = e.world.tasks)
    (hthread : e'.thread = e.thread) : e'.Hides κ := by
  refine ⟨⟨?_, ?_, rfl, rfl, fun _ => ⟨?_, rfl, rfl, rfl⟩⟩, hthread ▸ he.thread⟩
  · rw [hglobals]
    exact he.world.globals
  · rw [hcells]
    exact he.world.cells
  · rw [htasks]
    exact (he.world.rest rfl).results

theorem Hides.define (he : e.Hides κ) (name : String) (hv : v.Twins κ true v) :
    (e.define name v).Hides κ := by
  have hinterned : (e.intern name).2.Hides κ := he.congr rfl rfl rfl rfl
  exact ⟨hinterned.world.setGlobal _ hv, hinterned.thread⟩

/-- Data that holds nothing but values that are their own twins is one as well. -/
theorem twins_of_isData (hdata : v.isData = true) (hordinary : v.isInternal = false)
    (hparts : ∀ part ∈ v.parts, part.Twins κ true part) : v.Twins κ true v := by
  refine .fold ⟨?_, Value.innerTwins_of_isData hdata, fun _ => hordinary⟩
  cases v with
  | list items => exact .list (List.forall₂_same.2 hparts)
  | tuple items => exact .tuple (List.forall₂_same.2 hparts)
  | record fields =>
    exact .record (List.forall₂_same.2 fun f hf => ⟨rfl, hparts _ (List.mem_map_of_mem hf)⟩)
  | effect e => exact .effect ⟨rfl, rfl⟩
  | _ => first | exact .flat rfl | cases hdata

theorem twins_native {id arity : Nat} {name : String} {function : Native}
    (hfunction : function.Allowed κ) :
    (Value.native id name arity function).Twins κ true (.native id name arity function) :=
  .fold ⟨.native rfl, hfunction, fun _ => rfl⟩

theorem create_hides (limits : Limits) (clock : Nat) : (create limits clock).Hides κ := by
  have hinstalls : Installs (Hides κ) (fun v => v.Twins κ true v) :=
    { draw := fun e he => he.congr rfl rfl rfl rfl
      intern := fun e name he => he.congr rfl rfl rfl rfl
      define := fun e name v he hv => he.define name hv
      native := fun id entry hentry => twins_native (Native.allowed_of_not_isHook hentry)
      simple := by
        intro v hv
        rw [Value.isSimple, Bool.and_eq_true, Bool.not_eq_true'] at hv
        have hshape : v.isData = true ∧ v.parts = [] := by
          cases v <;> first | exact ⟨rfl, rfl⟩ | cases hv.1
        exact twins_of_isData hshape.1 hv.2 (by simp [hshape.2])
      record := by
        intro fields hfields
        refine twins_of_isData rfl rfl fun part hpart => ?_
        obtain ⟨f, hf, rfl⟩ := List.mem_map.1 hpart
        exact hfields f hf }
  refine hinstalls.create limits clock ⟨⟨fun s => ?_, .nil, rfl, rfl, fun _ => ⟨.nil, rfl, rfl, rfl⟩⟩,
    ⟨rfl, rfl⟩⟩
  rw [show (World.globals { clock }).get? s = none from rfl]
  exact .none

/-- A program is its own twin. -/
theorem twins_program {code : Code Value} (hcode : code.Sound κ) (hcaptures : code.captures = [])
    (id : Nat) : (Value.closure id code []).Twins κ true (.closure id code []) :=
  Value.twins_closure rfl hcode (by simp [Code.SuppliedBy, hcaptures]) .nil

/-- A call on an engine runs together with itself. -/
theorem Hides.begin (he : e.Hides κ) (hv : v.Twins κ true v) (hargs : ∀ u ∈ args, u.Twins κ true u) :
    Machine.Together κ true .task [] [] (.begin e.world e.thread v args)
      (.begin e.world e.thread v args) := by
  have hthread : (Machine.begin e.world e.thread v args).thread =
      { e.thread with levels := [⟨0, 0, 0, .made v args, 0, .finish⟩] }.showing [] [] := by
    have hrests := he.thread
    rw [Machine.begin, hrests.levels, hrests.shows]
    rfl
  refine ⟨he.world, .task, .nil, ?_⟩
  rw [hthread]
  have hunder : Under κ true .task ⟨0, 0, 0, .made v args, 0, .finish⟩ ⟨0, 0, 0, .made v args, 0, .finish⟩
      [] [] [] [] := .first ⟨rfl, rfl⟩ ⟨rfl, rfl, rfl⟩ ⟨rfl, rfl, rfl⟩
  exact Thread.runTogether_made rfl rfl hunder rfl rfl hv (List.forall₂_same.2 hargs) rfl rfl

end Engine

namespace Machine

variable {κ : Kind} {m m' : Machine} {outcome : Outcome}

/-- What the next move of a machine comes to that runs together with itself. -/
inductive SealedNext (κ : Kind) : Progress → Prop
  | more {m : Machine} (hm : Together κ true .task [] [] m m) : SealedNext κ (.more m)
  | ended {outcome : Outcome} {m : Machine}
    (houtcome : ∀ v, outcome = .returned v → v.Twins κ true v)
    (hworld : m.world.Related (twinning κ true) m.world) (hthread : m.thread.Rests) :
    SealedNext κ (.ended outcome m)

theorem ProceedTogether.sealedNext {p p' : Progress} (hp : ProceedTogether κ true .task [] [] p p')
    (hsame : p = p') : SealedNext κ p := by
  cases hp with
  | on hon =>
    cases hsame
    exact .more hon
  | @returns x x' level level' result result' hreturns =>
    rw [deliver_finish hreturns.first.1, deliver_finish hreturns.first.2] at hsame
    rw [deliver_finish hreturns.first.1]
    have hrests : x.thread.Rests := ⟨hreturns.levels, hreturns.shows⟩
    simp only [finish, hreturns.waiting, hreturns.waiting'] at hsame ⊢
    obtain ⟨v, v', rfl, rfl, hv⟩ | ⟨error, rfl, rfl⟩ := hreturns.result.inv
    · cases hsame
      refine .ended ?_ hreturns.world hrests
      rintro _ ⟨⟩
      exact hv
    · cases hsame
      exact .ended (fun _ h => Outcome.noConfusion h) hreturns.world hrests

theorem Together.sealedNext (hκ : κ = .value ∨ κ = .clause) (hm : Together κ true .task [] [] m m) :
    SealedNext κ m.advance := by
  have hproceed := (hm.advance hκ fun _ => ⟨rfl, rfl⟩).resolve_right fun hparted => hparted.1 rfl rfl
  exact hproceed.sealedNext rfl

theorem Together.reaches (hκ : κ = .value ∨ κ = .clause) (hm : Together κ true .task [] [] m m)
    (hreaches : m.Reaches m') : Together κ true .task [] [] m' m' := by
  induction hreaches with
  | refl => exact hm
  | next _ hmove ih =>
    have hnext := ih.sealedNext hκ
    rw [hmove] at hnext
    cases hnext with
    | more hm => exact hm

theorem Together.run {fuel : Nat} (hκ : κ = .value ∨ κ = .clause)
    (hm : Together κ true .task [] [] m m) (hrun : m.run fuel = some (outcome, m')) :
    (∀ v, outcome = .returned v → v.Twins κ true v) ∧ m'.world.Related (twinning κ true) m'.world ∧
      m'.thread.Rests := by
  induction fuel generalizing m with
  | zero => cases hrun
  | succ fuel ih =>
    rw [run] at hrun
    cases hmove : m.advance with
    | more m₁ =>
      have hnext := hm.sealedNext hκ
      rw [hmove] at hnext hrun
      cases hnext with
      | more hm₁ => exact ih hm₁ hrun
    | ended outcome₁ m₁ =>
      have hnext := hm.sealedNext hκ
      rw [hmove] at hnext hrun
      cases hrun
      cases hnext with
      | ended houtcome hworld hthread => exact ⟨houtcome, hworld, hthread⟩

end Machine

namespace Engine

variable {κ : Kind} {e e' : Engine} {seen args : List Value} {callee : Value} {fuel : Nat}
  {outcome : Outcome}

theorem Hides.call (hκ : κ = .value ∨ κ = .clause) (he : e.Hides κ) (hcallee : callee.Twins κ true callee)
    (hargs : ∀ v ∈ args, v.Twins κ true v) (hseen : ∀ v ∈ seen, v.Twins κ true v)
    (hrun : e.call fuel callee args = some (outcome, e')) :
    e'.Hides κ ∧ ∀ v ∈ outcome.value?.toList ++ seen, v.Twins κ true v := by
  rw [Engine.call, Option.map_eq_some_iff] at hrun
  obtain ⟨⟨outcome', m⟩, hrun, hresult⟩ := hrun
  cases hresult
  obtain ⟨houtcome, hworld, hrests⟩ := (he.begin hcallee hargs).run hκ hrun
  refine ⟨⟨hworld, hrests⟩, fun v hv => ?_⟩
  obtain hv | hv := List.mem_append.1 hv
  · cases outcome with
    | returned w =>
      rw [show v = w by simpa [Outcome.value?] using hv]
      exact houtcome w rfl
    | failed => cases hv
    | crashed => cases hv
  · exact hseen v hv

theorem Guarded.hides (hκ : κ = .value ∨ κ = .clause) (he : e.Guarded κ seen) :
    e.Hides κ ∧ ∀ v ∈ seen, v.Twins κ true v := by
  induction he with
  | create limits clock => exact ⟨create_hides limits clock, by simp⟩
  | @defineNative e _ _ entry hentry ih =>
    have hmade : (e.makeNative entry).2.Hides κ := ih.1.congr rfl rfl rfl rfl
    exact ⟨hmade.define entry.name (twins_native hentry), ih.2⟩
  | define _ name hv ih => exact ⟨ih.1.define name (ih.2 _ hv), ih.2⟩
  | make _ hdata hordinary hparts ih =>
    refine ⟨ih.1, List.forall_mem_cons.2 ⟨?_, ih.2⟩⟩
    exact twins_of_isData hdata hordinary fun part hpart => ih.2 part (hparts part hpart)
  | inspect _ hv hpart hordinary ih =>
    refine ⟨ih.1, List.forall_mem_cons.2 ⟨?_, ih.2⟩⟩
    obtain ⟨_, htwins⟩ := (ih.2 _ hv).twin_of_shown (Value.mem_shown_of_mem_parts hpart hordinary)
    exact Value.Twins.self htwins
  | look _ hget ih =>
    refine ⟨ih.1, List.forall_mem_cons.2 ⟨?_, ih.2⟩⟩
    obtain ⟨s, _, hglobal⟩ := Option.bind_eq_some_iff.1 hget
    obtain ⟨_, htwins⟩ := ih.1.world.twin_of_holds (Or.inl ⟨s, hglobal⟩)
    exact Value.Twins.self htwins
  | fork _ ih => exact ⟨⟨ih.1.world, rfl, rfl⟩, ih.2⟩
  | compile _ o program ih => exact ⟨ih.1.congr rfl rfl rfl rfl, ih.2⟩
  | compileSource _ o source ih => exact ⟨ih.1.congr rfl rfl rfl rfl, ih.2⟩
  | @interpret e _ _ code _ _ _ hcode hrun ih =>
    obtain ⟨hsound, hcaptures⟩ := hcode.sound hκ
    have hdrawn : Hides κ { e with world := e.world.draw.2 } := ih.1.congr rfl rfl rfl rfl
    exact hdrawn.call hκ (twins_program hsound hcaptures _) (by simp) ih.2 hrun
  | call _ hcallee hargs hrun ih =>
    exact ih.1.call hκ (ih.2 _ hcallee) (fun v hv => ih.2 v (hargs v hv)) ih.2 hrun

theorem Guarded.launches {m : Machine} (hκ : κ = .value ∨ κ = .clause) (he : e.Guarded κ seen)
    (hlaunches : e.Launches κ seen m) : Machine.Together κ true .task [] [] m m := by
  obtain ⟨hengine, hseen⟩ := he.hides hκ
  cases hlaunches with
  | interpret hcode =>
    obtain ⟨hsound, hcaptures⟩ := hcode.sound hκ
    have hdrawn : Hides κ { e with world := e.world.draw.2 } := hengine.congr rfl rfl rfl rfl
    exact hdrawn.begin (twins_program hsound hcaptures _) (by simp)
  | call hcallee hargs => exact hengine.begin (hseen _ hcallee) fun v hv => hseen v (hargs v hv)

/-- No internal value gets to a program, in any run in an embedding that uses none: not in a value that
the machine holds, not in one that is called or is the argument of a call, and not in one that is
returned. -/
theorem Guarded.keeps_internal_values {m m' : Machine} (hκ : κ = .value ∨ κ = .clause) (he : e.Guarded κ seen)
    (hlaunches : e.Launches κ seen m) (hreaches : m.Reaches m') :
    m'.Sealed κ ∧
      (∀ s callee args, m'.Makes s callee args → callee.Open κ ∧ ∀ v ∈ args, v.Open κ) ∧
      ∀ v x, m'.advance = .ended (.returned v) x → v.Open κ := by
  have htogether := (he.launches hκ hlaunches).reaches hκ hreaches
  have hbare : Footing.Bare .task := ⟨rfl, rfl⟩
  refine ⟨htogether.sealed hbare, ?_, ?_⟩
  · intro s callee args hmakes
    obtain ⟨G, htasks, hrun⟩ := htogether.threads
    have hlow := htasks.low_eq_nil fun _ => ⟨rfl, rfl⟩
    obtain ⟨_, _, _, callee', args', hmade⟩ := hmakes.together hlow htogether.world hrun
    refine ⟨hmade.callee.open, fun v hv => ?_⟩
    obtain ⟨v', _, htwins⟩ := exists_of_mem_left hmade.args hv
    exact htwins.open
  · intro v x hmove
    have hnext := htogether.sealedNext hκ
    rw [hmove] at hnext
    cases hnext with
    | ended houtcome => exact (houtcome v rfl).open

theorem compiled_of_compile {o : CompileOptions} {program : Program} {code : Code Value}
    (hcompile : (e.compile o program).1 = .ok code) : code.Compiled :=
  ⟨o, e.names, e.world.supply, program, hcompile⟩

/-- A program that raises an effect where a field of a record is due. The clause for it is a function of
the machine, which returns at once. -/
def fieldOfRecord : Program :=
  [.declare 1 "e" (.callOf 1 "new_effect" [.str 1 "e"]),
    .handled 2 [(.name 2 "e", .name 2 "neg")] (.record 2 [("x", .callOf 2 "e" [.int 2 3])])]

/-- Whether a label, the name of a field, a payload and an effect are on the stack. -/
def raisesInRecord (m : Machine) : Bool :=
  match m.thread.stack.toList with
  | [.label _, .symbol _, .int _, .effect _] => true
  | _ => false

/-- An effect is raised while a label and the name of a field are on the stack. -/
theorem sealed_where_effect_is_raised :
    ∃ m : Machine, raisesInRecord m = true ∧ m.Sealed .value ∧
      (∀ s callee args, m.Makes s callee args → callee.Open .value ∧ ∀ v ∈ args, v.Open .value) ∧
      ∀ v x, m.advance = .ended (.returned v) x → v.Open .value := by
  obtain ⟨code, hcompile, hraises⟩ := Except.exists_of_any
    (f := fun code => raisesInRecord
      ((((create {} 0).compile {} fieldOfRecord).2.started code).after 16))
    (x := ((create {} 0).compile {} fieldOfRecord).1) (by decide +kernel)
  have hguarded : Guarded .value ((create {} 0).compile {} fieldOfRecord).2 [] :=
    (Guarded.create {} 0).compile {} fieldOfRecord
  have hcode : code.Accepted .value := compiled_of_compile hcompile
  exact ⟨_, hraises, Guarded.keeps_internal_values (Or.inl rfl) hguarded (.interpret hcode)
    (Machine.Reaches.refl.after 16)⟩

end Engine

end Resumable
