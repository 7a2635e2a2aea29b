import Resumable.Proofs.Compile.Resolution
import Resumable.Proofs.Engine.Hosted
import Resumable.Proofs.Engine.TailCall
import Resumable.Proofs.Machine.Tasks
import Resumable.Proofs.Meaning.Running

/-!
Programs mean what they are evaluated to: a compiled program comes to what its evaluation comes to,
whatever was run before on the same engine.
-/

namespace Resumable

/-- The words that a program can write are none of the names that lowering makes. -/
theorem Expr.Worded.named {e : Expr} (h : e.Worded fun x => ¬ Reserved x) :
    e.Named fun x => ¬ Reserved x := by
  refine h.mono fun e he => ?_
  cases e with
  | name line x | assign line x value => exact he.mentioned x (.head _)
  | declare line x value => exact he.introduced (x, line) (.head _)
  | lambda line name params body =>
    have hintroduced : ∀ x ∈ name.toList ++ params, ¬ Reserved x := fun x hx =>
      he.introduced (x, line) (List.mem_map_of_mem hx)
    exact ⟨fun x hx => hintroduced x (List.mem_append_left _ (Option.mem_toList.2 hx)),
      fun x hx => hintroduced x (List.mem_append_right _ hx)⟩
  | handle line body clauses =>
    have hintroduced : ∀ c ∈ clauses, ∀ x ∈ c.param :: c.resume.toList, ¬ Reserved x := fun c hc x hx =>
      he.introduced (x, c.line) (List.mem_flatMap.2 ⟨c, hc, List.mem_map_of_mem hx⟩)
    have hreserved : ∀ p : PathFunction, ∀ x ∈ groupNames p.number, ¬ ¬ Reserved x :=
      fun p x hx hnot => hnot (reserved_of_mem_groupNames hx)
    refine ⟨fun c hc => ⟨hintroduced c hc _ (.head _), fun x hx =>
      hintroduced c hc x (.tail _ (Option.mem_toList.2 hx))⟩, fun p => ?_⟩
    exact ⟨hreserved p _ (.head _), hreserved p _ (.tail _ (.head _)),
      hreserved p _ (.tail _ (.tail _ (.head _)))⟩
  | handled line pairs body => cases he.written
  | _ => trivial

/-- Compiling a source text compiles the program in it. -/
theorem Engine.compile_of_compileSource {e : Engine} {o : CompileOptions} {source : String}
    {program : Program} {code : Code Value} (hread : Program.ofSource source = .ok program)
    (hcompile : (e.compileSource o source).1 = .ok code) :
    (e.compile o program).1 = .ok code ∧ (e.compileSource o source).2 = (e.compile o program).2 := by
  unfold compileSource Program.compileSource at hcompile ⊢
  rw [hread] at hcompile ⊢
  refine ⟨?_, rfl⟩
  change ((e.compile o program).1).mapError SourceFailure.refused = .ok code at hcompile
  cases hresult : (e.compile o program).1 with
  | error errors =>
    rw [hresult] at hcompile
    cases hcompile
  | ok code' =>
    rw [hresult] at hcompile
    cases hcompile
    rfl

namespace Meaning

theorem Arrives.comesTo {next : Next} {p : Progress} {n : Nat} {outcome' : Outcome} {m' : Machine}
    (h : Arrives next p) (hrun : p.run n = some (outcome', m')) : next.ComesTo outcome' m'.world := by
  obtain ⟨q, hleads, hnext⟩ := h
  have hq := hleads.run hrun
  cases hnext with
  | more hm => exact hm.comesTo hq
  | ended houtcome hworld hfresh =>
    cases hq
    exact ⟨[], _, _, rfl, houtcome, hworld, hfresh⟩

theorem Arrives.goesOn {next : Next} {p : Progress} (h : Arrives next p)
    (hforever : ∀ n, p.run n = none) : next.GoesOn := by
  obtain ⟨q, hleads, hnext⟩ := h
  have hend : ∀ n, q.run n = none := by
    intro n
    refine Option.eq_none_iff_forall_ne_some.2 fun r hq => ?_
    obtain ⟨n', hback⟩ := hleads.run_back hq
    rw [hforever] at hback
    cases hback
  cases hnext with
  | more hm => exact hm.goesOn hend
  | ended => cases hend 0

variable {μ : Memory} {e : Engine} {G : Ground} {code : Code Value} {program lowered : Program}

/-- The activation of a program that has just been entered. -/
theorem program_runs (hlayout : LayoutProgram (fun _ => True) G.reading.options G.reading.names lowered code)
    (hlowered : LoweredAll program lowered) (hnamed : ∀ e ∈ program, e.Named G.written)
    (closure : Value) :
    Runs (Means μ) (.run program) { reading := G.reading, isProgram := true }
      (.enter closure code [] [] none) := by
  have hlocals : Holds (Means μ) G none code {} (Activation.enter closure code [] [] none).locals [] := by
    refine ⟨Nat.zero_le _, ?_, trivial, .nil, stocked_enter_of_unnamed hlayout.selfName .nil, nofun, nofun,
      nofun⟩
    rw [Activation.size_locals_enter]
    exact Nat.le_max_left _ _
  have hnone : ∀ s, ¬ code.Captures s := by
    rintro s ⟨c, hc, -⟩
    rw [hlayout.captures] at hc
    cases hc
  refine ⟨G, none, {}, ?_, ?_⟩
  · exact
      { reading := rfl
        covers := hlayout.functions
        locals := hlocals
        copied := ⟨fun s hs => absurd hs (hnone s), fun s _ => rfl, fun s w _ hs => absurd hs (hnone s)⟩
        effect := nofun
        operands := .nil
        handler := .none }
  · obtain ⟨Γ', n, line, hret, _, ⟨rfl, rfl, hat, rfl⟩ | ⟨last, _, _, hbody⟩⟩ := hlayout.body
    · cases hlowered
      exact .runNone hat (.ret rfl hret)
    · refine .run ⟨hnamed, lowered, hlowered, hbody⟩ (.ret ?_ hret)
      rw [(LayoutStatements.grows hbody).isGlobal_eq]
      rfl

/-- The run of a program starts where its evaluation starts. -/
theorem begin_arrives (hthread : e.thread.Rests) (hworld : μ.world.Related (meaning μ) e.world)
    (hfresh : μ.Fresh)
    (hlayout : LayoutProgram (fun _ => True) G.reading.options G.reading.names lowered code)
    (hlowered : LoweredAll program lowered) (hnamed : ∀ e ∈ program, e.Named G.written) :
    Arrives (begin μ e.thread.limits G.reading program) (.more (e.started code)) := by
  have hstart : Hosts { memory := μ, limits := e.thread.limits, control := .run program }
      { e.running .opening with world := e.world } .opening :=
    { world := hworld
      fresh := hfresh
      waiting := .nil
      limits := rfl
      sole := ⟨_, rfl, rfl, rfl, rfl⟩ }
  have hdrawn := hstart.withWorld hworld.draw.2 (draw_onward _)
  refine .of_leads (.move (.refl _)) ?_
  rw [Engine.advance_started hthread hlayout.params]
  refine hdrawn.enters .nil rfl ?_
  exact (hdrawn.goes (Or.inl rfl) .nil (program_runs hlayout hlowered hnamed _)).arrives

/-- A program is read with the names that it has been compiled with. -/
def Ground.ofNames {names : Names} {supply : Supply} (o : CompileOptions)
    (hnames : names.Coherent supply) (written : String → Prop) : Ground where
  reading := ⟨o, names⟩
  written := written
  distinct := by
    intro name name' s s' hname hname' hsame
    obtain rfl := hnames.symbol_ext hname hname' hsame
    exact ⟨hnames.distinct name name' s s hname hname' rfl, rfl⟩

/-- With other numbers that are still to be given. -/
def Memory.supplied (μ : Memory) (supply : Supply) : Memory :=
  μ.withWorld { μ.world with supply }

/-- The evaluation of a program with the names and under the limits of an engine that has compiled it. -/
def evaluation (μ : Memory) (e : Engine) (o : CompileOptions) (program : Program) : Next :=
  begin (μ.supplied e.world.supply) e.thread.limits ⟨o, e.names⟩ program

/-- An engine between two runs, in which all values mean something. -/
structure Portrays (μ : Memory) (e : Engine) : Prop where
  sound : e.Sound .value
  world : μ.world.Related (meaning μ) e.world
  fresh : μ.Fresh
  names : e.names.Coherent e.world.supply

/-- Running code on an engine does what an evaluation does: it comes to a value or to a failure to which
the evaluation comes as well, with the same in the shared state, or both go on forever. -/
structure Performs (e : Engine) (code : Code Value) (next : Next) : Prop where
  ends : ∀ fuel outcome' e', e.interpret fuel code = some (outcome', e') →
    ∃ fills outcome μ, next.after fills = .ended outcome μ ∧ OutcomeMeans μ outcome outcome' ∧
      Portrays μ e'
  goesOn : (∀ fuel, e.interpret fuel code = none) → next.GoesOn

/-- Data means itself if all that it holds does. -/
theorem means_of_isData {v : Value} (hdata : v.isData = true)
    (hparts : ∀ part ∈ v.parts, Means μ part part) : Means μ v v := by
  refine .fold ⟨?_, innerMeans_of_isData hdata⟩
  cases v with
  | list items => exact .list (List.forall₂_same.2 hparts)
  | tuple items => exact .tuple (List.forall₂_same.2 hparts)
  | record fields =>
    exact .record (List.forall₂_same.2 fun f hf => ⟨rfl, hparts _ (List.mem_map_of_mem hf)⟩)
  | effect e => exact .effect ⟨rfl, rfl⟩
  | _ => first | exact .flat rfl | cases hdata

namespace Portrays

/-- What is known of an engine does not depend on numbers that are still to be given. -/
theorem congr {e' : Engine} (h : Portrays { world := e.world } e)
    (hglobals : e'.world.globals = e.world.globals) (hcells : e'.world.cells = e.world.cells)
    (htasks : e'.world.tasks = e.world.tasks) (hthread : e'.thread = e.thread)
    (hnames : e'.names.Coherent e'.world.supply) : Portrays { world := e'.world } e' := by
  have hgrows : Memory.Grows { world := e.world } { world := e'.world } := ⟨nofun, nofun⟩
  refine ⟨h.sound.congr hglobals hcells htasks hthread, related_grow hgrows ?_, ⟨nofun, nofun⟩, hnames⟩
  refine ⟨?_, ?_, rfl, rfl, fun _ => ⟨?_, rfl, rfl, rfl⟩⟩
  · rw [hglobals]
    exact h.world.globals
  · rw [hcells]
    exact h.world.cells
  · rw [htasks]
    exact (h.world.rest rfl).results

theorem intern (h : Portrays { world := e.world } e) (name : String) :
    Portrays { world := (e.intern name).2.world } (e.intern name).2 :=
  h.congr rfl rfl rfl rfl ((Names.intern_spec _ _ name).coherent h.names)

theorem define (h : Portrays { world := e.world } e) (name : String) {v : Value}
    (hsound : v.Sound .value) (hmeans : ∀ μ, Means μ v v) :
    Portrays { world := (e.define name v).world } (e.define name v) := by
  have hinterned := h.intern name
  have hgrows : Memory.Grows { world := (e.intern name).2.world }
    { world := (e.define name v).world } := ⟨nofun, nofun⟩
  exact
    { sound := h.sound.define name hsound
      world := (related_grow hgrows hinterned.world).setGlobal _ (hmeans _)
      fresh := ⟨nofun, nofun⟩
      names := hinterned.names }

/-- In a new engine all values mean themselves. -/
theorem create (limits : Limits) (clock : Nat) :
    Portrays { world := (Engine.create limits clock).world } (Engine.create limits clock) := by
  have hinstalls : Engine.Installs (fun e => Portrays { world := e.world } e)
      (fun v => v.Sound .value ∧ ∀ μ, Means μ v v) :=
    { draw := fun e he => he.congr rfl rfl rfl rfl (he.names.mono (Nat.le_refl _))
      intern := fun e name he => he.intern name
      define := fun e name v he hv => he.define name hv.1 hv.2
      native := by
        intro id entry hentry
        have hfunction := Native.allowed_of_not_isHook (κ := .value) hentry
        exact ⟨.intro hfunction (by simp [Value.parts]),
          fun μ => .fold ⟨.native rfl, hfunction (by simp)⟩⟩
      simple := by
        intro v hv
        have hflat := Value.isFlat_of_isSimple hv
        have hshape : v.isData = true ∧ v.parts = [] := by
          cases v <;> first | exact ⟨rfl, rfl⟩ | cases hflat
        exact ⟨Value.every_of_isFlat hflat, fun μ => means_of_isData hshape.1 (by simp [hshape.2])⟩
      record := by
        intro fields hfields
        refine ⟨Value.every_record_iff.2 fun v hv => ?_, fun μ => means_of_isData rfl fun v hv => ?_⟩
        all_goals obtain ⟨f, hf, rfl⟩ := List.mem_map.1 hv
        · exact (hfields f hf).1
        · exact (hfields f hf).2 μ }
  refine hinstalls.create limits clock ⟨⟨⟨⟨?_, ?_, ?_⟩, ?_⟩, ⟨rfl, rfl⟩⟩, ?_, ⟨by simp, by simp⟩,
    Names.coherent_empty⟩
  · simp [Globals.get?]
  · simp
  · simp
  · simp [World.Keeps]
  · refine ⟨fun s => ?_, .nil, rfl, rfl, fun _ => ⟨.nil, rfl, rfl, rfl⟩⟩
    rw [show (World.globals { clock }).get? s = none from rfl]
    exact .none

/-- Compiling a program changes nothing but names. -/
theorem compile {o : CompileOptions} (h : Portrays μ e) (hcompile : (e.compile o program).1 = .ok code) :
    Portrays (μ.supplied (e.compile o program).2.world.supply) (e.compile o program).2 := by
  obtain ⟨lowered, hlower, -, hcoherent, hobjects, -⟩ := Program.lower_of_compile hcompile
  have hgrows := μ.grows_withWorld { μ.world with supply := (e.compile o program).2.world.supply }
  refine ⟨h.sound.compile o program, related_grow hgrows ?_, ?_, hcoherent h.names⟩
  · exact { h.world with supply := rfl, rest := fun _ => { h.world.rest rfl with symbols := rfl } }
  · have hle : μ.world.supply.objects ≤ (e.compile o program).2.world.supply.objects := by
      have hsame : μ.world.supply.objects = e.world.supply.objects := h.world.supply
      rw [hsame]
      exact hobjects
    exact ⟨fun id F hF => Nat.lt_of_lt_of_le (h.fresh.functions id F hF) hle,
      fun id part hpart => Nat.lt_of_lt_of_le (h.fresh.continuations id part hpart) hle⟩

/-- A program that is compiled and run does what it is evaluated to. -/
theorem performs {o : CompileOptions} {written : String → Prop} (h : Portrays μ e)
    (hcompile : (e.compile o program).1 = .ok code) (hnamed : ∀ x ∈ program, x.Named written) :
    Performs (e.compile o program).2 code (evaluation μ (e.compile o program).2 o program) := by
  obtain ⟨lowered, hlower, hlayout, hcoherent, -⟩ := Program.lower_of_compile hcompile
  obtain ⟨hsound, hcaptures⟩ := Program.sound_of_compile hcompile
  obtain ⟨e₁, he₁⟩ : ∃ e₁, e₁ = (e.compile o program).2 := ⟨_, rfl⟩
  have h₁ : Portrays (μ.supplied e₁.world.supply) e₁ := by
    rw [he₁]
    exact h.compile hcompile
  rw [← he₁]
  have hlayout₁ : LayoutProgram (fun _ => True) o e₁.names lowered code := by
    rw [he₁]
    exact hlayout
  have hbegins := begin_arrives (G := .ofNames o h₁.names written) h₁.sound.thread h₁.world h₁.fresh
    hlayout₁ (Program.loweredAll hlower) hnamed
  constructor
  · intro fuel outcome' e' hrun
    have hsound' := h₁.sound.interpret hsound hcaptures hrun
    obtain ⟨⟨_, m'⟩, hstarted, heq⟩ := Option.map_eq_some_iff.1 hrun
    cases heq
    obtain ⟨fills, outcome, μ', hafter, houtcome, hworld, hfresh⟩ := hbegins.comesTo hstarted
    refine ⟨fills, outcome, μ', hafter, houtcome, hsound'.2.2.2, hworld, hfresh, ?_⟩
    exact h₁.names.mono (Machine.steps_run hstarted).symbols
  · intro hforever
    refine hbegins.goesOn fun n => ?_
    exact Option.map_eq_none_iff.1 (hforever n)

/-- A source text that is compiled and run does what the program in it is evaluated to, with handlers
that choose among the clauses as they are written. -/
theorem source_performs {o : CompileOptions} {source : String} (h : Portrays μ e)
    (hread : Program.ofSource source = .ok program)
    (hcompile : (e.compileSource o source).1 = .ok code) :
    Performs (e.compileSource o source).2 code
      (evaluation μ (e.compileSource o source).2 o program) := by
  obtain ⟨hresult, hengine⟩ := Engine.compile_of_compileSource hread hcompile
  rw [hengine]
  exact h.performs hresult fun x hx => (Program.ofSource_worded hread x hx).named

/-- A handler with three clauses for an effect: the first one has a guard that fails, the second one has
no guard, and the guard of the last one holds. -/
def chooses : String :=
  "var A = new_effect(\"A\"); handle A(3) + 1 with \x7b A(x, k) if x < 0 => k(0), " ++
    "A(x, k) => k(100), A(x, k) if x == 3 => k(41) \x7d"

/-- Whether code comes to a number on an engine. -/
def comesTo (e : Engine) (fuel : Nat) (n : Int64) (code : Code Value) : Bool :=
  match e.interpret fuel code with
  | some (.returned (.int m), _) => m == n
  | _ => false

/-- The program comes to the body of the last clause. -/
theorem source_performs_chooses :
    ∃ e program code fills μ, e = ((Engine.create {} 0).compileSource {} chooses).2 ∧
      Program.ofSource chooses = .ok program ∧
      ((Engine.create {} 0).compileSource {} chooses).1 = .ok code ∧
      Performs e code (evaluation { world := (Engine.create {} 0).world } e {} program) ∧
      (evaluation { world := (Engine.create {} 0).world } e {} program).after fills =
        .ended (.returned (.int 42)) μ := by
  obtain ⟨program, hread, -⟩ := Except.exists_of_any (f := fun _ => true)
    (x := Program.ofSource chooses) (by decide +kernel)
  obtain ⟨code, hcompile, hcomes⟩ := Except.exists_of_any
    (f := comesTo ((Engine.create {} 0).compileSource {} chooses).2 60 42)
    (x := ((Engine.create {} 0).compileSource {} chooses).1) (by decide +kernel)
  have hperforms := source_performs (create {} 0) hread hcompile
  unfold comesTo at hcomes
  split at hcomes
  next m e' hrun =>
    obtain rfl := eq_of_beq hcomes
    obtain ⟨fills, outcome, μ, hafter, houtcome, -⟩ := hperforms.ends _ _ _ hrun
    refine ⟨_, program, code, fills, μ, rfl, hread, hcompile, hperforms, ?_⟩
    cases houtcome with
    | @returned v _ hv =>
      have hsame : v = .int 42 := by cases hv.unfold.alike; rfl
      rw [← hsame]
      exact hafter
  next => cases hcomes

end Portrays

end Meaning

end Resumable
