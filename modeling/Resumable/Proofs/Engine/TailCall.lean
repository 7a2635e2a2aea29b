import Resumable.Proofs.Engine.Hosted
import Resumable.Proofs.Engine.Safety
import Resumable.Proofs.Machine.TailRun

/-!
Tail calls are an optimisation: whatever a program does with plain calls in their place, if there is
room for its frames, it does with tail calls.
-/

namespace Resumable

/-- The same sound value. -/
def Value.Same (v v' : Value) : Prop :=
  v' = v ∧ v.Sound .value

section Same

variable {vs : List Value} {env : List (Symbol × Value)} {clauses : List (Effect × Value)}
  {a : Activation} {acts : List Activation}

theorem same_all (hvs : ∀ v ∈ vs, v.Sound .value) : List.Forall₂ Value.Same vs vs :=
  List.forall₂_same.2 fun v hv => ⟨rfl, hvs v hv⟩

theorem same_env (henv : ∀ v ∈ env.map Prod.snd, v.Sound .value) :
    Env.Related Value.Same env env :=
  List.forall₂_same.2 fun _ hb => ⟨rfl, rfl, henv _ (List.mem_map_of_mem hb)⟩

theorem same_clauses (hclauses : ∀ v ∈ clauses.map Prod.snd, v.Sound .value) :
    ClausesRelated Eq Value.Same clauses clauses :=
  List.forall₂_same.2 fun _ hc => ⟨⟨rfl, rfl⟩, rfl, hclauses _ (List.mem_map_of_mem hc)⟩

/-- A sound activation is spread over itself. -/
theorem Activation.Sound.spreads {awaited : List Kind} (ha : a.Sound .value awaited) :
    a.Spreads Value.Same [a] := by
  have hparts := ha.parts
  simp only [Activation.parts, List.mem_append] at hparts
  refine ⟨⟨[], a, rfl, List.forall_mem_nil _,
    Or.inl ⟨Or.inl rfl, same_env ?_, same_all ?_, rfl, same_all ?_⟩⟩, ?_⟩
  · exact fun v hv => hparts v (Or.inl (Or.inl (Or.inl hv)))
  · exact fun v hv => hparts v (Or.inl (Or.inl (Or.inr hv)))
  · exact fun v hv => hparts v (Or.inl (Or.inr hv))
  · refine List.forall₂_same.2 fun bound hbound => ⟨same_clauses fun v hv => hparts v (Or.inr ?_), rfl⟩
    simp only [boundsOf, List.flatMap_cons, List.flatMap_nil, List.append_nil] at hbound
    exact List.mem_flatMap.2 ⟨bound, hbound, hv⟩

theorem spread_self {awaited : List Kind} (hacts : ∀ a ∈ acts, a.Sound .value awaited) :
    Spread Value.Same acts acts := by
  induction acts with
  | nil => exact .nil
  | cons a acts ih =>
    exact Spread.append (.single (hacts a (.head _)).spreads) (ih fun a ha => hacts a (.tail _ ha))

end Same

namespace Value

/-- A sound value is the same as itself. -/
theorem Sound.untails {v : Value} (hv : v.Sound .value) : v.Untails v := by
  refine ⟨Same, ?_, rfl, hv⟩
  rintro _ v ⟨rfl, hv⟩
  have hparts : ∀ part ∈ v.parts, part.Sound .value := fun _ hpart => hv.part hpart
  cases v with
  | list items => exact ⟨.list (same_all hparts), trivial⟩
  | tuple items => exact ⟨.tuple (same_all hparts), trivial⟩
  | record fields => exact ⟨.record (same_env hparts), trivial⟩
  | closure id f env => exact ⟨.closure rfl rfl rfl, Or.inl rfl, same_env hparts⟩
  | native id name arity function => exact ⟨.native rfl, hv.shape nofun⟩
  | applied id callee bound =>
    exact ⟨.applied rfl ⟨rfl, hparts callee (.head _)⟩ (same_all fun v hv => hparts v (.tail _ hv)),
      trivial⟩
  | continuation id k =>
    obtain ⟨b, above, clauses, label, rfl, hb, hacts⟩ := hv.acts
    exact ⟨.continuation rfl, b, above, [b], above, [], rfl, by simp, by simp [hb],
      ⟨b, rfl, by simp [hb]⟩, (hacts b (.head _)).spreads,
      spread_self fun a ha => hacts a (.tail _ ha), .nil⟩
  | handler id clauses => exact ⟨.handler rfl rfl, same_clauses hparts⟩
  | code id f => exact ⟨.code rfl rfl, Or.inl rfl⟩
  | effect e => exact ⟨.effect ⟨rfl, rfl⟩, trivial⟩
  | _ => exact ⟨.flat rfl, trivial⟩

end Value

theorem World.Sound.related {w : World} (hw : w.Sound .value) : w.Related untailing w := by
  refine ⟨?_, ?_, rfl, rfl, fun _ => ⟨?_, rfl, rfl, rfl⟩⟩
  · intro s
    cases hget : w.globals.get? s with
    | some v => exact .some (Value.Sound.untails (hw.globals s v hget))
    | none => exact .none
  · exact List.forall₂_same.2 fun v hv => Value.Sound.untails (hw.cells v (Array.mem_toList_iff.1 hv))
  · refine List.forall₂_same.2 fun result hresult => ⟨rfl, ?_⟩
    obtain ⟨id, result⟩ := result
    cases result with
    | ok v => exact Value.Sound.untails (hw.results id v hresult)
    | error e => exact rfl

/-- Code that a program compiles to takes no arguments. -/
theorem Code.Compiled.params {code : Code Value} (hcode : code.Compiled) : code.params = [] := by
  obtain ⟨o, names, supply, program, hcompile⟩ := hcode
  obtain ⟨lowered, _, hlayout⟩ :=
    Program.compile_layoutProgram (P := Expr.ClausesAre .value) hcompile
  exact (hlayout fun e _ => e.clausesAre_value.every).params

namespace Engine

variable {e e' : Engine} {code : Code Value}

/-- A call that runs code on an engine, once it has come to a phase. -/
def running (e : Engine) (phase : Phase) : Machine :=
  { world := e.world.draw.2
    thread := { e.thread with levels := [⟨0, 0, 0, phase, 0, .finish⟩] } }

/-- The first activation of a program. -/
def entry (e : Engine) (code : Code Value) : Activation :=
  .enter (.closure e.world.draw.1 code []) code [] [] none

/-- The first move of a run enters the program. -/
theorem advance_started (he : e.thread.Rests) (hparams : code.params = []) :
    (e.started code).advance = .ofCall 0 (Exec.pushFrame (.closure e.world.draw.1 code []) code [] []
      false ((e.running .opening).showing [] [])) := by
  have hstarted : e.started code =
      (e.running (.made (.closure e.world.draw.1 code []) [])).showing [] [] := by
    rw [started, Machine.begin, he.levels, he.shows]
    rfl
  have hcall : Exec.call (.closure e.world.draw.1 code []) [] 0 false
      ((e.running .opening).showing [] []) =
        Exec.pushFrame (.closure e.world.draw.1 code []) code [] [] false
          ((e.running .opening).showing [] []) := by
    have harity : code.arity = 0 := by rw [Code.arity, hparams]; rfl
    rw [Exec.call, Exec.apply_closure, Exec.withArity, if_neg (by simp [harity]), if_neg (by simp)]
    rfl
  rw [hstarted, ← hcall]
  rfl

/-- A program that is run is entered, unless there is no room for a frame. -/
theorem started_leads (he : e.thread.Rests) (hparams : code.params = []) :
    ((e.thread.showing [] []).Full ∧ ∃ detail m, Progress.Leads (.more (e.started code))
        (.ended (.failed (.stackOverflow detail)) m)) ∨
      ¬ (e.thread.showing [] []).Full ∧ Progress.Leads (.more (e.started code))
        (.more ((e.running .running).showing [e.entry code] [])) := by
  have hadvance := advance_started he hparams
  obtain ⟨hfull, detail, herror⟩ | ⟨hroom, hok⟩ := Exec.pushFrame_showing (e.running .opening) []
    (.closure e.world.draw.1 code []) code [] []
  · obtain ⟨m, hstop⟩ : ∃ m, ((e.running .opening).showing [] []).stop 0
        (.error (.stackOverflow detail)) = .ended (.failed (.stackOverflow detail)) m := ⟨_, rfl⟩
    refine Or.inl ⟨hfull, detail, m, .move ?_⟩
    rw [hadvance, herror]
    exact hstop ▸ .refl _
  · refine Or.inr ⟨hroom, .move ?_⟩
    rw [hadvance, hok]
    exact .move (.refl _)

/-- Where a program terminates with plain calls in the place of its tail calls, starts no task and has
room for its frames, it terminates with tail calls as well: with the corresponding value or the same
failure, and with corresponding values of global variables and cells and the same output. -/
theorem Used.interpret_of_untailed {fuel : Nat} {outcome' : Outcome} (he : e.Used)
    (hcode : code.Compiled) (hrun : e.interpret fuel code.untailed = some (outcome', e'))
    (hfits : outcome'.Fits)
    (hquiet : ∀ m, (e.started code.untailed).Reaches m → m.waiting = []) :
    ∃ fuel outcome e₁, e.interpret fuel code = some (outcome, e₁) ∧ outcome.Untails outcome' ∧
      e₁.world.Related untailing e'.world := by
  have hsound := he.sound
  have hparams := hcode.params
  obtain ⟨o, names, supply, program, hcompile⟩ := hcode
  obtain ⟨hcode, hcaptures⟩ := Program.sound_of_compile hcompile
  obtain ⟨⟨_, m'⟩, hstarted, heq⟩ := Option.map_eq_some_iff.1 hrun
  cases heq
  have hrun' : (Progress.more (e.started code.untailed)).run fuel = some (outcome', m') := hstarted
  obtain ⟨_, detail, f, hleads'⟩ | ⟨hroom, hleads'⟩ :=
    started_leads hsound.thread ((code.params_untailed).trans hparams)
  · cases hleads'.run hrun'
    exact absurd rfl (hfits _ detail rfl)
  obtain ⟨hfull, _⟩ | ⟨_, hleads⟩ := started_leads hsound.thread hparams
  · exact absurd hfull hroom
  have hclosure : (Value.closure e.world.draw.1 code []).Untails
      (.closure e.world.draw.1 code.untailed []) :=
    .fold ⟨.closure rfl code.name_untailed code.params_untailed, Or.inr rfl, .nil⟩
  have habreast : Abreast [] (e.entry code) [] (e.entry code.untailed) :=
    ⟨⟨[], [], rfl, .nil, nofun, .nil⟩, mirrors_enter hclosure .nil⟩
  have hsingle : (e.running .running).Single := ⟨rfl, _, rfl, rfl, rfl, rfl⟩
  have hcoupled : (e.running .running).Coupled (e.running .running) :=
    ⟨(Exec.draw_sound hsound.world).related, rfl, rfl, rfl, hsingle, hsingle⟩
  have hentered : ((e.running .running).showing [e.entry code] []).Sound .value := by
    cases hleads.sound (.more (hsound.started hcode hcaptures)) with
    | more h => exact h
  obtain ⟨fuel', outcome, m, hmatched, houtcome, hworld⟩ :=
    ((hcoupled.matches_running habreast hentered fuel).right hleads').left hleads outcome' m' hrun'
      (fun m hm => hquiet m hm.reaches) hfits
  exact ⟨fuel', outcome, _, Option.map_eq_some_iff.2 ⟨_, hmatched, rfl⟩, houtcome, hworld⟩

/-- Whether code with plain calls in the place of its tail calls comes to a number and starts no task. -/
def comesToUntailed (e : Engine) (fuel : Nat) (n : Int64) (code : Code Value) : Bool :=
  (e.started code.untailed).throughout (fun m => m.waiting.isEmpty) fuel &&
    match e.interpret fuel code.untailed with
    | some (.returned (.int m), _) => m == n
    | _ => false

theorem interpret_of_comesToUntailed {fuel : Nat} {n : Int64} (h : e.comesToUntailed fuel n code = true) :
    (∃ e', e.interpret fuel code.untailed = some (.returned (.int n), e')) ∧
      ∀ m, (e.started code.untailed).Reaches m → m.waiting = [] := by
  obtain ⟨hquiet, hreturned⟩ := Bool.and_eq_true_iff.1 h
  refine ⟨?_, fun m hm => List.isEmpty_iff.1 (hm.of_throughout hquiet)⟩
  split at hreturned
  next m e' hrun => exact ⟨e', eq_of_beq hreturned ▸ hrun⟩
  next => cases hreturned

/-- A clause that resumes in tail position a body that raises the effect in tail position. -/
theorem interpret_of_untailed_resume :
    ∃ code, (((create {} 0).compile {} [.declare 1 "eff" (.callOf 1 "new_effect" [.str 1 "e"]),
        .handled 2 [(.name 2 "eff", .lambda 2 none ["p", "k"] (.callOf 2 "k" [.name 2 "p"]))]
          (.callOf 3 "eff" [.int 3 7])]).1 = .ok code) ∧
      ∃ fuel outcome e, ((create {} 0).compile {}
          [.declare 1 "eff" (.callOf 1 "new_effect" [.str 1 "e"]),
            .handled 2 [(.name 2 "eff", .lambda 2 none ["p", "k"] (.callOf 2 "k" [.name 2 "p"]))]
              (.callOf 3 "eff" [.int 3 7])]).2.interpret fuel code = some (outcome, e) ∧
        outcome.Untails (.returned (.int 7)) := by
  generalize hprogram : ([.declare 1 "eff" (.callOf 1 "new_effect" [.str 1 "e"]),
    .handled 2 [(.name 2 "eff", .lambda 2 none ["p", "k"] (.callOf 2 "k" [.name 2 "p"]))]
      (.callOf 3 "eff" [.int 3 7])] : Program) = program
  obtain ⟨code, hcompile, hcomes⟩ := Except.exists_of_any
    (f := ((create {} 0).compile {} program).2.comesToUntailed 40 7)
    (x := ((create {} 0).compile {} program).1) (by subst hprogram; decide +kernel)
  obtain ⟨⟨e', hrun⟩, hquiet⟩ := interpret_of_comesToUntailed hcomes
  obtain ⟨fuel, outcome, e₁, hrun₁, huntails, -⟩ :=
    Used.interpret_of_untailed ((Used.create {} 0).compile {} program) ⟨{}, _, _, program, hcompile⟩ hrun
      (fun _ _ h => Outcome.noConfusion h) hquiet
  exact ⟨code, hcompile, fuel, outcome, e₁, hrun₁, huntails⟩

end Engine

end Resumable
