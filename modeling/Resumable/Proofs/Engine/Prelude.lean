import Resumable.Proofs.Engine.Depth
import Resumable.Proofs.Library.Traversal
import Resumable.Proofs.Meaning.Programs

/-!
Engines on which the prelude has run. Its functions compute what they are named for, wherever they are
called, as long as the global variables of the library and of the prelude are left alone.
-/

namespace Resumable

open Meaning Library

namespace Engine

variable {e e' : Engine} {x name : String} {v u : Value}

theorem get?_eq_some : e.get? x = some v ↔
    ∃ s, e.names.find? x = some s ∧ e.world.globals.get? s = some v :=
  Option.bind_eq_some_iff

/-- What becomes of an engine that keeps its global variables, except one that is defined anew, and whose
names have symbols of their own. -/
structure Extends (e e' : Engine) (changed : List String) : Prop where
  names : e.names.Coherent e.world.supply → e'.names.Coherent e'.world.supply
  keeps : e.names.Coherent e.world.supply →
    ∀ x v, x ∉ changed → e.get? x = some v → e'.get? x = some v

namespace Extends

variable {e'' : Engine} {changed changed' : List String}

theorem refl (e : Engine) : e.Extends e [] :=
  ⟨id, fun _ _ _ _ h => h⟩

theorem trans (h : e.Extends e' changed) (h' : e'.Extends e'' changed') :
    e.Extends e'' (changed ++ changed') := by
  refine ⟨fun he => h'.names (h.names he), fun he x v hx hv => ?_⟩
  rw [List.mem_append, not_or] at hx
  exact h'.keeps (h.names he) x v hx.2 (h.keeps he x v hx.1 hv)

/-- Drawing numbers changes neither names nor global variables. -/
theorem draw (e : Engine) : e.Extends { e with world := e.world.draw.2 } [] :=
  ⟨fun he => he.mono (Nat.le_refl _), fun _ _ _ _ h => h⟩

theorem intern (e : Engine) (name : String) : e.Extends (e.intern name).2 [] := by
  have hspec := Names.intern_spec e.names e.world.supply name
  refine ⟨hspec.coherent, fun _ x v _ hv => ?_⟩
  obtain ⟨s, hs, hget⟩ := get?_eq_some.1 hv
  exact get?_eq_some.2 ⟨s, hspec.keeps x s hs, hget⟩

theorem define (e : Engine) (name : String) (v : Value) : e.Extends (e.define name v) [name] := by
  have hspec := Names.intern_spec e.names e.world.supply name
  refine ⟨hspec.coherent, fun he x u hx hu => ?_⟩
  obtain ⟨s, hs, hget⟩ := get?_eq_some.1 hu
  refine get?_eq_some.2 ⟨s, hspec.keeps x s hs, ?_⟩
  refine (Globals.get?_set _ _ _ _).trans ((if_neg fun hsame => hx ?_).trans hget)
  rw [List.mem_singleton]
  exact (hspec.coherent he).distinct x name s _ (hspec.keeps x s hs) hspec.find_eq
    (Symbol.beq_iff.1 hsame).symm

theorem internFields (members : List (String × Value)) (e : Engine) (done : List (Symbol × Value)) :
    e.Extends (e.internFields done members).2 [] := by
  induction members generalizing e done with
  | nil => exact refl e
  | cons member members ih => exact (intern e member.1).trans (ih _ _)

theorem makeMembers (members : List Library.Member) (e : Engine) (done : List (String × Value)) :
    e.Extends (e.makeMembers done members).2 [] := by
  induction members generalizing e done with
  | nil => exact refl e
  | cons member members ih =>
    cases member with
    | constant name value => exact ih _ _
    | function entry => exact (draw e).trans (ih _ _)

theorem installModule (e : Engine) (module : String × List Library.Member) :
    e.Extends (e.installModule module) [module.1] :=
  ((makeMembers module.2 e []).trans (internFields _ _ [])).trans (define _ module.1 _)

theorem installModules (modules : List (String × List Library.Member)) (e : Engine) :
    e.Extends (modules.foldl Engine.installModule e) (modules.map Prod.fst) := by
  induction modules generalizing e with
  | nil => exact refl e
  | cons module modules ih => exact (installModule e module).trans (ih _)

theorem defineNative (e : Engine) (entry : Entry) : e.Extends (e.defineNative entry) [entry.name] :=
  (draw e).trans (define _ entry.name _)

theorem defineNatives (entries : List Entry) (e : Engine) :
    e.Extends (entries.foldl Engine.defineNative e) (entries.map Entry.name) := by
  induction entries generalizing e with
  | nil => exact refl e
  | cons entry entries ih => exact (defineNative e entry).trans (ih _)

end Extends

theorem get?_define_self (e : Engine) (name : String) (v : Value) :
    (e.define name v).get? name = some v := by
  have hspec := Names.intern_spec e.names e.world.supply name
  refine get?_eq_some.2 ⟨_, hspec.find_eq, ?_⟩
  exact (Globals.get?_set _ _ _ _).trans (if_pos (Symbol.beq_iff.2 rfl))

/-- A global variable has a function of the library. -/
def HasEntry (e : Engine) (entry : Entry) : Prop :=
  ∃ id, e.get? entry.name = some (.native id entry.name entry.arity entry.function)

theorem hasEntry_defineNatives {entries : List Entry} (he : e.names.Coherent e.world.supply)
    (hdistinct : (entries.map Entry.name).Nodup) :
    ∀ entry ∈ entries, (entries.foldl defineNative e).HasEntry entry := by
  induction entries generalizing e with
  | nil => nofun
  | cons first entries ih =>
    rw [List.map_cons, List.nodup_cons] at hdistinct
    have hfirst : (e.defineNative first).names.Coherent (e.defineNative first).world.supply :=
      (Extends.defineNative e first).names he
    refine List.forall_mem_cons.2 ⟨⟨e.world.draw.1, ?_⟩, ih hfirst hdistinct.2⟩
    refine (Extends.defineNatives entries (e.defineNative first)).keeps hfirst _ _ hdistinct.1 ?_
    exact get?_define_self _ first.name _

theorem hasEntry_install {entries : List Entry} {modules : List (String × List Library.Member)}
    (he : e.names.Coherent e.world.supply) (hdistinct : (entries.map Entry.name).Nodup)
    (hother : ∀ entry ∈ entries, entry.name ∉ modules.map Prod.fst) :
    (modules.foldl installModule (entries.foldl defineNative e)).names.Coherent
        (modules.foldl installModule (entries.foldl defineNative e)).world.supply ∧
      ∀ entry ∈ entries, (modules.foldl installModule (entries.foldl defineNative e)).HasEntry entry := by
  have hentries := (Extends.defineNatives entries e).names he
  have hmodules := Extends.installModules modules (entries.foldl defineNative e)
  refine ⟨hmodules.names hentries, fun entry hentry => ?_⟩
  obtain ⟨id, hget⟩ := hasEntry_defineNatives he hdistinct entry hentry
  exact ⟨id, hmodules.keeps hentries _ _ (hother entry hentry) hget⟩

/-- A new engine has the functions of the library. -/
theorem hasEntry_create (limits : Limits) (clock : Nat) :
    (create limits clock).names.Coherent (create limits clock).world.supply ∧
      ∀ entry ∈ entries, (create limits clock).HasEntry entry := by
  unfold create installLibrary
  exact hasEntry_install Names.coherent_empty (by decide) (by decide)

section Program

variable {G : Ground} {P : Expr → Prop} {program : Program} {code : Code Value}

/-- Where the statements of a program are evaluated. -/
def programSite (e : Engine) (hlayout : LayoutProgram P G.reading.options G.reading.names program code) :
    Site where
  machine := e.running .running
  below := []
  depth := 1
  running := ⟨_, _, rfl, rfl⟩
  base := Nat.le_refl 0
  room := Nat.le_refl 1
  ground := G
  scope := {}
  act := e.entry code
  vars := []
  sees :=
    { bound := by
        rintro s ⟨c, hc, _⟩
        rw [show (e.entry code).code = code from rfl, hlayout.captures] at hc
        cases hc
      size := by
        rw [show (e.entry code).code = code from rfl, entry, Activation.size_locals_enter]
        exact Nat.le_max_left _ _
      visible := nofun
      hidden := fun _ _ _ _ => rfl }

/-- A program comes to what its statements come to, unless there is no room for a frame. -/
theorem leads_of_endsAll {post : Value → World → Prop}
    (hlayout : LayoutProgram P G.reading.options G.reading.names program code) (he : e.thread.Rests)
    (hroom : ¬ (e.thread.showing [] []).Full) (hne : program ≠ [])
    (hends : (e.programSite hlayout).EndsAll program e.world.draw.2 post) :
    ∃ v m, post v m.world ∧ Progress.Leads (.more (e.started code)) (.ended (.returned v) m) := by
  obtain ⟨hfull, _⟩ | ⟨_, hleads⟩ := started_leads he hlayout.params
  · exact absurd hfull hroom
  obtain ⟨Γ, n, line, hret, _, hbody⟩ := hlayout.body
  obtain ⟨hnil, _⟩ | ⟨last, _, _, hstatements⟩ := hbody
  · exact absurd hnil hne
  obtain ⟨v, w', hpost, b, label, _, hreturns, hwithin⟩ :=
    hends 0 Γ n hstatements (.ret hret) (e.running .running).thread.lastLabel
  have hsingle : ((e.running .running).later w' label).Single := ⟨rfl, _, rfl, rfl, rfl, rfl⟩
  refine ⟨v, _, hpost, hleads.trans (hwithin.leads.trans (hsingle.leads_of_idle hreturns v))⟩

end Program

/-- Functions that a program declares are defined when it has run, and other global variables keep their
values. -/
theorem defined_of_interpret {e₀ : Engine} {fuel : Nat} {code : Code Value} {ds : List Definition}
    {program : Program} (hprogram : program = ds.map Definition.expr) (hne : ds ≠ [])
    (hdistinct : (ds.map Definition.name).Nodup) (hlower : program.lower = .ok program)
    (hnames : e₀.names.Coherent e₀.world.supply) (hrests : e₀.thread.Rests)
    (hcompile : (e₀.compile {} program).1 = .ok code)
    (hrun : (e₀.compile {} program).2.interpret fuel code = some (.returned v, e)) :
    ∃ G : Ground, G.reading.names = e.names ∧ (∀ d ∈ ds, Defined G e.world d) ∧
      ∀ x u, x ∉ ds.map Definition.name → e₀.get? x = some u → e.get? x = some u := by
  obtain ⟨lowered, hlower', hlayout, hcoherent, -, hkept⟩ := Program.lower_of_compile hcompile
  obtain rfl : program = lowered := Except.ok.inj (hlower.symm.trans hlower')
  obtain ⟨e₁, he₁⟩ : ∃ e₁, e₁ = (e₀.compile {} program).2 := ⟨_, rfl⟩
  have hnames₁ : e₁.names.Coherent e₁.world.supply := by
    rw [he₁]
    exact hcoherent hnames
  have hlayout₁ : LayoutProgram (fun _ => True) {} e₁.names program code := by
    rw [he₁]
    exact hlayout
  have hrests₁ : e₁.thread.Rests := by
    rw [he₁]
    exact hrests
  have hkept₁ : ∀ x s, e₀.names.find? x = some s → e₁.names.find? x = some s := by
    rw [he₁]
    exact hkept
  have hglobals : e₁.world.globals = e₀.world.globals := by
    rw [he₁]
    rfl
  rw [← he₁] at hrun
  obtain ⟨⟨_, m⟩, hstarted, heq⟩ := Option.map_eq_some_iff.1 hrun
  cases heq
  have hstarted' : (Progress.more (e₁.started code)).run fuel = some (.returned v, m) := hstarted
  have hroom : ¬ (e₁.thread.showing [] []).Full := by
    intro hfull
    obtain ⟨_, detail, m', hleads⟩ | ⟨hroom, _⟩ := started_leads hrests₁ hlayout₁.params
    · cases hleads.run hstarted'
    · exact hroom hfull
  subst hprogram
  obtain ⟨u, m', ⟨hdefined, hkeeps⟩, hleads⟩ := leads_of_endsAll
    (G := .ofNames {} hnames₁ fun _ => True) hlayout₁ hrests₁ hroom (by simpa using hne)
    (endsAll_definitions rfl rfl hne hdistinct e₁.world.draw.2)
  cases hleads.run hstarted'
  refine ⟨_, rfl, hdefined, fun x u hx hu => ?_⟩
  obtain ⟨s, hs, hvalue⟩ := get?_eq_some.1 hu
  refine get?_eq_some.2 ⟨s, hkept₁ x s hs, ?_⟩
  rw [hkeeps x s (hkept₁ x s hs) hx, ← hvalue, ← hglobals]
  rfl

theorem compile_eq_ok {e₀ : Engine} {o : CompileOptions} {source : String} {code : Code Value}
    (h : Session.compile o source e₀ = .ok code e) :
    (e₀.compileSource o source).1 = .ok code ∧ (e₀.compileSource o source).2 = e := by
  unfold Session.compile at h
  split at h
  next heq =>
    cases h
    rw [heq]
    exact ⟨rfl, rfl⟩
  next => cases h

theorem interpret_eq_ok {e₀ : Engine} {fuel : Nat} {code : Code Value}
    (h : Session.interpret fuel code e₀ = .ok v e) :
    e₀.interpret fuel code = some (.returned v, e) := by
  unfold Session.interpret Session.settle at h
  split at h <;> cases h
  assumption

/-- A program that compiles does so from its source text. -/
theorem compile_of_ofSource {e₀ e₁ : Engine} {o : CompileOptions} {source : String} {program : Program}
    {code : Code Value} (hread : Program.ofSource source = .ok program)
    (hcompile : e₀.compile o program = (.ok code, e₁)) : Session.compile o source e₀ = .ok code e₁ := by
  have hsource : e₀.compileSource o source =
      (((e₀.compile o program).1).mapError SourceFailure.refused, (e₀.compile o program).2) := by
    unfold compileSource Program.compileSource
    rw [hread]
    rfl
  unfold Session.compile
  rw [hsource, hcompile]
  rfl

/-- What loading the prelude leaves: the functions of the library and those of the prelude. -/
theorem stocked_of_loadPrelude {fuel : Nat} {limits : Limits} {clock : Nat}
    (hload : Session.loadPrelude fuel (create limits clock) = .ok () e) :
    ∃ G : Ground, G.reading.names = e.names ∧ Stocked G e.world := by
  obtain ⟨hnames, hentries⟩ := hasEntry_create limits clock
  have hthread := create_thread limits clock
  generalize create limits clock = e₀ at *
  have hrests : e₀.thread.Rests := by
    rw [hthread]
    exact ⟨rfl, rfl⟩
  unfold Session.loadPrelude at hload
  obtain ⟨code, e₁, hcompile, hload⟩ := bind_eq_ok.1 hload
  obtain ⟨v, e₂, hrun, hload⟩ := bind_eq_ok.1 hload
  cases hload
  obtain ⟨hresult, rfl⟩ := compile_eq_ok hcompile
  obtain ⟨hresult', hengine⟩ := compile_of_compileSource ofSource_prelude hresult
  rw [hengine] at hrun
  have hprogram : Prelude.program = Prelude.definitions.map Definition.expr := rfl
  have hdistinct : (Prelude.definitions.map Definition.name).Nodup := by decide
  obtain ⟨G, hG, hdefined, hkeeps⟩ := defined_of_interpret hprogram nofun hdistinct Prelude.lower_program
    hnames hrests hresult' (interpret_eq_ok hrun)
  have hother : ∀ entry ∈ entries, entry.name ∉ Prelude.definitions.map Definition.name := by decide
  refine ⟨G, hG, fun entry hentry => ?_, hdefined⟩
  obtain ⟨id, hget⟩ := hentries entry hentry
  obtain ⟨s, hs, hvalue⟩ := get?_eq_some.1 (hkeeps _ _ (hother entry hentry) hget)
  refine ⟨id, fun t ht => ?_⟩
  rw [hG] at ht
  obtain rfl := Option.some.inj (hs.symm.trans ht)
  exact hvalue

/-! The functions of the prelude, wherever they are called. -/

/-- The global variables that the library and the prelude define. -/
def defaultNames : List String :=
  entries.map Entry.name ++ Prelude.definitions.map Definition.name

/-- The global variables of the library and of the prelude have the values that they have on the
engine. -/
def Unmodified (e : Engine) (w : World) : Prop :=
  ∀ x ∈ defaultNames, ∀ s, e.names.find? x = some s → w.globals.get? s = e.world.globals.get? s

/-- A call returns normally wherever there are up to `n` more frames, and it leaves the global variables
of the library and of the prelude alone. -/
def Returns (e : Engine) (P : Spot) (n : Nat) (callee : Value) (args : List Value) (w : World)
    (v : Value) (w' : World) : Prop :=
  P.Replies n callee args w v w' ∧ e.Unmodified w'

/-- The functions of the prelude compute what they are named for. They call their functions once for
each item, from left to right, and the limit that they keep to does not depend on the list. A list that
fits into a memory has fewer than `2 ^ 63` items. -/
structure Traverses (e : Engine) : Prop where
  fold : ∃ callee, e.get? "fold" = some callee ∧ ∀ {P : Spot} {f a xs w v w'}, P.Roomy →
    xs.length < 2 ^ 63 → e.Unmodified w → Folds (e.Returns P 1 f) a xs w v w' →
      P.Answers callee [f, a, .list xs] w v w'
  map : ∃ callee, e.get? "map" = some callee ∧ ∀ {P : Spot} {f xs w ys w'}, P.Roomy →
    xs.length < 2 ^ 63 → e.Unmodified w → Maps (e.Returns P 2 f) xs w.draw.2 ys w' →
      P.Answers callee [f, .list xs] w (.list ys) w'
  filter : ∃ callee, e.get? "filter" = some callee ∧ ∀ {P : Spot} {f xs w ys w'}, P.Roomy →
    xs.length < 2 ^ 63 → e.Unmodified w → Filters (e.Returns P 2 f) xs w.draw.2 ys w' →
      P.Answers callee [f, .list xs] w (.list ys) w'
  reverse : ∃ callee, e.get? "reverse" = some callee ∧ ∀ {P : Spot} {xs w}, P.Roomy →
    xs.length < 2 ^ 63 → e.Unmodified w →
      P.Answers callee [.list xs] w (.list xs.reverse) w.draw.2
  sum : ∃ callee, e.get? "sum" = some callee ∧ ∀ {P : Spot} {ns : List Int64} {w}, P.Roomy →
    ns.length < 2 ^ 63 → e.Unmodified w →
      P.Answers callee [.list (ns.map .int)] w (.int (Int64.ofInt (ns.map Int64.toInt).sum)) w.draw.2
  apply : ∃ callee, e.get? "apply" = some callee ∧ ∀ {P : Spot} {f xs w v w'}, P.Roomy →
    xs.length < 2 ^ 63 → e.Unmodified w → f.arity? = some xs.length → 1 ≤ xs.length →
      e.Returns P 1 f xs (w.drawn (xs.length - 1)) v w' → P.Answers callee [f, .list xs] w v w'

section Traversal

variable {G : Ground} {P : Spot} {w : World}

theorem Unmodified.stocked (hw : e.Unmodified w) (hG : G.reading.names = e.names)
    (hstocked : Stocked G e.world) : Stocked G w := by
  have hsame : ∀ x ∈ defaultNames, ∀ s, G.reading.names.find? x = some s →
      w.globals.get? s = e.world.globals.get? s := by
    intro x hx s hs
    rw [hG] at hs
    exact hw x hx s hs
  constructor
  · intro entry hentry
    obtain ⟨id, hprovides⟩ := hstocked.natives entry hentry
    refine ⟨id, fun s hs => ?_⟩
    rw [hsame _ (List.mem_append_left _ (List.mem_map_of_mem hentry)) s hs]
    exact hprovides s hs
  · intro d hd
    refine (hstocked.functions d hd).congr fun s hs => ?_
    exact hsame _ (List.mem_append_right _ (List.mem_map_of_mem hd)) s hs

/-- A function of the prelude is the value of its name. -/
theorem get?_of_definition (hG : G.reading.names = e.names) (hstocked : Stocked G e.world)
    (d : Definition) (hd : d ∈ Prelude.definitions) :
    ∃ id f env, e.get? d.name = some (.closure id f env) ∧
      Lexical.Encloses G {} [] (some d.name) d.params d.body f env := by
  obtain ⟨hknown, id, f, env, hcode, hprovides⟩ := hstocked.functions d hd
  obtain ⟨s, hs⟩ := Option.isSome_iff_exists.1 hknown
  exact ⟨id, f, env, get?_eq_some.2 ⟨s, hG ▸ hs, hprovides s hs⟩, hcode⟩

/-- Once the prelude has run, its functions compute what they are named for. -/
theorem traverses_of_loadPrelude {fuel : Nat} {limits : Limits} {clock : Nat}
    (hload : Session.loadPrelude fuel (create limits clock) = .ok () e) : e.Traverses := by
  obtain ⟨G, hG, hstocked⟩ := stocked_of_loadPrelude hload
  have hserves : ∀ {P : Spot} {n f args w v w'}, e.Returns P n f args w v w' → P.Serves G n f args w v w' :=
    fun h => ⟨h.1, h.2.stocked hG hstocked⟩
  refine ⟨?fold, ?map, ?filter, ?reverse, ?sum, ?apply⟩
  case fold =>
    obtain ⟨id, code, env, hget, hcode⟩ := get?_of_definition hG hstocked Prelude.fold
      (by simp [Prelude.definitions])
    refine ⟨_, hget, fun hroomy hlength hw hfolds => ?_⟩
    exact Spot.answers_of_computes hroomy hcode.params_length.symm fun bound =>
      Spot.computes_fold hcode hserves hfolds (hw.stocked hG hstocked) hlength
  case map =>
    obtain ⟨id, code, env, hget, hcode⟩ := get?_of_definition hG hstocked Prelude.map
      (by simp [Prelude.definitions])
    refine ⟨_, hget, fun hroomy hlength hw hmaps => ?_⟩
    exact Spot.answers_of_computes hroomy hcode.params_length.symm fun bound =>
      Spot.computes_map hroomy hcode hserves hmaps (hw.stocked hG hstocked) hlength
  case filter =>
    obtain ⟨id, code, env, hget, hcode⟩ := get?_of_definition hG hstocked Prelude.filter
      (by simp [Prelude.definitions])
    refine ⟨_, hget, fun hroomy hlength hw hfilters => ?_⟩
    exact Spot.answers_of_computes hroomy hcode.params_length.symm fun bound =>
      Spot.computes_filter hroomy hcode hserves hfilters (hw.stocked hG hstocked) hlength
  case reverse =>
    obtain ⟨id, code, env, hget, hcode⟩ := get?_of_definition hG hstocked Prelude.reverse
      (by simp [Prelude.definitions])
    refine ⟨_, hget, fun hroomy hlength hw => ?_⟩
    exact Spot.answers_of_computes hroomy hcode.params_length.symm fun bound =>
      Spot.computes_reverse hroomy hcode (hw.stocked hG hstocked) hlength
  case sum =>
    obtain ⟨id, code, env, hget, hcode⟩ := get?_of_definition hG hstocked Prelude.sum
      (by simp [Prelude.definitions])
    refine ⟨_, hget, fun hroomy hlength hw => ?_⟩
    exact Spot.answers_of_computes hroomy hcode.params_length.symm fun bound =>
      Spot.computes_sum hroomy hcode (hw.stocked hG hstocked) hlength
  case apply =>
    obtain ⟨id, code, env, hget, hcode⟩ := get?_of_definition hG hstocked Prelude.apply
      (by simp [Prelude.definitions])
    refine ⟨_, hget, fun hroomy hlength hw harity hne hcall => ?_⟩
    obtain ⟨u, given, htakes⟩ := Value.exists_takes harity hne
    exact Spot.answers_of_computes hroomy hcode.params_length.symm fun bound =>
      Spot.computes_apply hcode hroomy (hw.stocked hG hstocked) htakes (List.length_pos_iff.1 hne) hlength
        (hserves hcall)

/-- A function of the library is called from anywhere. -/
theorem returns_native {e : Engine} {P : Spot} {n id arity : Nat} {name : String} {function : Native}
    {args : List Value} {v : Value} {w' : World} (hdepth : P.below.length + n ≤ P.depth)
    (hlength : args.length = arity) (hinvoke : function.invoke name args w = .ok (.value v) w')
    (hw' : e.Unmodified w') : e.Returns P n (.native id name arity function) args w v w' := by
  refine ⟨fun acts _ hcount _ => (Machine.replies_native hlength hinvoke).calls ?_, hw'⟩
  rw [List.length_append]
  omega

/-- A function that a program has made is called where the frames and the values have room for it. -/
theorem returns_closure {e : Engine} {P : Spot} {n id : Nat} {code : Code Value} {env : Env Value}
    {args : List Value} {w w' : World} {v : Value} (hdepth : P.below.length + n + 1 ≤ P.depth)
    (hframes : P.below.length + n < P.machine.thread.limits.maxDepth)
    (hvalues : heightOf P.below + (n + 1) < P.machine.thread.limits.maxStack)
    (hlength : args.length = code.arity)
    (hcomputes : ∀ Q : Spot, Q.Computes none id code env args w v w') (hw' : e.Unmodified w') :
    e.Returns P n (.closure id code env) args w v w' := by
  refine ⟨fun acts hne hcount hheight => ?_, hw'⟩
  have hsome := List.length_pos_iff.2 hne
  have hbase := P.base
  let Q : Spot := { P with
    below := P.below ++ acts
    base := by rw [List.length_append]; omega
    room := by rw [List.length_append]; omega }
  refine Spot.Computes.calls (P := Q) (hcomputes Q) hlength ?_ ?_ ?_
  · change Exec.baseOf P.machine.thread.levels < (P.below ++ acts).length
    rw [List.length_append]
    omega
  · change (P.below ++ acts).length < P.machine.thread.limits.maxDepth
    rw [List.length_append]
    omega
  · change heightOf (P.below ++ acts) < _
    rw [heightOf_append]
    exact Nat.lt_of_le_of_lt (Nat.add_le_add_left hheight _) hvalues

/-- Whether the program of the prelude compiles on an engine and returns. -/
def loads (fuel : Nat) (e : Engine) : Bool :=
  match e.compile {} Prelude.program with
  | (.ok code, e) =>
    match e.interpret fuel code with
    | some (.returned _, _) => true
    | _ => false
  | _ => false

theorem loadPrelude_of_loads {fuel : Nat} {e₀ : Engine} (h : e₀.loads fuel = true) :
    ∃ e, Session.loadPrelude fuel e₀ = .ok () e := by
  unfold loads at h
  split at h
  next code e₁ hcompile =>
    split at h
    next v e hrun =>
      have hsource := compile_of_ofSource ofSource_prelude hcompile
      have hinterpret : Session.interpret fuel code e₁ = .ok v e := by
        unfold Session.interpret Session.settle
        simp only [hrun]
      refine ⟨e, ?_⟩
      unfold Session.loadPrelude
      rw [bind_of_ok hsource, bind_of_ok hinterpret]
      rfl
    next => cases h
  next => cases h

/-- The code of `|x| [x, x]`. -/
def pairing : Code Value where
  params := [⟨0, "x"⟩]
  localCount := 1
  bytes := #[Op.loadLocal.toByte, 0, Op.loadLocal.toByte, 0, Op.buildList.toByte, 2, Op.ret.toByte]
  lines := Array.replicate 7 0

/-- Names among which `x` is the only one. -/
def onlyX : Ground where
  reading := { options := {}, names := ⟨[("x", ⟨0, "x"⟩)]⟩ }
  written := fun _ => False
  distinct := by
    intro name name' s s' h h' _
    have hfound : ∀ {y t}, Names.find? ⟨[("x", ⟨0, "x"⟩)]⟩ y = some t → y = "x" ∧ t = ⟨0, "x"⟩ := by
      intro y t hy
      simp only [Names.find?, List.lookup_cons] at hy
      split at hy
      next hsame => exact ⟨eq_of_beq hsame, (Option.some.inj hy).symm⟩
      next => cases hy
    obtain ⟨rfl, rfl⟩ := hfound h
    obtain ⟨rfl, rfl⟩ := hfound h'
    exact ⟨rfl, rfl⟩

theorem encloses_pairing : Lexical.Encloses onlyX {} [] none ["x"]
    (.list 0 [.name 0 "x", .name 0 "x"]) pairing [] where
  laid := by
    have hfirst : pairing.Access (Lexical.bodyOf {} pairing) .loads ⟨0, "x"⟩ 0 0 2 :=
      .slot rfl Nat.zero_lt_one (.narrow rfl ⟨rfl, rfl, rfl⟩)
    have hsecond : pairing.Access (Lexical.bodyOf {} pairing) .loads ⟨0, "x"⟩ 2 0 4 :=
      .slot rfl Nat.zero_lt_one (.narrow rfl ⟨rfl, rfl, rfl⟩)
    exact ⟨{}, 0, .intro ⟨rfl, nofun, .cons rfl .nil, rfl, Nat.le_refl 1, nofun, .nil, rfl⟩
      (.list (.cons (.name rfl hfirst) (.cons (.name rfl hsecond) .nil)) ⟨rfl, rfl, rfl⟩)
      ⟨rfl, rfl, rfl⟩ rfl⟩
  bound := by
    rintro s ⟨c, hc, _⟩
    cases hc
  visible := nofun
  hidden := fun _ _ _ _ => rfl

theorem computes_pairing (P : Spot) (id : Nat) (v : Value) (w : World) :
    P.Computes none id pairing [] [v] w (.list [v, v]) w := by
  refine Spot.computes encloses_pairing rfl (Site.Yields.ends ?_ ?_)
  · refine Site.yields_list (Site.yieldsAll_cons (Site.yields_name (Or.inl rfl) ?_))
    exact Site.yieldsAll_cons (Site.yields_name (Or.inl rfl) (Site.yieldsAll_nil ⟨rfl, rfl⟩))
  · intro o names code Γ ip Γ' next hlayout
    cases hlayout with
    | literal hliteral => cases hliteral
    | list hitems hat => exact .list hitems hat

/-- An empty machine whose innermost call executes instructions. -/
def emptySpot : Spot where
  machine := ({} : Engine).running .running
  below := []
  depth := 3
  running := ⟨_, _, rfl, rfl⟩
  base := Nat.le_refl 0
  room := by decide

theorem traverses_of_loadPrelude_numbers :
    ∃ e fold map filter apply, Session.loadPrelude 100 (create {} 0) = .ok () e ∧
      (e.get? "fold" = some fold ∧ emptySpot.Answers fold
        [.native 0 "+" 2 (.arithmetic .add), .int 0, .list [.int 1, .int 2]] e.world (.int 3) e.world) ∧
      (e.get? "map" = some map ∧ emptySpot.Answers map
        [.closure 0 pairing [], .list [.int 1, .int 2]] e.world
        (.list [.list [.int 1, .int 1], .list [.int 2, .int 2]]) e.world.draw.2) ∧
      (e.get? "filter" = some filter ∧ emptySpot.Answers filter
        [.native 0 "not" 1 .invert, .list [.bool true, .bool false]] e.world (.list [.bool false])
        e.world.draw.2) ∧
      e.get? "apply" = some apply ∧ emptySpot.Answers apply
        [.native 0 "-" 2 (.arithmetic .sub), .list [.int 10, .int 3]] e.world (.int 7)
        e.world.draw.2 := by
  have hloads : (create {} 0).loads 100 = true := by decide +kernel
  obtain ⟨e, hload⟩ := loadPrelude_of_loads hloads
  have hroomy : emptySpot.Roomy := ⟨by decide, by decide, by decide⟩
  have hsame : e.Unmodified e.world := fun _ _ _ _ => rfl
  have hdrawn : e.Unmodified e.world.draw.2 := fun _ _ _ _ => rfl
  obtain ⟨⟨fold, hfold, hfolds⟩, ⟨map, hmap, hmaps⟩, ⟨filter, hfilter, hfilters⟩, -, -,
    ⟨apply, happly, happlies⟩⟩ := traverses_of_loadPrelude hload
  refine ⟨e, fold, map, filter, apply, hload, ⟨hfold, ?_⟩, ⟨hmap, ?_⟩, ⟨hfilter, ?_⟩, happly, ?_⟩
  · have hone : e.Returns emptySpot 1 (.native 0 "+" 2 (.arithmetic .add)) [.int 0, .int 1] e.world
      (.int 1) e.world := returns_native (by decide) rfl rfl hsame
    have htwo : e.Returns emptySpot 1 (.native 0 "+" 2 (.arithmetic .add)) [.int 1, .int 2] e.world
      (.int 3) e.world := returns_native (by decide) rfl rfl hsame
    exact hfolds hroomy (by decide) hsame (.cons hone (.cons htwo .nil))
  · have heach : ∀ v, e.Returns emptySpot 2 (.closure 0 pairing []) [v] e.world.draw.2 (.list [v, v])
        e.world.draw.2 := fun v =>
      returns_closure (by decide) (by decide) (by decide) rfl
        (fun Q => computes_pairing Q 0 v e.world.draw.2) hdrawn
    exact hmaps hroomy (by decide) hsame (.cons (heach _) (.cons (heach _) .nil))
  · have hfirst : e.Returns emptySpot 2 (.native 0 "not" 1 .invert) [.bool true] e.world.draw.2
      (.bool false) e.world.draw.2 := returns_native (by decide) rfl rfl hdrawn
    have hsecond : e.Returns emptySpot 2 (.native 0 "not" 1 .invert) [.bool false] e.world.draw.2
      (.bool true) e.world.draw.2 := returns_native (by decide) rfl rfl hdrawn
    exact hfilters hroomy (by decide) hsame (.drop hfirst rfl (.keep hsecond rfl .nil))
  · have hcall : e.Returns emptySpot 1 (.native 0 "-" 2 (.arithmetic .sub)) [.int 10, .int 3]
      e.world.draw.2 (.int 7) e.world.draw.2 := returns_native (by decide) rfl rfl hdrawn
    exact happlies hroomy (by decide) hsame rfl (by decide) hcall

end Traversal

end Engine

end Resumable
