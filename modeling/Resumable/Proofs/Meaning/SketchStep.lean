import Resumable.Proofs.Meaning.Sketch

/-!
A step that leaves unset what it passes over, and one that takes any values for it, lead to the same but
for unset bindings, unless the step reads a name that is unset.
-/

namespace Resumable.Meaning

namespace Memory.Sketches

variable {μ μ' : Memory}

theorem withWorld (h : μ.Sketches μ') (world : World) : (μ.withWorld world).Sketches (μ'.withWorld world) :=
  { h with world := rfl }

theorem drawn (h : μ.Sketches μ') : μ.drawn.Sketches μ'.drawn := by
  rw [Memory.drawn, Memory.drawn, h.world]
  exact h.withWorld _

theorem skip (n : Nat) (h : μ.Sketches μ') : (Memory.skip n μ).Sketches (Memory.skip n μ') := by
  induction n generalizing μ μ' with
  | zero => exact h
  | succ n ih => exact ih h.drawn

theorem setGlobal (h : μ.Sketches μ') (name : Symbol) (v : Value) :
    (μ.setGlobal name v).Sketches (μ'.setGlobal name v) := by
  rw [Memory.setGlobal, Memory.setGlobal, h.world]
  exact h.withWorld _

/-- Functions that are made alike have the same identity. -/
theorem makeFunction (h : μ.Sketches μ') (name : Option Symbol) {f f' : Function} (hf : f.Sketches f') :
    (μ'.makeFunction name f').1 = (μ.makeFunction name f).1 ∧
      (μ.makeFunction name f).2.Sketches (μ'.makeFunction name f').2 := by
  have hparams : f'.params = f.params := by
    cases hf
    rfl
  have hdraw : μ'.world.draw.1 = μ.world.draw.1 := by rw [h.world]
  refine ⟨?_, { h.drawn with functions := .cons ⟨hdraw.symm, hf⟩ h.functions }⟩
  rw [Memory.makeFunction, Memory.makeFunction, h.world, hparams]

/-- Computations that are suspended alike have the same identity. -/
theorem suspend (h : μ.Sketches μ') {part part' : List Activity} (hpart : ActsSketch part part') :
    (μ'.suspend part').1 = (μ.suspend part).1 ∧ (μ.suspend part).2.Sketches (μ'.suspend part').2 := by
  have hdraw : μ'.world.draw.1 = μ.world.draw.1 := by rw [h.world]
  refine ⟨?_, { h.drawn with continuations := .cons ⟨hdraw.symm, hpart⟩ h.continuations }⟩
  rw [Memory.suspend, Memory.suspend, h.world]

end Memory.Sketches

section

variable {a a' : Activity} {acts acts' : List Activity}

theorem Activity.Sketches.isNone_eq (h : a.Sketches a') : a'.handler.isNone = a.handler.isNone := by
  have hhandler := h.handler
  generalize a.handler = handler at hhandler ⊢
  generalize a'.handler = handler' at hhandler ⊢
  cases hhandler <;> rfl

/-- An activity has clauses for the same effects. -/
theorem Activity.Sketches.choice? (h : a.Sketches a') (effect : Effect) :
    Option.Rel (fun c c' => c.1 = c'.1 ∧ c.2.Sketches c'.2) (a.choice? effect) (a'.choice? effect) := by
  have hhandler := h.handler
  unfold Activity.choice?
  generalize a.handler = handler at hhandler ⊢
  generalize a'.handler = handler' at hhandler ⊢
  cases hhandler with
  | none => exact .none
  | some hclauses => exact hclauses.find? fun e => e == effect

/-- Activities are cut at the same handler. -/
theorem ActsSketch.cut? (h : ActsSketch acts acts') (effect : Effect) :
    Option.Rel (fun p p' => ActsSketch p.1 p'.1 ∧ p.2.1.1 = p'.2.1.1 ∧ p.2.1.2.Sketches p'.2.1.2 ∧
      ActsSketch p.2.2 p'.2.2) (cut? effect acts) (cut? effect acts') := by
  induction h with
  | nil => exact .none
  | @cons a a' acts acts' ha hacts ih =>
    have hchoice := ha.choice? effect
    rw [Meaning.cut?, Meaning.cut?]
    generalize a.choice? effect = choice at hchoice ⊢
    generalize a'.choice? effect = choice' at hchoice ⊢
    cases hchoice with
    | some hchoice => exact .some ⟨.cons ha .nil, hchoice.1, hchoice.2, hacts⟩
    | none =>
      generalize Meaning.cut? effect acts = found at ih ⊢
      generalize Meaning.cut? effect acts' = found' at ih ⊢
      cases ih with
      | none => exact .none
      | some hfound => exact .some ⟨.cons ha hfound.1, hfound.2⟩

theorem ActsSketch.totalHeight_eq (h : ActsSketch acts acts') : totalHeight acts' = totalHeight acts := by
  rw [totalHeight, totalHeight, map_eq_of_forall₂ (h.imp fun _ _ ha => ha.height_eq)]

theorem ActsSketch.dropFinished (h : ActsSketch acts acts') :
    ActsSketch (dropFinished acts) (dropFinished acts') := by
  match h with
  | .nil => exact .nil
  | .cons ha .nil => exact .cons ha .nil
  | .cons ha (.cons hb hacts) =>
    simp only [Meaning.dropFinished, ha.inTail_eq, ha.isNone_eq]
    split
    · exact .cons hb hacts
    · exact .cons ha (.cons hb hacts)

end

/-- The same thing is done in activities that are the same but for unset bindings. -/
def EntrySketches (entry entry' : Activity × Control) : Prop :=
  entry.1.Sketches entry'.1 ∧ entry'.2 = entry.2

theorem Choice.Sketches.activity {choice choice' : Choice} (h : choice.Sketches choice') :
    choice.activity.Sketches choice'.activity := by
  cases h with
  | mk reading line clauses h => exact ⟨rfl, rfl, .nil, h, .nil, .none⟩

theorem Choice.Sketches.body {choice choice' : Choice} {a a' : Activity} (h : choice.Sketches choice')
    (ha : a.Sketches a') (c : Clause Expr) (payload k : Value) :
    EntrySketches (choice.body a c payload k) (choice'.body a' c payload k) := by
  cases h with
  | mk reading line clauses h => exact ⟨{ ha with locals := .refl _, contexts := .nil }, rfl⟩

/-- The clauses that remain are tried alike. -/
theorem Raised.Sketches.select {r r' : Raised} {a a' : Activity} (h : r.Sketches r') (ha : a.Sketches a')
    (rest : List (Clause Expr)) : EntrySketches (r.select a rest) (r'.select a' rest) := by
  have hr := h
  obtain ⟨hchoice, effect, payload, k⟩ := h
  have hchoice' := hchoice
  cases hchoice with
  | mk reading line clauses hρ =>
    induction rest with
    | nil =>
      cases hfound : clauses.find? fun c => c.guard.isNone with
      | some c =>
        simp only [Raised.select, hfound]
        exact hchoice'.body ha c payload k
      | none =>
        simp only [Raised.select, hfound]
        exact ⟨{ ha with locals := .nil, contexts := .cons (.refl _) .nil }, rfl⟩
    | cons c rest ih =>
      cases hguard : c.guard with
      | some guard =>
        simp only [Raised.select, hguard]
        exact ⟨{ ha with locals := .refl _, contexts := .cons (.guard hr c rest) .nil }, rfl⟩
      | none =>
        simp only [Raised.select, hguard]
        exact ih

namespace State.Sketches

variable {σ σ' : State} {a a' : Activity} {acts acts' : List Activity}

theorem goes (h : σ.Sketches σ') (hacts : ActsSketch acts acts') (control : Control) :
    (σ.goes acts control).Sketches (σ'.goes acts' control) :=
  .more { h with acts := hacts, control := rfl }

theorem withMemory (h : σ.Sketches σ') {μ μ' : Memory} (hμ : μ.Sketches μ') :
    (σ.withMemory μ).Sketches (σ'.withMemory μ') :=
  { h with memory := hμ }

theorem withWorld (h : σ.Sketches σ') (world : World) :
    (σ.withMemory (σ.memory.withWorld world)).Sketches (σ'.withMemory (σ'.memory.withWorld world)) :=
  h.withMemory (h.memory.withWorld world)

/-- A thread that waits goes on where it waited. -/
theorem finish (h : σ.Sketches σ') (result : Except RuntimeError Value) :
    (σ.finish result).Sketches (σ'.finish result) := by
  obtain ⟨μ, limits, acts, control, waiting⟩ := σ
  obtain ⟨μ', limits', acts', control', waiting'⟩ := σ'
  obtain ⟨hμ, hlimits, -, hcontrol, hwaiting⟩ := h
  replace hμ : μ.Sketches μ' := hμ
  cases hlimits
  cases hcontrol
  cases hwaiting with
  | nil =>
    cases result with
    | ok v => exact .ended _ hμ
    | error e => exact .ended _ hμ
  | @cons w w' _ _ hw hrest =>
    obtain ⟨hid, hacts⟩ := hw
    simp only [State.finish, ← hid, hμ.world]
    exact .more ⟨hμ.withWorld _, rfl, hacts, rfl, hrest⟩

theorem hand (h : σ.Sketches σ') (hacts : ActsSketch acts acts') (v : Value) :
    (σ.hand v acts).Sketches (σ'.hand v acts') := by
  cases hacts with
  | nil => exact h.finish (.ok v)
  | cons ha hacts => exact h.goes (.cons ha hacts) (.give v)

theorem fail (h : σ.Sketches σ') (line : Nat) (e : RuntimeError) :
    (σ.fail line e).Sketches (σ'.fail line e) :=
  h.finish _

theorem enter (h : σ.Sketches σ') (line : Nat) {entry entry' : Activity × Control}
    (hentry : EntrySketches entry entry') : (σ.enter line entry).Sketches (σ'.enter line entry') := by
  obtain ⟨ha, hcontrol⟩ := hentry
  have hmark : entry'.1.handler.toList.length = entry.1.handler.toList.length := by
    have hhandler := ha.handler
    generalize entry.1.handler = handler at hhandler ⊢
    generalize entry'.1.handler = handler' at hhandler ⊢
    cases hhandler <;> rfl
  rw [State.enter, State.enter, h.limits, h.acts.length_eq, h.acts.totalHeight_eq, hmark, hcontrol]
  split
  · exact h.goes (.cons ha h.acts) _
  · exact h.fail _ _

theorem enterFunction (h : σ.Sketches σ') (line : Nat) {f f' : Function} (hf : f.Sketches f')
    (callee : Value) (args : List Value) :
    (σ.enterFunction line f callee args).Sketches (σ'.enterFunction line f' callee args) := by
  have hnew : EntrySketches (f.activity callee args none, .eval f.body)
      (f'.activity callee args none, .eval f'.body) :=
    ⟨hf.activity callee args .none, by rw [hf.body_eq]⟩
  have hacts := h.acts
  have henter := h.enter line hnew
  unfold State.enterFunction
  generalize σ.acts = all at hacts ⊢
  generalize σ'.acts = all' at hacts ⊢
  cases hacts with
  | nil => exact henter
  | cons ha hacts =>
    simp only [ha.inTail_eq]
    split
    · rw [hf.body_eq]
      exact h.goes (.cons (hf.activity callee args ha.handler) hacts) _
    · exact henter

/-- An effect goes to the same handler, and the computation that it suspends has the same identity. -/
theorem raise (h : σ.Sketches σ') (line : Nat) (effect : Effect) (payload : Value) :
    (σ.raise line effect payload).Sketches (σ'.raise line effect payload) := by
  have hcut := h.acts.cut? effect
  unfold State.raise
  generalize cut? effect σ.acts = found at hcut ⊢
  generalize cut? effect σ'.acts = found' at hcut ⊢
  cases hcut with
  | none => exact h.fail _ _
  | @some p p' hp =>
    obtain ⟨part, ⟨e, choice⟩, rest⟩ := p
    obtain ⟨part', ⟨e', choice'⟩, rest'⟩ := p'
    obtain ⟨hpart, heffect, hchoice, hrest⟩ := hp
    obtain ⟨hk, hμ⟩ := h.memory.suspend hpart
    have hclauses : choice'.clauses = choice.clauses := by
      cases hchoice
      rfl
    have hraised : Raised.Sketches ⟨choice, e, payload, (σ.memory.suspend part).1⟩
        ⟨choice', e', payload, (σ'.memory.suspend part').1⟩ := by
      cases heffect
      rw [hk]
      exact .mk hchoice _ _ _
    have hσ : Sketches { σ with memory := (σ.memory.suspend part).2, acts := rest }
        { σ' with memory := (σ'.memory.suspend part').2, acts := rest' } :=
      { h with memory := hμ, acts := hrest }
    refine hσ.enter line ?_
    rw [hclauses]
    exact hraised.select hchoice.activity choice.clauses

theorem resume (h : σ.Sketches σ') (line : Nat) {part part' : List Activity} (hpart : ActsSketch part part')
    (v : Value) : (σ.resume line part v).Sketches (σ'.resume line part' v) := by
  rw [State.resume, State.resume, h.limits, h.acts.dropFinished.length_eq, hpart.length_eq]
  split
  · exact h.fail _ _
  · exact h.goes (List.rel_append hpart h.acts.dropFinished) _

theorem spawn (h : σ.Sketches σ') (task : Value) : (σ.spawn task).Sketches (σ'.spawn task) := by
  rw [State.spawn, State.spawn, h.memory.world]
  exact .more
    { memory := h.memory.withWorld _
      limits := h.limits
      acts := .nil
      control := rfl
      waiting := .cons ⟨rfl, h.acts⟩ h.waiting }

theorem transfer (h : σ.Sketches σ') (line : Nat) (t : Application) :
    (σ.transfer line t).Sketches (σ'.transfer line t) := by
  cases t with
  | returned v => exact h.hand h.acts v
  | spawn task => exact h.spawn task
  | enter id callee args =>
    have hlookup := h.memory.functions.lookup id
    simp only [State.transfer]
    generalize σ.memory.functions.lookup id = found at hlookup ⊢
    generalize σ'.memory.functions.lookup id = found' at hlookup ⊢
    cases hlookup with
    | none => exact h.fail _ _
    | some hf => exact h.enterFunction line hf callee args
  | raise effect payload => exact h.raise line effect payload
  | resume id v =>
    have hlookup := h.memory.continuations.lookup id
    simp only [State.transfer]
    generalize σ.memory.continuations.lookup id = found at hlookup ⊢
    generalize σ'.memory.continuations.lookup id = found' at hlookup ⊢
    cases hlookup with
    | none => exact h.fail _ _
    | some hpart => exact h.resume line hpart v

theorem call (h : σ.Sketches σ') (line : Nat) (callee : Value) (args : List Value) :
    (σ.call line callee args).Sketches (σ'.call line callee args) := by
  rw [State.call, State.call, h.memory.world]
  cases Application.apply callee args σ.memory.world with
  | ok t world => exact (h.withWorld world).transfer line t
  | error e world => exact (h.withWorld world).fail line e

/-! ### Expressions and contexts -/

theorem write (h : σ.Sketches σ') (ha : a.Sketches a') (hacts : ActsSketch acts acts') (name : Symbol)
    (v : Value) : (σ.write a acts name v).Sketches (σ'.write a' acts' name v) := by
  rw [State.write, State.write, ha.locals.binds_eq, ha.captured.binds_eq]
  split
  · exact h.goes (.cons (ha.withLocals (ha.locals.assign name v)) hacts) (.give .none)
  · split
    · exact h.goes (.cons (ha.withCaptured (ha.captured.assign name v)) hacts) (.give .none)
    · exact (h.withMemory (h.memory.setGlobal name v)).goes (.cons ha hacts) (.give .none)

theorem declare (h : σ.Sketches σ') (ha : a.Sketches a') (hacts : ActsSketch acts acts') (name : Symbol)
    (v : Value) : (σ.declare a acts name v).Sketches (σ'.declare a' acts' name v) := by
  rw [State.declare, State.declare, ha.isGlobal_eq]
  split
  · exact (h.withMemory (h.memory.setGlobal name v)).goes (.cons ha hacts) (.give .none)
  · exact h.goes (.cons (ha.withLocals (.cons ⟨rfl, Or.inr rfl⟩ ha.locals)) hacts) (.give .none)

theorem conclude (h : σ.Sketches σ') (ha : a.Sketches a') (hacts : ActsSketch acts acts')
    (values : List Value) (work : Work) :
    (σ.conclude a acts values work).Sketches (σ'.conclude a' acts' values work) := by
  cases work with
  | call line =>
    simp only [State.conclude, ha.reading]
    exact h.goes (.cons ha hacts) _
  | list => exact h.goes (.cons ha hacts) (.give (.list values))
  | tuple => exact h.goes (.cons ha hacts) (.give (.tuple values))
  | field line name =>
    simp only [State.conclude, ha.reading]
    split
    · exact h.goes (.cons ha hacts) _
    · exact h.fail _ _
  | declare name =>
    simp only [State.conclude, ha.reading]
    exact h.declare ha hacts _ _
  | assign name =>
    simp only [State.conclude, ha.reading]
    exact h.write ha hacts _ _

theorem operate (h : σ.Sketches σ') (ha : a.Sketches a') (hacts : ActsSketch acts acts') (work : Work)
    (done : List Value) (es : List Expr) :
    (σ.operate a acts work done es).Sketches (σ'.operate a' acts' work done es) := by
  cases es with
  | nil => exact h.conclude ha hacts done work
  | cons e rest => exact h.goes (.cons (ha.wait _) hacts) (.eval e)

theorem build (h : σ.Sketches σ') (ha : a.Sketches a') (hacts : ActsSketch acts acts')
    (done : List (Symbol × Value)) (fields : List (String × Expr)) :
    (σ.build a acts done fields).Sketches (σ'.build a' acts' done fields) := by
  cases fields with
  | nil => exact h.goes (.cons ha hacts) _
  | cons field rest =>
    simp only [State.build, ha.reading]
    exact h.goes (.cons (ha.wait _) hacts) _

theorem statements (h : σ.Sketches σ') (ha : a.Sketches a') (hacts : ActsSketch acts acts')
    (es : List Expr) : (σ.statements a acts es).Sketches (σ'.statements a' acts' es) := by
  match es with
  | [] => exact h.goes (.cons ha hacts) (.give .none)
  | [e] => exact h.goes (.cons ha hacts) (.eval e)
  | e :: e' :: rest => exact h.goes (.cons (ha.wait _) hacts) (.eval e)

theorem lambda (h : σ.Sketches σ') (ha : a.Sketches a') (hacts : ActsSketch acts acts')
    (name : Option String) (params : List String) (body : Expr) :
    (σ.lambda a acts name params body).Sketches (σ'.lambda a' acts' name params body) := by
  obtain ⟨hv, hμ⟩ := h.memory.makeFunction (name.map a.reading.symbol)
    (.mk a.reading (selfNameOf (name.map a.reading.symbol) (params.map a.reading.symbol))
      (params.map a.reading.symbol) body ha.visible)
  simp only [State.lambda, ha.reading]
  rw [hv]
  exact (h.withMemory hμ).goes (.cons ha hacts) _

theorem choices (ha : a.Sketches a') (line : Nat) (clauses : List (Clause Expr)) :
    List.Forall₂ Choice.Sketches (State.choices a line clauses) (State.choices a' line clauses) := by
  rw [State.choices, State.choices, ha.reading, List.forall₂_map_left_iff, List.forall₂_map_right_iff]
  exact List.forall₂_same.2 fun c _ => .mk _ _ _ ha.visible

theorem handle (h : σ.Sketches σ') (ha : a.Sketches a') (hacts : ActsSketch acts acts') (line : Nat)
    (body : Expr) (clauses : List (Clause Expr))
    (hset : a.someStartsUnset σ.memory.world.globals ((firstClauses clauses).map Clause.effect) = false) :
    (σ.handle a acts line body clauses).Sketches (σ'.handle a' acts' line body clauses) := by
  simp only [State.handle, h.memory.world, ha.paths_eq _ hset, ha.reading]
  cases a.paths σ.memory.world.globals ((firstClauses clauses).map Clause.effect) with
  | error e => exact h.finish (.error e)
  | ok vs =>
    cases heffects : effectsOf vs with
    | error e =>
      simp only [heffects]
      exact (h.withMemory (h.memory.skip _)).fail _ _
    | ok effects =>
      simp only [heffects]
      have hσ : Sketches
          { σ with memory := σ.memory.skip ((firstClauses clauses).length + 2), acts := a :: acts }
          { σ' with memory := σ'.memory.skip ((firstClauses clauses).length + 2), acts := a' :: acts' } :=
        { h with memory := h.memory.skip _, acts := .cons ha hacts }
      refine hσ.enter _ ⟨⟨rfl, rfl, .nil, ha.visible, .nil, .some ?_⟩, rfl⟩
      exact .zip effects (choices ha line clauses)

/-- Expressions that read no name that is unset are evaluated alike. -/
theorem eval (h : σ.Sketches σ') (ha : a.Sketches a') (hacts : ActsSketch acts acts') (e : Expr)
    (hset : a.readsUnset σ.memory.world.globals e = false) : (σ.eval a acts e).Sketches (σ'.eval a' acts' e) := by
  cases e with
  | nothing => exact h.goes (.cons ha hacts) (.give .none)
  | bool _ b => exact h.goes (.cons ha hacts) (.give (.bool b))
  | int _ n => exact h.goes (.cons ha hacts) (.give (.int n))
  | float _ x => exact h.goes (.cons ha hacts) (.give (.float x))
  | str _ s => exact h.goes (.cons ha hacts) (.give (.str s))
  | name line name =>
    simp only [State.eval, h.memory.world, ha.reading, ha.read_eq _ hset]
    split
    · exact h.goes (.cons ha hacts) _
    · exact h.fail _ _
  | call line callee args => exact h.operate ha hacts (.call line) [] (args ++ [callee])
  | list _ items => exact h.operate ha hacts .list [] items
  | tuple _ items => exact h.operate ha hacts .tuple [] items
  | field line target name => exact h.operate ha hacts (.field line name) [] [target]
  | declare _ name value => exact h.operate ha hacts (.declare name) [] [value]
  | assign _ name value => exact h.operate ha hacts (.assign name) [] [value]
  | record _ fields => exact h.build ha hacts [] fields
  | cond _ test whenTrue whenFalse => exact h.goes (.cons (ha.wait _) hacts) (.eval test)
  | lambda _ name params body => exact h.lambda ha hacts name params body
  | block _ es =>
    cases es with
    | nil => exact h.goes (.cons ha hacts) (.give .none)
    | cons e es =>
      simp only [State.eval, ha.locals.length_eq]
      exact h.goes (.cons (ha.wait _) hacts) _
  | handle line body clauses => exact h.handle ha hacts line body clauses hset
  | handled line =>
    simp only [State.eval]
    exact h.fail _ _

/-- A guard has the same value, and decides alike. -/
theorem give_guard (h : σ.Sketches σ') (ha : a.Sketches a') (hacts : ActsSketch acts acts')
    {r r' : Raised} (hr : r.Sketches r') (fill fill' : List Value) (v : Value) (c : Clause Expr)
    (rest : List (Clause Expr)) (cs cs' : List Context) :
    (σ.give a acts fill v (.guard r c rest :: cs)).Sketches
      (σ'.give a' acts' fill' v (.guard r' c rest :: cs')) := by
  have hnext : EntrySketches
      (if v.isTruthy then r.choice.body a c r.payload r.k else r.select a rest)
      (if v.isTruthy then r'.choice.body a' c r'.payload r'.k else r'.select a' rest) := by
    split
    · cases hr with
      | mk hchoice effect payload k => exact hchoice.body ha c payload k
    · exact hr.select ha rest
  simp only [State.give, hnext.2]
  exact h.goes (.cons hnext.1 hacts) _

/-- Contexts are given the same value, where names that are passed over are left unset or have any
values. -/
theorem give (h : σ.Sketches σ') (ha : a.Sketches a') (hacts : ActsSketch acts acts') (fill : List Value)
    (v : Value) {cs cs' : List Context} (hcs : List.Forall₂ Context.Sketches cs cs') :
    (σ.give a acts ((passedBy v cs).map fun _ => unset) v cs).Sketches (σ'.give a' acts' fill v cs') := by
  cases hcs with
  | nil => exact h.hand hacts v
  | @cons c _ contexts contexts' hc hrest =>
    have hleft := ha.withContexts hrest
    cases hc with
    | guard hr clause rest => exact h.give_guard ha hacts hr _ _ v clause rest contexts contexts'
    | refl =>
      cases c with
      | operands work done rest => exact h.operate hleft hacts work (done ++ [v]) rest
      | fields done name rest => exact h.build hleft hacts (done ++ [(name, v)]) rest
      | test whenTrue whenFalse =>
        simp only [State.give, passedBy]
        cases v.isTruthy <;> cases whenFalse
        · exact h.goes (.cons (hleft.pass _ fill) hacts) (.give .none)
        · exact h.goes (.cons (hleft.pass _ fill) hacts) (.eval _)
        · exact h.goes (.cons hleft hacts) (.eval _)
        · exact h.goes (.cons (hleft.wait _) hacts) (.eval _)
      | passing names => exact h.goes (.cons (hleft.pass names fill) hacts) (.give v)
      | statements rest => exact h.goes (.cons hleft hacts) (.run rest)
      | scope size =>
        simp only [State.give, ha.locals.length_eq]
        exact h.goes (.cons (hleft.withLocals (List.forall₂_drop _ ha.locals)) hacts) (.give v)
      | guard r clause rest =>
        have hr : r.Sketches r := .mk (.mk _ _ _ (.refl _)) _ _ _
        exact h.give_guard ha hacts hr _ _ v clause rest contexts contexts'
      | answer line k => exact h.goes (.cons hleft hacts) (.call line k [v])

/-- One step, if it reads no name that is unset. -/
theorem step (h : σ.Sketches σ') (hset : σ.readsUnset = false) (fill : List Value) :
    σ.stepUnset.Sketches (σ'.step fill) := by
  have hacts := h.acts
  simp only [State.stepUnset, State.step, State.passed, h.control]
  generalize σ'.acts = stack' at hacts ⊢
  cases hstack : σ.acts with
  | nil =>
    rw [hstack] at hacts
    cases hacts
    cases σ.control with
    | eval e => exact h.finish (.ok .none)
    | run es => exact h.finish (.ok .none)
    | give v => exact h.finish (.ok v)
    | call line callee args => exact h.call line callee args
  | cons a acts =>
    rw [hstack] at hacts
    cases hacts with
    | cons ha hacts =>
      cases hcontrol : σ.control with
      | eval e =>
        rw [State.readsUnset, hstack, hcontrol] at hset
        exact h.eval ha hacts e hset
      | run es => exact h.statements ha hacts es
      | give v => exact h.give ha hacts fill v ha.contexts
      | call line callee args => exact h.call line callee args

end State.Sketches

end Resumable.Meaning
