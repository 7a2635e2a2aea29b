import Resumable.Proofs.Machine.Invariant

/-!
Relations between values that programs cannot tell apart. Data is related item by item; of functions,
continuations and handlers only what they show of themselves is the same: names, numbers of parameters,
and identities, which correspond one to one. Nothing that a value shows of itself depends on more.
-/

namespace Resumable

/-- Functions that start a task or wait for one, tell the time or let it pass. -/
def Native.isTimed : Native → Bool
  | spawn | join | now | sleep => true
  | _ => false

/-- How the shared states of two machines correspond: which identities are those of the same object,
which supplies of identities and which outputs go together, and whether the tasks and the time are
`whole`, the same in both. -/
structure Correspondence where
  ids : Nat → Nat → Prop
  unique : ∀ {i j i' j' : Nat}, ids i i' → ids j j' → (i' = j' ↔ i = j)
  supply : Nat → Nat → Prop
  fresh : ∀ {n n' : Nat}, supply n n' → ids n n' ∧ supply (n + 1) (n' + 1)
  output : String → String → Prop
  append : ∀ {s s' : String} (t : String), output s s' → output (s ++ t) (s' ++ t)
  whole : Bool

namespace Correspondence

/-- Identities, supplies, outputs, tasks and time are the same. -/
def exact : Correspondence where
  ids := Eq
  unique := by
    rintro i j _ _ rfl rfl
    rfl
  supply := Eq
  fresh := by
    rintro n _ rfl
    exact ⟨rfl, rfl⟩
  output := Eq
  append := by
    rintro s _ t rfl
    rfl
  whole := true

/-- Whether a function depends on what need not correspond: on the number of frames, or on tasks and
time. -/
def tells (ρ : Correspondence) : Native → Bool
  | .hook .depth => true
  | f => !ρ.whole && f.isTimed

/-- Unless tasks and time are the same, functions depend on them. -/
theorem tells_of_isTimed {ρ : Correspondence} (hwhole : ρ.whole = false) {f : Native}
    (htimed : f.isTimed = true) : ρ.tells f = true := by
  cases f <;> first | cases htimed; done | simp [tells, hwhole, Native.isTimed]

theorem beq_eq (ρ : Correspondence) {i j i' j' : Nat} (hi : ρ.ids i i') (hj : ρ.ids j j') :
    (i' == j') = (i == j) := by
  rw [Bool.eq_iff_iff, beq_iff_eq, beq_iff_eq]
  exact ρ.unique hi hj

end Correspondence

/-- Names with related values. -/
def Env.Related (R : Value → Value → Prop) : Env Value → Env Value → Prop :=
  List.Forall₂ fun b b' => b.1 = b'.1 ∧ R b.2 b'.2

/-- The same effect, if the identities of one object are related by `ids`. -/
structure Effect.Matches (ids : Nat → Nat → Prop) (e e' : Effect) : Prop where
  id : ids e.id e'.id
  name : e'.name = e.name

theorem Effect.Matches.eq {e e' : Effect} (h : e.Matches Eq e') : e' = e := by
  obtain ⟨hid, hname⟩ := h
  cases e
  cases e'
  simp only at hid hname
  rw [hid, hname]

/-- Values that look the same, if the identities of one object are related by `ids` and the values that
they hold by `R`. -/
inductive Value.Alike (ids : Nat → Nat → Prop) (R : Value → Value → Prop) : Value → Value → Prop
  | flat {v : Value} (hbasic : v.isBasic = true) : Alike ids R v v
  | effect {e e' : Effect} (heffect : e.Matches ids e') : Alike ids R (.effect e) (.effect e')
  | list {items items' : List Value} (hitems : List.Forall₂ R items items') :
    Alike ids R (.list items) (.list items')
  | tuple {items items' : List Value} (hitems : List.Forall₂ R items items') :
    Alike ids R (.tuple items) (.tuple items')
  | record {fields fields' : List (Symbol × Value)} (hfields : Env.Related R fields fields') :
    Alike ids R (.record fields) (.record fields')
  | closure {id id' : Nat} {f f' : Code Value} {env env' : List (Symbol × Value)} (hid : ids id id')
    (hname : f'.name = f.name) (hparams : f'.params = f.params) :
    Alike ids R (.closure id f env) (.closure id' f' env')
  | native {id id' arity : Nat} {name : String} {function : Native} (hid : ids id id') :
    Alike ids R (.native id name arity function) (.native id' name arity function)
  | applied {id id' : Nat} {callee callee' : Value} {bound bound' : List Value} (hid : ids id id')
    (hcallee : R callee callee') (hbound : List.Forall₂ R bound bound') :
    Alike ids R (.applied id callee bound) (.applied id' callee' bound')
  | continuation {id id' : Nat} {k k' : Continuation Value} (hid : ids id id') :
    Alike ids R (.continuation id k) (.continuation id' k')
  | handler {id id' : Nat} {clauses clauses' : List (Effect × Value)} (hid : ids id id')
    (hlength : clauses'.length = clauses.length) :
    Alike ids R (.handler id clauses) (.handler id' clauses')
  | code {id id' : Nat} {f f' : Code Value} (hid : ids id id') (hname : f'.name = f.name) :
    Alike ids R (.code id f) (.code id' f')

section Mono

variable {ids : Nat → Nat → Prop} {R R' : Value → Value → Prop} (hle : ∀ {v v'}, R v v' → R' v v')

include hle

theorem Env.Related.mono {env env' : Env Value} (h : Env.Related R env env') :
    Env.Related R' env env' :=
  List.Forall₂.imp (fun _ _ hb => ⟨hb.1, hle hb.2⟩) h

theorem Value.Alike.mono {v v' : Value} (h : v.Alike ids R v') : v.Alike ids R' v' := by
  cases h with
  | flat hbasic => exact .flat hbasic
  | effect heffect => exact .effect heffect
  | list hitems => exact .list (hitems.imp fun _ _ => hle)
  | tuple hitems => exact .tuple (hitems.imp fun _ _ => hle)
  | record hfields => exact .record (hfields.mono hle)
  | closure hid hname hparams => exact .closure hid hname hparams
  | native hid => exact .native hid
  | applied hid hcallee hbound => exact .applied hid (hle hcallee) (hbound.imp fun _ _ => hle)
  | continuation hid => exact .continuation hid
  | handler hid hlength => exact .handler hid hlength
  | code hid hname => exact .code hid hname

end Mono

/-- A relation between values that look the same and hold related values, to any depth. -/
structure Likeness extends Correspondence where
  rel : Value → Value → Prop
  view : ∀ {v v' : Value}, rel v v' → v.Alike ids rel v'
  data : ∀ {v v' : Value}, v.isData = true → v.isInternal = false → v.Alike ids rel v' → rel v v'
  applied : ∀ {id id' : Nat} {callee callee' : Value} {bound bound' : List Value}, ids id id' →
    rel callee callee' → List.Forall₂ rel bound bound' →
    rel (.applied id callee bound) (.applied id' callee' bound')

namespace Likeness

variable {L : Likeness} {v v' w w' : Value} {args args' : List Value}

theorem flat (hsimple : v.isSimple = true) : L.rel v v := by
  obtain ⟨hbasic, hopen⟩ : v.isBasic = true ∧ v.isInternal = false := by
    simpa [Value.isSimple] using hsimple
  have hdata : v.isData = true := by cases v <;> first | rfl | cases hbasic
  exact L.data hdata hopen (.flat hbasic)

theorem effect {e e' : Effect} (heffect : e.Matches L.ids e') : L.rel (.effect e) (.effect e') :=
  L.data rfl rfl (.effect heffect)

theorem list (hitems : List.Forall₂ L.rel args args') : L.rel (.list args) (.list args') :=
  L.data rfl rfl (.list hitems)

theorem tuple (hitems : List.Forall₂ L.rel args args') : L.rel (.tuple args) (.tuple args') :=
  L.data rfl rfl (.tuple hitems)

theorem record {fields fields' : List (Symbol × Value)} (hfields : Env.Related L.rel fields fields') :
    L.rel (.record fields) (.record fields') :=
  L.data rfl rfl (.record hfields)

theorem typeName_eq (hv : L.rel v v') : v'.typeName = v.typeName := by
  cases L.view hv <;> rfl

theorem isTruthy_eq (hv : L.rel v v') : v'.isTruthy = v.isTruthy := by
  cases L.view hv <;> rfl

theorem arity?_eq {v v' : Value} (hv : L.rel v v') : v'.arity? = v.arity? := by
  cases v with
  | applied id callee bound =>
    cases L.view hv with
    | flat hflat => cases hflat
    | applied _ hcallee hbound => simp only [Value.arity?, arity?_eq hcallee, hbound.length_eq]
  | closure id f env =>
    cases L.view hv with
    | flat hflat => cases hflat
    | closure _ _ hparams => simp only [Value.arity?, Code.arity, hparams]
  | _ => cases L.view hv <;> rfl

theorem unapply_related {v v' : Value} {args args' : List Value} (hv : L.rel v v')
    (hargs : List.Forall₂ L.rel args args') :
    L.rel (v.unapply args).1 (v'.unapply args').1 ∧
      List.Forall₂ L.rel (v.unapply args).2 (v'.unapply args').2 := by
  cases v with
  | applied id callee bound =>
    cases L.view hv with
    | flat hflat => cases hflat
    | applied _ hcallee hbound =>
      have hinner := unapply_related hcallee (List.rel_append hbound hargs)
      exact hinner
  | _ => cases L.view hv <;> exact ⟨hv, hargs⟩

mutual

theorem same_eq {a b a' b' : Value} (ha : L.rel a a') (hb : L.rel b b') :
    a'.same b' = a.same b := by
  cases a with
  | list items =>
    cases L.view ha with
    | flat hflat => cases hflat
    | list hitems =>
      cases L.view hb with
      | list hitems' => exact sameAll_eq hitems hitems'
      | flat hflat => cases b <;> first | rfl | cases hflat
      | _ => rfl
  | tuple items =>
    cases L.view ha with
    | flat hflat => cases hflat
    | tuple hitems =>
      cases L.view hb with
      | tuple hitems' => exact sameAll_eq hitems hitems'
      | flat hflat => cases b <;> first | rfl | cases hflat
      | _ => rfl
  | record fields =>
    cases L.view ha with
    | flat hflat => cases hflat
    | record hfields =>
      cases L.view hb with
      | record hfields' => exact sameFields_eq hfields hfields'
      | flat hflat => cases b <;> first | rfl | cases hflat
      | _ => rfl
  | effect e =>
    cases L.view ha with
    | flat hbasic => cases hbasic
    | effect heffect =>
      cases L.view hb with
      | flat hbasic => cases b <;> first | rfl | cases hbasic
      | effect heffect' => exact L.beq_eq heffect.id heffect'.id
      | _ => rfl
  | _ =>
    cases L.view ha with
    | flat hbasic =>
      first
        | (cases hbasic; done)
        | cases L.view hb <;> rfl
    | _ =>
      cases L.view hb with
      | flat hbasic => cases b <;> first | rfl | cases hbasic
      | _ => first | rfl | exact L.beq_eq ‹_› ‹_›

theorem sameAll_eq {as bs as' bs' : List Value} (has : List.Forall₂ L.rel as as')
    (hbs : List.Forall₂ L.rel bs bs') : Value.sameAll as' bs' = Value.sameAll as bs := by
  match as, bs, has, hbs with
  | [], [], .nil, .nil => rfl
  | [], _ :: _, .nil, .cons _ _ => rfl
  | _ :: _, [], .cons _ _, .nil => rfl
  | a :: as, b :: bs, .cons ha has, .cons hb hbs =>
    simp only [Value.sameAll, same_eq ha hb, sameAll_eq has hbs]

theorem sameFields_eq {as bs as' bs' : List (Symbol × Value)} (has : Env.Related L.rel as as')
    (hbs : Env.Related L.rel bs bs') : Value.sameFields as' bs' = Value.sameFields as bs := by
  match as, bs, has, hbs with
  | [], [], .nil, .nil => rfl
  | [], _ :: _, .nil, .cons _ _ => rfl
  | _ :: _, [], .cons _ _, .nil => rfl
  | (s, a) :: as, (t, b) :: bs, .cons ha has, .cons hb hbs =>
    simp only [Value.sameFields, ← ha.1, ← hb.1, same_eq ha.2 hb.2, sameFields_eq has hbs]

end

theorem equals_eq {a b a' b' : Value} (ha : L.rel a a') (hb : L.rel b b') :
    a'.equals b' = a.equals b := by
  have hsame := same_eq ha hb
  cases L.view ha with
  | flat hflat =>
    cases L.view hb with
    | flat => rfl
    | _ => cases a <;> exact hsame
  | _ =>
    cases L.view hb with
    | flat => cases b <;> exact hsame
    | _ => exact hsame

end Likeness

/-- Outcomes are related values or the same failure. -/
def OutcomesRelated {α β : Type} (R : α → β → Prop) :
    Except RuntimeError α → Except RuntimeError β → Prop
  | .ok a, .ok b => R a b
  | .error e, .error e' => e' = e
  | _, _ => False

theorem OutcomesRelated.inv {α β : Type} {R : α → β → Prop} {x : Except RuntimeError α}
    {y : Except RuntimeError β} (h : OutcomesRelated R x y) :
    (∃ a b, x = .ok a ∧ y = .ok b ∧ R a b) ∨ ∃ e, x = .error e ∧ y = .error e := by
  cases x with
  | ok a =>
    cases y with
    | ok b => exact Or.inl ⟨a, b, rfl, rfl, h⟩
    | error e => exact h.elim
  | error e =>
    cases y with
    | ok b => exact h.elim
    | error e' => exact Or.inr ⟨e, rfl, congrArg _ h⟩

/-- Shared states whose tasks differ in related values only, and whose symbols and time are the same. -/
structure World.Whole (L : Likeness) (w w' : World) : Prop where
  results : List.Forall₂ (fun r r' => r'.1 = r.1 ∧ OutcomesRelated L.rel r.2 r'.2)
    w.tasks.results w'.tasks.results
  count : w'.tasks.count = w.tasks.count
  symbols : w'.supply.symbols = w.supply.symbols
  clock : w'.clock = w.clock

theorem World.Whole.congr {L : Likeness} {w w' x x' : World} (h : w.Whole L w')
    (hsame : (x.tasks, x.supply.symbols, x.clock) = (w.tasks, w.supply.symbols, w.clock))
    (hsame' : (x'.tasks, x'.supply.symbols, x'.clock) = (w'.tasks, w'.supply.symbols, w'.clock)) :
    x.Whole L x' := by
  simp only [Prod.mk.injEq] at hsame hsame'
  obtain ⟨htasks, hsymbols, hclock⟩ := hsame
  obtain ⟨htasks', hsymbols', hclock'⟩ := hsame'
  refine ⟨?_, ?_, ?_, ?_⟩
  · rw [htasks, htasks']
    exact h.results
  · rw [htasks, htasks']
    exact h.count
  · rw [hsymbols, hsymbols']
    exact h.symbols
  · rw [hclock, hclock']
    exact h.clock

/-- Shared states with related values, and with supplies and outputs that go together. -/
structure World.Related (L : Likeness) (w w' : World) : Prop where
  globals : ∀ s, Option.Rel L.rel (w.globals.get? s) (w'.globals.get? s)
  cells : List.Forall₂ L.rel w.cells.toList w'.cells.toList
  supply : L.supply w.supply.objects w'.supply.objects
  output : L.output w.output w'.output
  rest : L.whole = true → w.Whole L w'

namespace Likeness

variable {L : Likeness} {v v' : Value} {cells cells' : Array Value}

theorem getElem?_related {α : Type} {R : α → α → Prop} {xs ys : List α}
    (hrel : List.Forall₂ R xs ys) (i : Nat) : Option.Rel R xs[i]? ys[i]? := by
  induction hrel generalizing i with
  | nil => exact .none
  | cons hfirst _ ih =>
    cases i with
    | zero => exact .some hfirst
    | succ i => exact ih i

theorem getD_related {x y : Option Value} (hrel : Option.Rel L.rel x y) :
    L.rel (x.getD .none) (y.getD .none) := by
  cases hrel with
  | some hrel => exact hrel
  | none => exact L.flat rfl

theorem writeNested_eq {display display' : Value → StateM Rendering String}
    (hdisplay : ∀ {v v'}, L.rel v v' → display' v' = display v) (hv : L.rel v v') :
    Value.writeNested display' v' = Value.writeNested display v := by
  have htext := hdisplay hv
  cases L.view hv with
  | flat hflat =>
    cases v with
    | str s => rfl
    | _ => simp only [Value.writeNested, Value.writeShallow, htext]
  | _ => simp only [Value.writeNested, Value.writeShallow, htext]

/-- Values that look the same are written in the same way, if the values directly inside are. -/
theorem writeWith_eq {nested nested' : Value → StateM Rendering String}
    (hnested : ∀ {v v'}, L.rel v v' → nested' v' = nested v)
    (hcells : List.Forall₂ L.rel cells.toList cells'.toList) {v v' : Value} (hv : L.rel v v') :
    Value.writeWith cells' nested' v' = Value.writeWith cells nested v := by
  have hitems : ∀ {xs ys : List Value}, List.Forall₂ L.rel xs ys →
      ys.mapM nested' = xs.mapM nested := by
    intro xs ys hrel
    induction hrel with
    | nil => rfl
    | cons hfirst _ ih => rw [List.mapM_cons, List.mapM_cons, hnested hfirst, ih]
  cases L.view hv with
  | flat hflat =>
    cases v with
    | cell id =>
      have hcontent := getD_related (getElem?_related hcells id)
      simp only [Array.getElem?_toList] at hcontent
      simp only [Value.writeWith, Value.writeCell, hnested hcontent]
    | _ => first | rfl | cases hflat
  | list hrel => simp only [Value.writeWith, hitems hrel]
  | tuple hrel => simp only [Value.writeWith, hitems hrel, hrel.length_eq]
  | record hrel =>
    have hfields : ∀ {fs gs : List (Symbol × Value)}, Env.Related L.rel fs gs →
        (gs.mapM fun f => return f.1.name ++ ": " ++ (← nested' f.2)) =
          fs.mapM fun f => return f.1.name ++ ": " ++ (← nested f.2) := by
      intro fs gs hrel
      induction hrel with
      | nil => rfl
      | cons hfirst _ ih => rw [List.mapM_cons, List.mapM_cons, hfirst.1, hnested hfirst.2, ih]
    simp only [Value.writeWith, hfields hrel]
  | applied _ hcallee hbound =>
    simp only [Value.writeWith, writeWith_eq hnested hcells hcallee, hbound.length_eq]
  | effect heffect => simp only [Value.writeWith, Value.flatText, heffect.name]
  | closure _ hname hparams => simp only [Value.writeWith, Value.flatText, hname, Code.arity, hparams]
  | code _ hname => simp only [Value.writeWith, Value.flatText, hname]
  | handler _ hlength => simp only [Value.writeWith, Value.flatText, hlength]
  | _ => rfl
termination_by v

theorem writeWithin_eq (hcells : List.Forall₂ L.rel cells.toList cells'.toList) (room : Nat)
    {v v' : Value} (hv : L.rel v v') :
    Value.writeWithin cells' room v' = Value.writeWithin cells room v := by
  induction room generalizing v v' with
  | zero => exact writeWith_eq (writeNested_eq fun _ => rfl) hcells hv
  | succ room ih => exact writeWith_eq (writeNested_eq ih) hcells hv

theorem renderOver_eq (hcells : List.Forall₂ L.rel cells.toList cells'.toList) (hv : L.rel v v') :
    v'.renderOver cells' = v.renderOver cells := by
  rw [Value.renderOver, Value.write, writeWithin_eq hcells _ hv]
  rfl

end Likeness

namespace Env

variable {L : Likeness} {env env' : Env Value} {v v' : Value}

theorem Related.get? (henv : Related L.rel env env') (name : Symbol) :
    Option.Rel L.rel (Env.get? env name) (Env.get? env' name) := by
  induction henv with
  | nil => exact .none
  | @cons b b' env env' hfirst _ ih =>
    obtain ⟨hname, hvalue⟩ := hfirst
    simp only [Env.get?, List.find?_cons, ← hname] at ih ⊢
    cases b.1 == name with
    | true => exact .some hvalue
    | false => exact ih

theorem Related.set? (henv : Related L.rel env env') (name : Symbol) (hv : L.rel v v') :
    Option.Rel (Related L.rel) (Env.set? env name v) (Env.set? env' name v') := by
  have hany : (env'.any fun b => b.1 == name) = env.any fun b => b.1 == name := by
    induction henv with
    | nil => rfl
    | cons hfirst _ ih => rw [List.any_cons, List.any_cons, ih, hfirst.1]
  have hmap : Related L.rel (env.map fun b => if b.1 == name then (b.1, v) else b)
      (env'.map fun b => if b.1 == name then (b.1, v') else b) := by
    clear hany
    induction henv with
    | nil => exact .nil
    | @cons b b' env env' hfirst _ ih =>
      refine .cons ?_ ih
      simp only [← hfirst.1]
      split
      · exact ⟨rfl, hv⟩
      · exact hfirst
  simp only [Env.set?, hany]
  split
  · exact .some hmap
  · exact .none

theorem Related.define (henv : Related L.rel env env') (name : Symbol) (hv : L.rel v v') :
    Related L.rel (Env.define env name v) (Env.define env' name v') := by
  have hset := henv.set? name hv
  simp only [Env.define]
  generalize Env.set? env name v = x at hset
  generalize Env.set? env' name v' = y at hset
  cases hset with
  | some hset => exact hset
  | none => exact List.rel_append henv (.cons ⟨rfl, hv⟩ .nil)

end Env

namespace World.Related

variable {L : Likeness} {w w' : World} {v v' : Value}

theorem render_eq (hw : w.Related L w') (hv : L.rel v v') : w'.render v' = w.render v :=
  Likeness.renderOver_eq hw.cells hv

theorem setGlobal (hw : w.Related L w') (s : Symbol) (hv : L.rel v v') :
    { w with globals := w.globals.set s v }.Related L { w' with globals := w'.globals.set s v' } := by
  refine ⟨?_, hw.cells, hw.supply, hw.output, fun hwhole => (hw.rest hwhole).congr rfl rfl⟩
  intro t
  simp only [Globals.get?_set]
  split
  · exact .some hv
  · exact hw.globals t

/-- Fresh identities correspond. -/
theorem draw (hw : w.Related L w') :
    L.ids w.draw.1 w'.draw.1 ∧ w.draw.2.Related L w'.draw.2 := by
  obtain ⟨hid, hsupply⟩ := L.fresh hw.supply
  exact ⟨hid, hw.globals, hw.cells, hsupply, hw.output, fun hwhole =>
    (hw.rest hwhole).congr rfl rfl⟩

/-- Fresh identities are the same if all are. -/
theorem draw_eq (hw : w.Related L w') (hexact : L.toCorrespondence = .exact) :
    w'.draw.1 = w.draw.1 ∧ w.draw.2.Related L w'.draw.2 := by
  obtain ⟨hid, hdrawn⟩ := hw.draw
  rw [hexact] at hid
  exact ⟨hid.symm, hdrawn⟩

/-- A new task has the same number in both. -/
theorem drawTask (hw : w.Related L w') (hwhole : L.whole = true) :
    w'.tasks.draw.1 = w.tasks.draw.1 ∧ { w with tasks := w.tasks.draw.2 }.Related L
      { w' with tasks := w'.tasks.draw.2 } := by
  obtain ⟨hresults, hcount, hsymbols, hclock⟩ := hw.rest hwhole
  refine ⟨?_, hw.globals, hw.cells, hw.supply, hw.output, fun _ => ⟨hresults, ?_, hsymbols, hclock⟩⟩
  · simp only [Tasks.draw, hcount]
  · simp only [Tasks.draw, hcount]

/-- The result of a task is kept. -/
theorem storeResult {result result' : Except RuntimeError Value} (hw : w.Related L w') (id : Int)
    (hresult : OutcomesRelated L.rel result result') :
    { w with tasks := w.tasks.store id result }.Related L
      { w' with tasks := w'.tasks.store id result' } :=
  ⟨hw.globals, hw.cells, hw.supply, hw.output, fun hwhole =>
    have ⟨hresults, hcount, hsymbols, hclock⟩ := hw.rest hwhole
    ⟨.cons ⟨rfl, hresult⟩ hresults, hcount, hsymbols, hclock⟩⟩

end World.Related

end Resumable
