import Resumable.Proofs.Machine.Likeness
import Resumable.Proofs.Meaning.Awaits

/-!
What values, functions and activations of the machine mean. Data means data item by item, a function of
the machine means the function with its identity if its code is that of the body and it has captured
what the body mentions, and a suspended computation means the activities with its identity. An
activation means an activity if each local that the program can mention has its value in its slot.
-/

namespace Resumable.Meaning

/-- The slots of an activation hold the values of the visible locals. Each of the other slots holds some
value that means something. Where a choice is made, the first two are the payload and the
continuation. -/
structure Holds (R : Value → Value → Prop) (G : Ground) (choosing : Choosing) (code : Code Value)
    (Γ : Lexical) (slots : Array Value) (locals : Env Value) : Prop where
  room : Γ.locals.length ≤ code.localCount
  size : code.localCount ≤ slots.size
  dense : DenseSlots Γ.locals
  shown : List.Forall₂ (fun l b => b.1 = l.name ∧ ∃ w, slots[l.slot]? = some w ∧ R b.2 w)
    (G.shown Γ.locals) locals
  stocked : ∀ (i : Nat) (w : Value), slots[i]? = some w → ∃ v, R v w
  based : ∀ r p, choosing = some (r, p) → ∃ base, Based G p base ∧ base <:+ Γ.locals
  payload : ∀ r p, choosing = some (r, p) → ∃ w, slots[0]? = some w ∧ R r.payload w
  k : ∀ r p, choosing = some (r, p) → ∃ w, slots[1]? = some w ∧ R r.k w

/-- A function has captured what its code mentions of the bindings around it, and the names that are
visible around it are those that are bound there. -/
structure Copied (R : Value → Value → Prop) (G : Ground) (code : Code Value) (Γ : Lexical)
    (env captured : Env Value) : Prop where
  bound : ∀ s, code.Captures s → ∃ w, Env.get? env s = some w
  outer : ∀ s, G.shows s = true → Γ.isOuter s = binds captured s
  values : ∀ s w, G.shows s = true → code.Captures s → Env.get? env s = some w →
    ∃ v, Env.get? captured s = some v ∧ R v w

/-- The code of a choice has captured its effect if it mentions it. -/
def CapturesEffect (G : Ground) (p : PathFunction) (code : Code Value) (env : Env Value)
    (effect : Effect) : Prop :=
  ∀ s, G.reading.names.find? p.effect = some s → code.Captures s →
    Env.get? env s = some (.effect effect)

/-- All functions in some code are laid out. -/
abbrev Ground.Covers (G : Ground) (code : Code Value) : Prop :=
  FunctionsLaidOut (fun _ => True) G.reading.options G.reading.names code

/-- The code of a function and what it has captured. -/
structure FunctionIn (R : Value → Value → Prop) (G : Ground) (Γ : Lexical) (F : Function)
    (f : Code Value) (env : Env Value) : Prop where
  reading : F.reading = G.reading
  params : f.params = F.params
  selfName : f.selfName = F.selfName
  shown : ∀ s ∈ f.params ++ f.selfName.toList, G.shows s = true
  room : f.params.length + f.selfName.toList.length ≤ f.localCount
  covers : G.Covers f
  body : ∃ Γ' n line, Laid G f (Γ.bodyOf f) true F.body 0 Γ' n ∧ f.At n .ret 0 line
  copied : Copied R G f (Γ.bodyOf f) env F.captured

/-- The code of a choice and what it has captured. -/
structure ChoiceIn (R : Value → Value → Prop) (G : Ground) (Γ : Lexical) (p : PathFunction)
    (choice : Choice) (effect : Effect) (f : Code Value) (env : Env Value) : Prop where
  params : ∃ s t, G.reading.names.find? p.arg = some s ∧ G.reading.names.find? p.k = some t ∧
    f.params = [s, t]
  selfName : f.selfName = none
  room : 2 ≤ f.localCount
  covers : G.Covers f
  tries : LaidTries G f (Γ.bodyOf f) p choice choice.clauses 0
  copied : Copied R G f (Γ.bodyOf f) env choice.captured
  effect : CapturesEffect G p f env effect

/-- A function of the machine does what a function does. -/
def FunctionMeans (R : Value → Value → Prop) (F : Function) (f : Code Value) (env : Env Value) :
    Prop :=
  ∃ G Γ, FunctionIn R G Γ F f env

/-- A clause of a handler makes a choice about an effect. -/
def ChoiceMeans (R : Value → Value → Prop) (c : Effect × Choice) (c' : Effect × Value) : Prop :=
  c'.1 = c.1 ∧ ∃ id f env, c'.2 = .closure id f env ∧ ∃ G Γ p, ChoiceIn R G Γ p c.2 c.1 f env

/-- The clauses of a handler make the choices of a handler. -/
def HandlerMeans (R : Value → Value → Prop) :
    Option (List (Effect × Choice)) → Option (List (Effect × Value) × Nat) → Prop :=
  Option.Rel fun choices bound => List.Forall₂ (ChoiceMeans R) choices bound.1

/-- An activation has the bindings, the operands and the handler of an activity, and further values on
top. -/
structure Bears (R : Value → Value → Prop) (G : Ground) (choosing : Choosing) (Γ : Lexical)
    (extra : List Value) (a : Activity) (b : Activation) : Prop where
  reading : a.reading = G.reading
  covers : G.Covers b.code
  locals : Holds R G choosing b.code Γ b.locals a.locals
  copied : Copied R G b.code Γ b.env a.captured
  effect : ∀ r p, choosing = some (r, p) → CapturesEffect G p b.code b.env r.effect
  operands : List.Forall₂ R (a.held ++ extra) b.operands
  handler : HandlerMeans R a.handler b.handler

/-- The values that are on top of what is held. -/
def Control.extra : Control → List Value
  | .give v => [v]
  | .call _ callee args => args ++ [callee]
  | _ => []

/-- An activation that waits for a value as an activity does. -/
def Waits (R : Value → Value → Prop) (a : Activity) (b : Activation) : Prop :=
  ∃ G choosing Γ, Bears R G choosing Γ [] a b ∧
    Awaits G b.code a.isProgram choosing Γ b.ip a.contexts

/-- An activation that is about to do what is to be done next. -/
def Runs (R : Value → Value → Prop) (control : Control) (a : Activity) (b : Activation) : Prop :=
  ∃ G choosing Γ, Bears R G choosing Γ control.extra a b ∧
    Stands G b.code a.isProgram choosing Γ b.ip a.contexts control

/-- The activations of a suspended computation, the innermost of which is the last one. The first one
has the handler at which it was cut. -/
def PartMeans (R : Value → Value → Prop) (part : List Activity) (k : Continuation Value) : Prop :=
  ∃ b above, k = .ofActs (b :: above) ∧ b.handler.isSome = true ∧
    List.Forall₂ (Waits R) part (b :: above).reverse

/-- What values hold that do not show it. There are no functions of an embedding, and handlers and code
are no values of programs. -/
def InnerMeans (μ : Memory) (R : Value → Value → Prop) : Value → Value → Prop
  | .closure id _ _, .closure _ f env =>
    ∃ F, μ.functions.lookup id = some F ∧ FunctionMeans R F f env
  | .native _ _ _ function, _ => ∀ h, function ≠ .hook h
  | .continuation id _, .continuation _ k =>
    ∃ part, μ.continuations.lookup id = some part ∧ PartMeans R part k
  | .handler _ _, _ | .code _ _, _ => False
  | _, _ => True

/-- A value of the machine means a value, if those that it holds mean what `R` says. -/
structure MeansWith (μ : Memory) (R : Value → Value → Prop) (v w : Value) : Prop where
  alike : v.Alike Eq R w
  inner : InnerMeans μ R v w

/-- A value of the machine means a value, to any depth. -/
def Means (μ : Memory) (v w : Value) : Prop :=
  ∃ R : Value → Value → Prop, (∀ {u u'}, R u u' → MeansWith μ R u u') ∧ R v w

/-- Functions and suspended computations do what they did. -/
structure Memory.Grows (μ μ' : Memory) : Prop where
  functions : ∀ id F, μ.functions.lookup id = some F → μ'.functions.lookup id = some F
  continuations : ∀ id part, μ.continuations.lookup id = some part →
    μ'.continuations.lookup id = some part

section Mono

variable {R R' : Value → Value → Prop} (hle : ∀ {v w}, R v w → R' v w)

include hle

theorem Holds.mono {G : Ground} {choosing : Choosing} {code : Code Value} {Γ : Lexical}
    {slots : Array Value} {locals : Env Value} (h : Holds R G choosing code Γ slots locals) :
    Holds R' G choosing code Γ slots locals :=
  { h with
    shown := h.shown.imp fun _ _ ⟨hname, w, hw, hrel⟩ => ⟨hname, w, hw, hle hrel⟩
    stocked := fun i w hw => (h.stocked i w hw).imp fun _ => hle
    payload := fun r p hchoosing => (h.payload r p hchoosing).imp fun _ hw => ⟨hw.1, hle hw.2⟩
    k := fun r p hchoosing => (h.k r p hchoosing).imp fun _ hw => ⟨hw.1, hle hw.2⟩ }

theorem Copied.mono {G : Ground} {code : Code Value} {Γ : Lexical} {env captured : Env Value}
    (h : Copied R G code Γ env captured) : Copied R' G code Γ env captured :=
  { h with
    values := fun s w hs hcaptures hget =>
      (h.values s w hs hcaptures hget).imp fun _ hv => ⟨hv.1, hle hv.2⟩ }

theorem FunctionMeans.mono {F : Function} {f : Code Value} {env : Env Value}
    (h : FunctionMeans R F f env) : FunctionMeans R' F f env := by
  obtain ⟨G, Γ, hin⟩ := h
  exact ⟨G, Γ, { hin with copied := hin.copied.mono hle }⟩

theorem ChoiceMeans.mono {c : Effect × Choice} {c' : Effect × Value} (h : ChoiceMeans R c c') :
    ChoiceMeans R' c c' := by
  obtain ⟨hsame, id, f, env, hclosure, G, Γ, p, hin⟩ := h
  exact ⟨hsame, id, f, env, hclosure, G, Γ, p, { hin with copied := hin.copied.mono hle }⟩

theorem HandlerMeans.mono {choices : Option (List (Effect × Choice))}
    {bound : Option (List (Effect × Value) × Nat)} (h : HandlerMeans R choices bound) :
    HandlerMeans R' choices bound := by
  cases h with
  | none => exact .none
  | some hchoices => exact .some (hchoices.imp fun _ _ => ChoiceMeans.mono hle)

theorem Bears.mono {G : Ground} {choosing : Choosing} {Γ : Lexical} {extra : List Value}
    {a : Activity} {b : Activation} (h : Bears R G choosing Γ extra a b) :
    Bears R' G choosing Γ extra a b :=
  { h with
    locals := h.locals.mono hle
    copied := h.copied.mono hle
    operands := h.operands.imp fun _ _ => hle
    handler := h.handler.mono hle }

theorem Waits.mono {a : Activity} {b : Activation} (h : Waits R a b) : Waits R' a b := by
  obtain ⟨G, choosing, Γ, hbears, hawaits⟩ := h
  exact ⟨G, choosing, Γ, hbears.mono hle, hawaits⟩

theorem Runs.mono {control : Control} {a : Activity} {b : Activation} (h : Runs R control a b) :
    Runs R' control a b := by
  obtain ⟨G, choosing, Γ, hbears, hstands⟩ := h
  exact ⟨G, choosing, Γ, hbears.mono hle, hstands⟩

theorem PartMeans.mono {part : List Activity} {k : Continuation Value} (h : PartMeans R part k) :
    PartMeans R' part k := by
  obtain ⟨b, above, hk, hb, hacts⟩ := h
  exact ⟨b, above, hk, hb, hacts.imp fun _ _ => Waits.mono hle⟩

theorem InnerMeans.mono {μ : Memory} {v w : Value} (h : InnerMeans μ R v w) : InnerMeans μ R' v w := by
  unfold InnerMeans at h ⊢
  split
  next => exact h.imp fun F hF => ⟨hF.1, hF.2.mono hle⟩
  next => exact h
  next => exact h.imp fun part hpart => ⟨hpart.1, hpart.2.mono hle⟩
  next => exact h
  next => exact h
  next => trivial

theorem MeansWith.mono {μ : Memory} {v w : Value} (h : MeansWith μ R v w) : MeansWith μ R' v w :=
  ⟨h.alike.mono hle, h.inner.mono hle⟩

end Mono

variable {μ μ' : Memory} {v w : Value}

theorem Means.unfold (h : Means μ v w) : MeansWith μ (Means μ) v w := by
  obtain ⟨R, hclosed, hrel⟩ := h
  exact (hclosed hrel).mono fun hu => ⟨R, hclosed, hu⟩

theorem Means.fold (h : MeansWith μ (Means μ) v w) : Means μ v w :=
  ⟨MeansWith μ (Means μ), fun hu => hu.mono Means.unfold, h⟩

theorem innerMeans_of_isData {R : Value → Value → Prop} (hdata : v.isData = true) :
    InnerMeans μ R v w := by
  cases v <;> trivial

/-- Values look like what they mean. -/
def meaning (μ : Memory) : Likeness where
  toCorrespondence := .exact
  rel := Means μ
  view := fun h => h.unfold.alike
  data := fun hdata _ h => .fold ⟨h, innerMeans_of_isData hdata⟩
  applied := fun hid hcallee hbound => .fold ⟨.applied hid hcallee hbound, trivial⟩

/-- Names of fields mean themselves. -/
theorem means_symbol (s : Symbol) : Means μ (.symbol s) (.symbol s) :=
  .fold ⟨.flat rfl, trivial⟩

theorem Memory.Grows.refl (μ : Memory) : μ.Grows μ :=
  ⟨fun _ _ h => h, fun _ _ h => h⟩

theorem Memory.Grows.trans {μ'' : Memory} (h : μ.Grows μ') (h' : μ'.Grows μ'') : μ.Grows μ'' :=
  ⟨fun id F hF => h'.functions id F (h.functions id F hF),
    fun id part hpart => h'.continuations id part (h.continuations id part hpart)⟩

/-- What a value means does not change when more functions and suspended computations are made. -/
theorem Means.grow (hgrows : μ.Grows μ') (h : Means μ v w) : Means μ' v w := by
  obtain ⟨R, hclosed, hrel⟩ := h
  refine ⟨R, fun {u u'} hu => ⟨(hclosed hu).alike, ?_⟩, hrel⟩
  have hinner := (hclosed hu).inner
  unfold InnerMeans at hinner ⊢
  split
  next => exact hinner.imp fun F hF => ⟨hgrows.functions _ _ hF.1, hF.2⟩
  next => exact hinner
  next => exact hinner.imp fun part hpart => ⟨hgrows.continuations _ _ hpart.1, hpart.2⟩
  next => exact hinner
  next => exact hinner
  next => trivial

end Resumable.Meaning
