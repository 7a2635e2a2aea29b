import Mathlib.Data.List.Forall2
import Resumable.Proofs.Expr.Parts
import Resumable.Proofs.Meaning.Step

/-!
A name whose declaration is passed over is bound to a value of which nothing is known, until a value is
stored to it. Here such a name is left unset instead: it is bound to a mark. The evaluation with marks is
a sketch of every evaluation that takes other values: its states have the same bindings but for those that
are marked.
-/

namespace Resumable

/-- Lists of entries with the same keys in the same order, whose contents are related. -/
def Entrywise {κ α β : Type} (R : α → β → Prop) : List (κ × α) → List (κ × β) → Prop :=
  List.Forall₂ fun x y => x.1 = y.1 ∧ R x.2 y.2

namespace Entrywise

variable {κ α β : Type} {R : α → β → Prop} {xs : List (κ × α)} {ys : List (κ × β)}

theorem refl {R : α → α → Prop} (hrefl : ∀ x, R x x) (xs : List (κ × α)) : Entrywise R xs xs :=
  List.forall₂_same.2 fun x _ => ⟨rfl, hrefl x.2⟩

/-- The first entries whose keys satisfy a predicate are related. -/
theorem find? (h : Entrywise R xs ys) (p : κ → Bool) :
    Option.Rel (fun x y => x.1 = y.1 ∧ R x.2 y.2) (xs.find? fun x => p x.1) (ys.find? fun y => p y.1) := by
  induction h with
  | nil => exact .none
  | cons hxy _ ih =>
    rw [List.find?_cons, List.find?_cons, ← hxy.1]
    split
    · exact .some hxy
    · exact ih

theorem lookup [BEq κ] (h : Entrywise R xs ys) (key : κ) :
    Option.Rel R (xs.lookup key) (ys.lookup key) := by
  induction h with
  | nil => exact .none
  | @cons x y _ _ hxy _ ih =>
    obtain ⟨hkey, hcontent⟩ := hxy
    rw [List.lookup_cons, List.lookup_cons, ← hkey]
    split
    · exact .some hcontent
    · exact ih

/-- The same keys occur. -/
theorem any_key (h : Entrywise R xs ys) (p : κ → Bool) : (ys.any fun y => p y.1) = xs.any fun x => p x.1 := by
  induction h with
  | nil => rfl
  | cons hxy _ ih => rw [List.any_cons, List.any_cons, ih, hxy.1]

/-- Keys are given the related contents. -/
theorem zip (keys : List κ) {xs : List α} {ys : List β} (h : List.Forall₂ R xs ys) :
    Entrywise R (keys.zip xs) (keys.zip ys) := by
  induction h generalizing keys with
  | nil => cases keys <;> exact .nil
  | cons hxy _ ih =>
    cases keys with
    | nil => exact .nil
    | cons key keys => exact .cons ⟨rfl, hxy⟩ (ih keys)

end Entrywise

namespace Meaning

/-- What a name is bound to that has been passed over, until a value is stored to it. No label is a value
of an evaluation, since its handlers have none. -/
def unset : Value := .label 0

/-- The names whose declarations are passed over when contexts are given a value. -/
def passedBy (v : Value) : List Context → List String
  | .test whenTrue _ :: _ => if v.isTruthy then [] else whenTrue.declares
  | .passing names :: _ => names
  | _ => []

/-- The names whose declarations the next step passes over. -/
def State.passed (σ : State) : List String :=
  match σ.control, σ.acts with
  | .give v, a :: _ => passedBy v a.contexts
  | _, _ => []

/-- One step that leaves unset what it passes over. -/
def State.stepUnset (σ : State) : Next :=
  σ.step (σ.passed.map fun _ => unset)

/-- What a number of steps leads to that leave unset what they pass over. -/
def Next.afterUnset : Nat → Next → Next
  | 0, next => next
  | n + 1, .more σ => afterUnset n σ.stepUnset
  | _ + 1, .ended outcome memory => .ended outcome memory

/-- Whether a name has a binding that is unset. -/
def isUnset : Option Value → Bool
  | some (.label 0) => true
  | _ => false

namespace Activity

/-- Whether the name that a path starts with is unset. -/
def startsUnset (a : Activity) : Expr → Bool
  | .name _ name => isUnset (Env.get? a.visible (a.reading.symbol name))
  | .field _ target _ => a.startsUnset target
  | _ => false

/-- Whether one of some paths starts with a name that is unset, and those before it have values. -/
def someStartsUnset (a : Activity) (globals : Globals) : List Expr → Bool
  | [] => false
  | e :: es => a.startsUnset e || (a.path globals e matches .ok _) && a.someStartsUnset globals es

/-- Whether the first step of an expression reads a name that is unset: the expression is that name, or a
handler with such a name in a path. -/
def readsUnset (a : Activity) (globals : Globals) : Expr → Bool
  | .name _ name => isUnset (Env.get? a.visible (a.reading.symbol name))
  | .handle _ _ clauses => a.someStartsUnset globals ((firstClauses clauses).map Clause.effect)
  | _ => false

end Activity

/-- Whether the next step reads a name that is unset. -/
def State.readsUnset (σ : State) : Bool :=
  match σ.control, σ.acts with
  | .eval e, a :: _ => a.readsUnset σ.memory.world.globals e
  | _, _ => false

/-! ### Sketches -/

/-- Bindings of the same names, with the same values but where those of the first are unset. -/
def EnvSketches : Env Value → Env Value → Prop :=
  Entrywise fun v w => v = unset ∨ v = w

/-- Functions that are the same but for unset bindings. -/
inductive Function.Sketches : Function → Function → Prop
  | mk (reading : Reading) (selfName : Option Symbol) (params : List Symbol) (body : Expr)
    {ρ ρ' : Env Value} (h : EnvSketches ρ ρ') :
    Sketches ⟨reading, selfName, params, body, ρ⟩ ⟨reading, selfName, params, body, ρ'⟩

/-- Choices that are the same but for unset bindings. -/
inductive Choice.Sketches : Choice → Choice → Prop
  | mk (reading : Reading) (line : Nat) (clauses : List (Clause Expr)) {ρ ρ' : Env Value}
    (h : EnvSketches ρ ρ') : Sketches ⟨reading, line, clauses, ρ⟩ ⟨reading, line, clauses, ρ'⟩

/-- Effects that are raised with the same payload and continuation, where choices are the same but for
unset bindings. -/
inductive Raised.Sketches : Raised → Raised → Prop
  | mk {choice choice' : Choice} (h : choice.Sketches choice') (effect : Effect) (payload k : Value) :
    Sketches ⟨choice, effect, payload, k⟩ ⟨choice', effect, payload, k⟩

/-- Contexts that are the same but for unset bindings. -/
inductive Context.Sketches : Context → Context → Prop
  | refl (c : Context) : Sketches c c
  | guard {r r' : Raised} (h : r.Sketches r') (clause : Clause Expr) (rest : List (Clause Expr)) :
    Sketches (.guard r clause rest) (.guard r' clause rest)

/-- Activities that are the same but for unset bindings. -/
structure Activity.Sketches (a a' : Activity) : Prop where
  reading : a'.reading = a.reading
  isProgram : a'.isProgram = a.isProgram
  locals : EnvSketches a.locals a'.locals
  captured : EnvSketches a.captured a'.captured
  contexts : List.Forall₂ Context.Sketches a.contexts a'.contexts
  handler : Option.Rel (Entrywise Choice.Sketches) a.handler a'.handler

/-- The same activities but for unset bindings. -/
abbrev ActsSketch : List Activity → List Activity → Prop :=
  List.Forall₂ Activity.Sketches

/-- The same shared state, with functions and suspended computations that are the same but for unset
bindings. -/
structure Memory.Sketches (μ μ' : Memory) : Prop where
  world : μ'.world = μ.world
  functions : Entrywise Function.Sketches μ.functions μ'.functions
  continuations : Entrywise ActsSketch μ.continuations μ'.continuations

/-- States that are the same but for unset bindings. -/
structure State.Sketches (σ σ' : State) : Prop where
  memory : σ.memory.Sketches σ'.memory
  limits : σ'.limits = σ.limits
  acts : ActsSketch σ.acts σ'.acts
  control : σ'.control = σ.control
  waiting : Entrywise ActsSketch σ.waiting σ'.waiting

/-- Steps that lead to the same but for unset bindings. -/
inductive Next.Sketches : Next → Next → Prop
  | more {σ σ' : State} (h : σ.Sketches σ') : Sketches (.more σ) (.more σ')
  | ended (outcome : Outcome) {μ μ' : Memory} (h : μ.Sketches μ') :
    Sketches (.ended outcome μ) (.ended outcome μ')

namespace EnvSketches

variable {ρ ρ' : Env Value}

theorem refl (ρ : Env Value) : EnvSketches ρ ρ :=
  Entrywise.refl (R := fun v w => v = unset ∨ v = w) (fun _ => Or.inr rfl) ρ

theorem append {ρ₁ ρ₁' : Env Value} (h : EnvSketches ρ ρ') (h₁ : EnvSketches ρ₁ ρ₁') :
    EnvSketches (ρ ++ ρ₁) (ρ' ++ ρ₁') :=
  List.rel_append h h₁

/-- A name that is not unset has the same value. -/
theorem get?_eq {s : Symbol} (h : EnvSketches ρ ρ') (hset : isUnset (Env.get? ρ s) = false) :
    Env.get? ρ' s = Env.get? ρ s := by
  have hfind := h.find? fun t => t == s
  rw [Env.get?] at hset
  rw [Env.get?, Env.get?]
  generalize ρ.find? (fun b => b.1 == s) = found at hset hfind ⊢
  generalize ρ'.find? (fun b => b.1 == s) = found' at hfind ⊢
  cases hfind with
  | none => rfl
  | @some b b' hb =>
    obtain ⟨-, hunset | hsame⟩ := hb
    · rw [Option.map_some, hunset] at hset
      cases hset
    · exact congrArg some hsame.symm

theorem binds_eq (h : EnvSketches ρ ρ') (s : Symbol) : binds ρ' s = binds ρ s :=
  h.any_key fun t => t == s

/-- After a value has been stored to a name, it is no longer unset. -/
theorem assign (h : EnvSketches ρ ρ') (s : Symbol) (v : Value) :
    EnvSketches (assign s v ρ) (assign s v ρ') := by
  induction h with
  | nil => exact .nil
  | cons hb hrest ih =>
    rw [Meaning.assign, Meaning.assign, ← hb.1]
    split
    · exact .cons ⟨rfl, Or.inr rfl⟩ hrest
    · exact .cons hb ih

/-- Names that are left unset sketch them with any values. -/
theorem unset_zip (names : List Symbol) {values : List Value} (hlength : names.length ≤ values.length) :
    EnvSketches (names.zip (names.map fun _ => unset)) (names.zip values) := by
  induction names generalizing values with
  | nil => exact .nil
  | cons s names ih =>
    cases values with
    | nil => cases hlength
    | cons v values => exact .cons ⟨rfl, Or.inl rfl⟩ (ih (Nat.le_of_succ_le_succ hlength))

end EnvSketches

namespace Function.Sketches

variable {f f' : Function}

/-- A function that is called starts with the same bindings of its own. -/
theorem activity (h : f.Sketches f') (callee : Value) (args : List Value)
    {handler handler' : Option (List (Effect × Choice))}
    (hhandler : Option.Rel (Entrywise Choice.Sketches) handler handler') :
    (f.activity callee args handler).Sketches (f'.activity callee args handler') := by
  cases h with
  | mk reading selfName params body h => exact ⟨rfl, rfl, .refl _, h, .nil, hhandler⟩

theorem body_eq (h : f.Sketches f') : f'.body = f.body := by
  cases h
  rfl

end Function.Sketches

namespace Context.Sketches

variable {c c' : Context}

theorem isTransparent_eq (h : c.Sketches c') : c'.isTransparent = c.isTransparent := by
  cases h <;> rfl

theorem isScope_eq (h : c.Sketches c') : c'.isScope = c.isScope := by
  cases h <;> rfl

theorem held_eq (h : c.Sketches c') : c'.held = c.held := by
  cases h <;> rfl

end Context.Sketches

namespace Activity.Sketches

variable {a a' : Activity}

theorem inTail_eq (h : a.Sketches a') : a'.inTail = a.inTail := by
  have hall : ∀ cs : List Context, cs.all Context.isTransparent = (cs.map Context.isTransparent).all id :=
    fun cs => (List.all_map (f := Context.isTransparent) (p := id) (l := cs)).symm
  rw [inTail, inTail, hall, hall, map_eq_of_forall₂ (h.contexts.imp fun _ _ hc => hc.isTransparent_eq)]

theorem isGlobal_eq (h : a.Sketches a') : a'.isGlobal = a.isGlobal := by
  have hany : ∀ cs : List Context, cs.any Context.isScope = (cs.map Context.isScope).any id :=
    fun cs => (List.any_map (f := Context.isScope) (p := id) (l := cs)).symm
  rw [isGlobal, isGlobal, hany, hany, h.isProgram,
    map_eq_of_forall₂ (h.contexts.imp fun _ _ hc => hc.isScope_eq)]

theorem height_eq (h : a.Sketches a') : a'.height = a.height := by
  have hheld : a'.held = a.held := by
    rw [held, held, List.flatMap_def, List.flatMap_def, List.map_reverse, List.map_reverse,
      map_eq_of_forall₂ (h.contexts.imp fun _ _ hc => hc.held_eq)]
  have hmark : a'.handler.toList.length = a.handler.toList.length := by
    have hhandler := h.handler
    generalize a.handler = handler at hhandler ⊢
    generalize a'.handler = handler' at hhandler ⊢
    cases hhandler <;> rfl
  rw [height, height, hheld, hmark]

theorem visible (h : a.Sketches a') : EnvSketches a.visible a'.visible :=
  h.locals.append h.captured

/-- A name that is not unset is read alike. -/
theorem read_eq (h : a.Sketches a') (globals : Globals) {s : Symbol}
    (hset : isUnset (Env.get? a.visible s) = false) : a'.read globals s = a.read globals s := by
  rw [read, read, h.visible.get?_eq hset]

/-- A path that does not start with a name that is unset has the same value. -/
theorem path_eq (h : a.Sketches a') (globals : Globals) {e : Expr} (hset : a.startsUnset e = false) :
    a'.path globals e = a.path globals e := by
  cases e with
  | name line name =>
    rw [path, path, h.reading, h.read_eq globals hset]
  | field line target name =>
    rw [path, path, h.reading, path_eq h globals (e := target) hset]
  | _ => rfl

theorem paths_eq (h : a.Sketches a') (globals : Globals) {es : List Expr}
    (hset : a.someStartsUnset globals es = false) : a'.paths globals es = a.paths globals es := by
  induction es with
  | nil => rfl
  | cons e es ih =>
    rw [someStartsUnset, Bool.or_eq_false_iff] at hset
    rw [paths, paths, h.path_eq globals hset.1]
    cases hpath : a.path globals e with
    | error => rfl
    | ok v =>
      have hbehind : a.someStartsUnset globals es = false := by simpa [hpath] using hset.2
      rw [ih hbehind]

theorem withContexts (h : a.Sketches a') {cs cs' : List Context} (hcs : List.Forall₂ Context.Sketches cs cs') :
    ({ a with contexts := cs } : Activity).Sketches { a' with contexts := cs' } :=
  { h with contexts := hcs }

theorem withLocals (h : a.Sketches a') {ρ ρ' : Env Value} (hρ : EnvSketches ρ ρ') :
    ({ a with locals := ρ } : Activity).Sketches { a' with locals := ρ' } :=
  { h with locals := hρ }

theorem withCaptured (h : a.Sketches a') {ρ ρ' : Env Value} (hρ : EnvSketches ρ ρ') :
    ({ a with captured := ρ } : Activity).Sketches { a' with captured := ρ' } :=
  { h with captured := hρ }

theorem wait (h : a.Sketches a') (c : Context) : (a.wait c).Sketches (a'.wait c) :=
  h.withContexts (.cons (.refl c) h.contexts)

/-- Names that are passed over are left unset, and may have any values. -/
theorem pass (h : a.Sketches a') (names : List String) (fill : List Value) :
    (a.pass (names.map fun _ => unset) names).Sketches (a'.pass fill names) := by
  have hlength : names.length ≤ (fill ++ List.replicate (names.length - fill.length) Value.none).length := by
    rw [List.length_append, List.length_replicate]
    omega
  have hmarks : (names.map fun _ => unset) ++
      List.replicate (names.length - (names.map fun _ => unset).length) Value.none =
        (names.map a.reading.symbol).map fun _ => unset := by
    simp [Function.comp_def]
  rw [Activity.pass, Activity.pass, h.isGlobal_eq, h.reading, hmarks]
  split
  · exact h
  · have hzip := EnvSketches.unset_zip (names.map a.reading.symbol) (by rwa [List.length_map])
    exact ⟨rfl, h.isProgram, .append (List.rel_reverse hzip) h.locals, h.captured, h.contexts, h.handler⟩

end Activity.Sketches

end Meaning

end Resumable
