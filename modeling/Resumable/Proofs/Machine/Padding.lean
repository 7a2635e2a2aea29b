import Resumable.Proofs.Machine.Idle
import Resumable.Proofs.Machine.TwinLocal

/-!
Threads that keep a handler in force which others lack. As long as no effect asks for that handler, all
that comes of it is its boundary: where a finished activation would go, the boundary stays. Such an
activation is idle. Apart from idle boundaries and the handler itself, one thread shows the activations
of the other, and suspended computations that were cut from one of them show those cut from the other.
-/

namespace Resumable

/-- The clauses and the label of a handler. -/
abbrev Bound := List (Effect × Value) × Nat

namespace Activation

/-- All that is left to do is to return, and until then the handler `bound` is in force. -/
def Lingers (bound : Bound) (a : Activation) : Prop :=
  a.Idle ∧ a.handler = some bound

/-- Twins, except that the first may have the handler `bound` where the second has none. -/
structure Pads (bound : Bound) (R : Value → Value → Prop) (awaited : List Kind)
    (a a' : Activation) : Prop where
  bare : a.bare.Twins .value Eq R awaited a'.bare
  handler : Option.Rel (fun b b' => ClausesTwin .value Eq R b.1 b'.1) a.handler a'.handler ∨
    a.handler = some bound ∧ a'.handler = none

end Activation

/-- Activations that wait for values, the first ones with idle boundaries of the handler `bound` among
them. -/
inductive Padded (bound : Bound) (R : Value → Value → Prop) : List Activation → List Activation → Prop
  | nil : Padded bound R [] []
  | linger {acts acts' : List Activation} {y : Activation} (hacts : Padded bound R acts acts')
    (hy : y.Lingers bound) : Padded bound R (acts ++ [y]) acts'
  | concat {acts acts' : List Activation} {a a' : Activation} (hacts : Padded bound R acts acts')
    (ha : a.Pads bound R [.value] a') : Padded bound R (acts ++ [a]) (acts' ++ [a'])

/-- Suspended computations that were cut at twin boundaries. -/
def Continuation.Pads (bound : Bound) (R : Value → Value → Prop) (k k' : Continuation Value) : Prop :=
  ∃ b above b' above', k = .ofActs (b :: above) ∧ k' = .ofActs (b' :: above') ∧
    b.handler.isSome = true ∧ b.Twins .value Eq R [.value] b' ∧ Padded bound R above above'

namespace Value

/-- What values hold that do not show it. There are no functions of an embedding. -/
def InnerPads (bound : Bound) (R : Value → Value → Prop) : Value → Value → Prop
  | closure _ f env, closure _ f' env' =>
    f' = f ∧ f.Sound .value ∧ f.SuppliedBy env ∧ Env.Related R env env'
  | native _ _ _ function, _ => ∀ h, function ≠ .hook h
  | continuation _ k, continuation _ k' => k.Pads bound R k'
  | handler _ clauses, handler _ clauses' => ClausesRelated Eq R clauses clauses'
  | code _ f, code _ f' => f' = f
  | _, _ => True

/-- Values that are the same up to the handler `bound`, if those that they hold are related by `R`. -/
structure PadsWith (bound : Bound) (R : Value → Value → Prop) (v v' : Value) : Prop where
  alike : v.Alike Eq R v'
  inner : v.InnerPads bound R v'

/-- Values that are the same, to any depth, up to the handler `bound` in suspended computations, its
idle boundaries, and labels. -/
def Pads (bound : Bound) (v v' : Value) : Prop :=
  ∃ R : Value → Value → Prop, (∀ {u u'}, R u u' → PadsWith bound R u u') ∧ R v v'

end Value

section Mono

variable {bound : Bound} {R R' : Value → Value → Prop} (hle : ∀ {v v'}, R v v' → R' v v')

include hle

theorem Activation.Pads.mono {awaited : List Kind} {a a' : Activation}
    (h : a.Pads bound R awaited a') : a.Pads bound R' awaited a' := by
  refine ⟨h.bare.mono hle, h.handler.imp_left fun hhandler => ?_⟩
  generalize a.handler = b, a'.handler = b' at hhandler
  cases hhandler with
  | some hclauses => exact .some (hclauses.mono hle)
  | none => exact .none

theorem Padded.mono {acts acts' : List Activation} (h : Padded bound R acts acts') :
    Padded bound R' acts acts' := by
  induction h with
  | nil => exact .nil
  | linger _ hy ih => exact ih.linger hy
  | concat _ ha ih => exact ih.concat (ha.mono hle)

theorem Value.InnerPads.mono {v v' : Value} (h : v.InnerPads bound R v') : v.InnerPads bound R' v' := by
  unfold InnerPads at h ⊢
  split
  next => exact ⟨h.1, h.2.1, h.2.2.1, h.2.2.2.mono hle⟩
  next => exact h
  next =>
    obtain ⟨b, above, b', above', hk, hk', hb, hfirst, hrest⟩ := h
    exact ⟨b, above, b', above', hk, hk', hb, hfirst.mono hle, hrest.mono hle⟩
  next => exact h.mono hle
  next => exact h
  next => trivial

theorem Value.PadsWith.mono {v v' : Value} (h : v.PadsWith bound R v') : v.PadsWith bound R' v' :=
  ⟨h.alike.mono hle, h.inner.mono hle⟩

end Mono

namespace Value

variable {bound : Bound} {v v' : Value}

theorem Pads.unfold (h : v.Pads bound v') : v.PadsWith bound (Pads bound) v' := by
  obtain ⟨R, hclosed, hrel⟩ := h
  exact (hclosed hrel).mono fun hu => ⟨R, hclosed, hu⟩

theorem Pads.fold (h : v.PadsWith bound (Pads bound) v') : v.Pads bound v' :=
  ⟨PadsWith bound (Pads bound), fun hu => hu.mono Pads.unfold, h⟩

theorem innerPads_of_isData {R : Value → Value → Prop} (hdata : v.isData = true) :
    v.InnerPads bound R v' := by
  cases v <;> trivial

end Value

/-- Values that are the same up to a handler look the same. -/
def padding (bound : Bound) : Likeness where
  toCorrespondence := .exact
  rel := Value.Pads bound
  view := fun h => h.unfold.alike
  data := fun hdata _ h => .fold ⟨h, Value.innerPads_of_isData hdata⟩
  applied := fun hid hcallee hbound => .fold ⟨.applied hid hcallee hbound, trivial⟩

namespace Value

variable {bound : Bound}

/-- Functions with the same code that capture values that are the same up to the handler. -/
theorem pads_closure {id id' : Nat} {f : Code Value} {env env' : List (Symbol × Value)}
    (hid : id = id') (hf : f.Sound .value) (hsupplied : f.SuppliedBy env)
    (henv : Env.Related (Pads bound) env env') :
    (closure id f env).Pads bound (closure id' f env') :=
  .fold ⟨.closure hid rfl rfl, rfl, hf, hsupplied, henv⟩

theorem Pads.closure_inv {id : Nat} {f : Code Value} {env : List (Symbol × Value)} {v' : Value}
    (h : (closure id f env).Pads bound v') :
    ∃ env', v' = closure id f env' ∧ f.Sound .value ∧ f.SuppliedBy env ∧
      Env.Related (Pads bound) env env' := by
  have hinner := h.unfold.inner
  cases h.unfold.alike with
  | flat hflat => cases hflat
  | @closure _ _ _ f' _ env' hid _ _ =>
    obtain rfl := hid
    obtain ⟨rfl, hf, hsupplied, henv⟩ := hinner
    exact ⟨env', rfl, hf, hsupplied, henv⟩

end Value

variable {bound : Bound} {R : Value → Value → Prop} {acts acts' more more' : List Activation}

namespace Activation

variable {awaited : List Kind} {a a' : Activation}

theorem Twins.pads (h : a.Twins .value Eq R awaited a') : a.Pads bound R awaited a' :=
  ⟨h.bare, Or.inl h.handler⟩

/-- If the first has no handler, neither has the second. -/
theorem Pads.none_of_none (h : a.Pads bound R awaited a') (hnone : a.handler = none) :
    a'.handler = none := by
  obtain hhandler | ⟨_, hnone'⟩ := h.handler
  · rw [hnone] at hhandler
    generalize a'.handler = b' at hhandler
    cases hhandler
    rfl
  · exact hnone'

/-- Both go on with the handlers that they have. -/
theorem Pads.update {leaves : List Kind} {b b' : Activation} (h : a.Pads bound R awaited a')
    (hbare : b.bare.Twins .value Eq R leaves b'.bare) (hb : b.handler = a.handler)
    (hb' : b'.handler = a'.handler) : b.Pads bound R leaves b' := by
  refine ⟨hbare, ?_⟩
  rw [hb, hb']
  exact h.handler

theorem Pads.pushAll (h : a.Pads bound R awaited a') (pairs : List (Value × Value))
    (hpairs : List.Forall₂ (Kind.value.Joins Eq R) awaited pairs) :
    (a.pushAll (pairs.map Prod.fst)).Pads bound R [] (a'.pushAll (pairs.map Prod.snd)) :=
  h.update (h.bare.pushAll pairs hpairs) rfl rfl

theorem Pads.push {v v' : Value} (h : a.Pads bound R [.value] a') (hv : R v v') :
    (a.pushAll [v]).Pads bound R [] (a'.pushAll [v']) :=
  h.pushAll [(v, v')] (.cons hv .nil)

/-- The activations of a function that is called, with the handlers that there were. -/
theorem enter_pads {id : Nat} {f : Code Value} {env env' : List (Symbol × Value)}
    {args args' : List Value} {b b' : Option Bound}
    (hclosure : (Value.closure id f env).Pads bound (.closure id f env'))
    (hargs : List.Forall₂ (Value.Pads bound) args args')
    (hhandler : Option.Rel (fun c c' => ClausesTwin .value Eq (Value.Pads bound) c.1 c'.1) b b' ∨
      b = some bound ∧ b' = none) :
    (enter (.closure id f env) f env args b).Pads bound (Value.Pads bound) []
      (enter (.closure id f env') f env' args' b') := by
  obtain ⟨_, heq, hf, hsupplied, henv⟩ := hclosure.closure_inv
  cases heq
  have hbare : (enter (.closure id f env) f env args none).Twins .value Eq (Value.Pads bound) []
      (enter (.closure id f env') f env' args' none) :=
    enter_twins (L := padding bound) hf hsupplied henv hclosure hargs .none
  exact ⟨hbare, hhandler⟩

end Activation

namespace Padded

theorem append (h : Padded bound R acts acts') (hmore : Padded bound R more more') :
    Padded bound R (acts ++ more) (acts' ++ more') := by
  induction hmore with
  | nil => rwa [List.append_nil, List.append_nil]
  | linger _ hy ih =>
    rw [← List.append_assoc]
    exact ih.linger hy
  | concat _ ha ih =>
    rw [← List.append_assoc, ← List.append_assoc]
    exact ih.concat ha

theorem single {a a' : Activation} (ha : a.Pads bound R [.value] a') : Padded bound R [a] [a'] := by
  have hacts : Padded bound R ([] ++ [a]) ([] ++ [a']) := .concat .nil ha
  exact hacts

theorem eq_nil (h : Padded bound R [] acts') : acts' = [] := by
  generalize hacts : [] = acts at h
  cases h with
  | nil => rfl
  | linger => simp at hacts
  | concat => simp at hacts

/-- A thread whose first activation has no handler shows a corresponding activation first. -/
theorem ne_nil (h : Padded bound R acts acts') (hground : Grounded .value acts) (hne : acts ≠ []) :
    acts' ≠ [] := by
  induction h with
  | nil => exact absurd rfl hne
  | @linger acts acts' y hacts hy ih =>
    have hacts : acts ≠ [] := by
      rintro rfl
      have hnone := hground nofun y rfl
      rw [hy.2] at hnone
      cases hnone
    exact ih (hground.of_append hacts) hacts
  | concat => simp

/-- What waits for a value on top: idle boundaries, and below them two activations that correspond. -/
theorem top (h : Padded bound R acts acts') (hne : acts' ≠ []) :
    ∃ pre a spare pre' a', acts = pre ++ [a] ++ spare ∧ acts' = pre' ++ [a'] ∧
      (∀ y ∈ spare, y.Lingers bound) ∧ Padded bound R pre pre' ∧ a.Pads bound R [.value] a' := by
  induction h with
  | nil => exact absurd rfl hne
  | @linger acts acts' y _ hy ih =>
    obtain ⟨pre, a, spare, pre', a', rfl, rfl, hspare, hpre, ha⟩ := ih hne
    refine ⟨pre, a, spare ++ [y], pre', a', by simp, rfl, ?_, hpre, ha⟩
    exact List.forall_mem_append.2 ⟨hspare, by simpa using hy⟩
  | @concat acts acts' a a' hacts ha _ => exact ⟨acts, a, [], acts', a', by simp, rfl, nofun, hacts, ha⟩

end Padded

/-- Sound activations are padded with nothing. -/
theorem padded_self (hself : ∀ {v : Value}, v.Sound .value → R v v)
    (hacts : ∀ a ∈ acts, a.Sound .value [.value]) : Padded bound R acts acts := by
  induction acts with
  | nil => exact .nil
  | cons a acts ih =>
    have ha : Padded bound R [a] [a] := .single ((hacts a (.head _)).twins hself).pads
    exact ha.append (ih fun b hb => hacts b (.tail _ hb))

namespace Value

/-- A sound value is the same as itself. -/
theorem Sound.pads {v : Value} (hv : v.Sound .value) : v.Pads bound v := by
  refine ⟨Itself (Sound .value), ?_, rfl, hv⟩
  rintro _ v ⟨rfl, hv⟩
  have hself : ∀ {v : Value}, v.Sound .value → v.Itself (Sound .value) v := fun hv => ⟨rfl, hv⟩
  have hparts : ∀ part ∈ v.parts, part.Sound .value := fun _ hpart => hv.part hpart
  cases v with
  | list items => exact ⟨.list (related_self hself hparts), trivial⟩
  | tuple items => exact ⟨.tuple (related_self hself hparts), trivial⟩
  | record fields => exact ⟨.record (Env.related_self hself hparts), trivial⟩
  | closure id f env =>
    exact ⟨.closure rfl rfl rfl, rfl, hv.shape.1, hv.shape.2, Env.related_self hself hparts⟩
  | native id name arity function => exact ⟨.native rfl, hv.shape nofun⟩
  | applied id callee bound =>
    exact ⟨.applied rfl (hself (hparts callee (.head _)))
      (related_self hself fun v hv => hparts v (.tail _ hv)), trivial⟩
  | continuation id k =>
    obtain ⟨b, above, clauses, label, rfl, hb, hacts⟩ := hv.acts
    exact ⟨.continuation rfl, b, above, b, above, rfl, rfl, by rw [hb]; rfl,
      (hacts b (.head _)).twins hself, padded_self hself fun a ha => hacts a (.tail _ ha)⟩
  | handler id clauses => exact ⟨.handler rfl rfl, ClausesRelated.self hself (fun _ _ => rfl) hparts⟩
  | code id f => exact ⟨.code rfl rfl, rfl⟩
  | effect e => exact ⟨.effect ⟨rfl, rfl⟩, trivial⟩
  | _ => exact ⟨.flat rfl, trivial⟩

end Value

end Resumable
