import Resumable.Proofs.Machine.Likeness
import Resumable.Proofs.Machine.Progress

/-!
Activations of two threads that are at the same place of the same code, with related values, wherever
they stand in their threads and whatever the labels of their handlers. Values are twins if they look
the same and hold the same code and twin activations. If internal values are `hidden`, programs never
get to see one: such values only stand where the code puts and expects them.
-/

namespace Resumable

/-- How the values of two machines are paired off: identities as they correspond, and internal values
hidden from programs or not. -/
structure Pairing extends Correspondence where
  hidden : Bool

/-- Everything is the same. It only remains to say whether internal values are hidden. -/
def Pairing.exact (hidden : Bool) : Pairing :=
  { Correspondence.exact with hidden }

instance : Coe Bool Pairing :=
  ⟨.exact⟩

theorem exists_of_mem_left {α β : Type} {R : α → β → Prop} {xs : List α} {ys : List β} {x : α}
    (hrel : List.Forall₂ R xs ys) (hx : x ∈ xs) : ∃ y ∈ ys, R x y := by
  induction hrel with
  | nil => cases hx
  | @cons x' y xs ys hfirst _ ih =>
    obtain rfl | hx := List.mem_cons.1 hx
    · exact ⟨y, .head _, hfirst⟩
    · obtain ⟨z, hz, hrel⟩ := ih hx
      exact ⟨z, .tail _ hz, hrel⟩

/-- Clauses for the same effects, with related functions of kind `κ`. -/
def ClausesTwin (κ : Kind) (ids : Nat → Nat → Prop) (R : Value → Value → Prop) :
    List (Effect × Value) → List (Effect × Value) → Prop :=
  ClausesRelated ids fun c c' => R c c' ∧ κ.Fits c

/-- Values of a kind in the same place of two stacks. -/
def Kind.Joins (κ : Kind) (ids : Nat → Nat → Prop) (R : Value → Value → Prop) :
    Kind → Value × Value → Prop
  | .value, p => R p.1 p.2
  | .key, p => ∃ s, p = (.symbol s, .symbol s)
  | .handler, p => ∃ id id' clauses clauses', p = (.handler id clauses, .handler id' clauses') ∧
    ids id id' ∧ ClausesTwin κ ids R clauses clauses'
  | .clause, p => R p.1 p.2 ∧ Kind.clause.Fits p.1

namespace Activation

/-- Two activations at the same place of the same code, with related values, which go on as the code
is typed once they have been given values of the kinds `awaited`. -/
structure Twins (κ : Kind) (ids : Nat → Nat → Prop) (R : Value → Value → Prop) (awaited : List Kind)
    (a a' : Activation) : Prop where
  code : a'.code = a.code
  ip : a'.ip = a.ip
  sound : a.code.Sound κ
  room : a.code.localCount ≤ a.locals.size
  supplied : a.code.SuppliedBy a.env
  env : Env.Related R a.env a'.env
  locals : List.Forall₂ R a.locals.toList a'.locals.toList
  typed : ∃ H last kinds pairs, a.code.WellTyped κ H last ∧ a.ip ≤ last ∧
    H a.ip = some (kinds ++ awaited) ∧ List.Forall₂ (κ.Joins ids R) kinds pairs ∧
    a.operands = pairs.map Prod.fst ∧ a'.operands = pairs.map Prod.snd
  handler : Option.Rel (fun bound bound' => ClausesTwin κ ids R bound.1 bound'.1) a.handler a'.handler

end Activation

/-- Suspended computations whose activations are twins. -/
def Continuation.Twins (κ : Kind) (ids : Nat → Nat → Prop) (R : Value → Value → Prop)
    (k k' : Continuation Value) : Prop :=
  ∃ b above b' above', k = .ofActs (b :: above) ∧ k' = .ofActs (b' :: above') ∧
    b.handler.isSome = true ∧ List.Forall₂ (Activation.Twins κ ids R [.value]) (b :: above) (b' :: above')

namespace Value

/-- What values hold that do not show it. -/
def InnerTwins (κ : Kind) (ids : Nat → Nat → Prop) (R : Value → Value → Prop) : Value → Value → Prop
  | closure _ f env, closure _ f' env' =>
    f' = f ∧ f.Sound κ ∧ f.SuppliedBy env ∧ Env.Related R env env'
  | native _ _ _ function, _ => κ ≠ .clause → ∀ h, function ≠ .hook h
  | continuation _ k, continuation _ k' => k.Twins κ ids R k'
  | handler _ clauses, handler _ clauses' => ClausesRelated ids R clauses clauses'
  | code _ f, code _ f' => f' = f
  | _, _ => True

/-- Values that are twins, if those that they hold are related by `R`. -/
structure TwinsWith (κ : Kind) (ρ : Pairing) (R : Value → Value → Prop) (v v' : Value) : Prop where
  alike : v.Alike ρ.ids R v'
  inner : v.InnerTwins κ ρ.ids R v'
  ordinary : ρ.hidden = true → v.isInternal = false

/-- Values that are the same, to any depth, up to corresponding identities and the labels in suspended
computations. -/
def Twins (κ : Kind) (ρ : Pairing) (v v' : Value) : Prop :=
  ∃ R : Value → Value → Prop, (∀ {u u'}, R u u' → TwinsWith κ ρ R u u') ∧ R v v'

end Value

section Mono

variable {κ : Kind} {ids : Nat → Nat → Prop} {R R' : Value → Value → Prop}
  (hle : ∀ {v v'}, R v v' → R' v v')

include hle

theorem ClausesTwin.mono {clauses clauses' : List (Effect × Value)}
    (h : ClausesTwin κ ids R clauses clauses') : ClausesTwin κ ids R' clauses clauses' :=
  ClausesRelated.mono (fun hc => ⟨hle hc.1, hc.2⟩) h

theorem Kind.Joins.mono {k : Kind} {p : Value × Value} (h : κ.Joins ids R k p) : κ.Joins ids R' k p := by
  cases k with
  | value => exact hle h
  | key => exact h
  | handler =>
    obtain ⟨id, id', clauses, clauses', hp, hid, hclauses⟩ := h
    exact ⟨id, id', clauses, clauses', hp, hid, hclauses.mono hle⟩
  | clause => exact ⟨hle h.1, h.2⟩

theorem Activation.Twins.mono {awaited : List Kind} {a a' : Activation}
    (h : a.Twins κ ids R awaited a') : a.Twins κ ids R' awaited a' := by
  obtain ⟨H, last, kinds, pairs, htyped, hlast, hip, hpairs, hoperands⟩ := h.typed
  refine ⟨h.code, h.ip, h.sound, h.room, h.supplied, h.env.mono hle, h.locals.imp fun _ _ => hle,
    ⟨H, last, kinds, pairs, htyped, hlast, hip, hpairs.imp fun _ _ hp => hp.mono hle, hoperands⟩, ?_⟩
  have hhandler := h.handler
  generalize a.handler = bound, a'.handler = bound' at hhandler
  cases hhandler with
  | some hclauses => exact .some (hclauses.mono hle)
  | none => exact .none

theorem Continuation.Twins.mono {k k' : Continuation Value} (h : k.Twins κ ids R k') :
    k.Twins κ ids R' k' := by
  obtain ⟨b, above, b', above', hk, hk', hb, hacts⟩ := h
  exact ⟨b, above, b', above', hk, hk', hb, hacts.imp fun _ _ htwins => htwins.mono hle⟩

theorem Value.InnerTwins.mono {v v' : Value} (h : v.InnerTwins κ ids R v') :
    v.InnerTwins κ ids R' v' := by
  unfold InnerTwins at h ⊢
  split
  next => exact ⟨h.1, h.2.1, h.2.2.1, h.2.2.2.mono hle⟩
  next => exact h
  next => exact h.mono hle
  next => exact h.mono hle
  next => exact h
  next => trivial

theorem Value.TwinsWith.mono {ρ : Pairing} {v v' : Value} (h : v.TwinsWith κ ρ R v') :
    v.TwinsWith κ ρ R' v' :=
  ⟨h.alike.mono hle, h.inner.mono hle, h.ordinary⟩

end Mono

namespace Value

variable {κ : Kind} {ρ : Pairing} {v v' : Value}

theorem Twins.unfold (h : v.Twins κ ρ v') : v.TwinsWith κ ρ (Twins κ ρ) v' := by
  obtain ⟨R, hclosed, hrel⟩ := h
  exact (hclosed hrel).mono fun hu => ⟨R, hclosed, hu⟩

theorem Twins.fold (h : v.TwinsWith κ ρ (Twins κ ρ) v') : v.Twins κ ρ v' :=
  ⟨TwinsWith κ ρ (Twins κ ρ), fun hu => hu.mono Twins.unfold, h⟩

theorem innerTwins_of_isData {ids : Nat → Nat → Prop} {R : Value → Value → Prop}
    (hdata : v.isData = true) : v.InnerTwins κ ids R v' := by
  cases v <;> trivial

end Value

/-- Twins look the same. -/
def twinning (κ : Kind) (ρ : Pairing) : Likeness where
  toCorrespondence := ρ.toCorrespondence
  rel := Value.Twins κ ρ
  view := fun h => h.unfold.alike
  data := fun hdata hopen h => .fold ⟨h, Value.innerTwins_of_isData hdata, fun _ => hopen⟩
  applied := fun hid hcallee hbound => .fold ⟨.applied hid hcallee hbound, trivial, fun _ => rfl⟩

namespace Value

variable {κ : Kind} {ρ : Pairing}

/-- Functions with the same code that capture twins. -/
theorem twins_closure {id id' : Nat} {f : Code Value} {env env' : List (Symbol × Value)}
    (hid : ρ.ids id id') (hf : f.Sound κ) (hsupplied : f.SuppliedBy env)
    (henv : Env.Related (Twins κ ρ) env env') :
    (closure id f env).Twins κ ρ (closure id' f env') :=
  .fold ⟨.closure hid rfl rfl, ⟨rfl, hf, hsupplied, henv⟩, fun _ => rfl⟩

theorem Twins.closure_inv {id : Nat} {f : Code Value} {env : List (Symbol × Value)} {v' : Value}
    (h : (closure id f env).Twins κ ρ v') :
    ∃ id' env', v' = closure id' f env' ∧ ρ.ids id id' ∧ f.Sound κ ∧ f.SuppliedBy env ∧
      Env.Related (Twins κ ρ) env env' := by
  have hinner := h.unfold.inner
  cases h.unfold.alike with
  | flat hflat => cases hflat
  | @closure _ id' _ f' _ env' hid _ _ =>
    obtain ⟨rfl, hf, hsupplied, henv⟩ := hinner
    exact ⟨id', env', rfl, hid, hf, hsupplied, henv⟩

/-- Suspended computations of twin activations. -/
theorem twins_continuation {id id' : Nat} {b b' : Activation} {above above' : List Activation}
    (hid : ρ.ids id id') (hb : b.handler.isSome = true)
    (hacts : List.Forall₂ (Activation.Twins κ ρ.ids (Twins κ ρ) [.value]) (b :: above)
      (b' :: above')) :
    (continuation id (.ofActs (b :: above))).Twins κ ρ
      (continuation id' (.ofActs (b' :: above'))) :=
  .fold ⟨.continuation hid, ⟨b, above, b', above', rfl, rfl, hb, hacts⟩, fun _ => rfl⟩

end Value

namespace Activation

variable {κ : Kind} {ρ : Pairing} {ids : Nat → Nat → Prop} {R : Value → Value → Prop}
  {awaited : List Kind} {a a' : Activation}

theorem fits_of_joins {kinds : List Kind} {pairs : List (Value × Value)}
    (hpairs : List.Forall₂ (κ.Joins ids R) kinds pairs) :
    List.Forall₂ Kind.Fits kinds (pairs.map Prod.fst) := by
  induction hpairs with
  | nil => exact .nil
  | @cons k p kinds pairs hp _ ih =>
    refine .cons ?_ ih
    cases k with
    | value => trivial
    | key =>
      obtain ⟨s, rfl⟩ := hp
      exact ⟨s, rfl⟩
    | handler =>
      obtain ⟨id, _, clauses, _, rfl, _⟩ := hp
      exact ⟨id, clauses, rfl⟩
    | clause => exact hp.2

/-- The first of two twins has a good shape. -/
theorem Twins.shape (h : a.Twins κ ids R awaited a') : a.Shape κ awaited := by
  obtain ⟨H, last, kinds, pairs, htyped, hlast, hip, hpairs, hoperands, _⟩ := h.typed
  refine ⟨h.sound, ⟨H, last, kinds, htyped, hlast, hip, ?_⟩, h.room, h.supplied, ?_⟩
  · rw [hoperands]
    exact fits_of_joins hpairs
  · intro bound hbound c hc
    have hrel := h.handler
    rw [hbound] at hrel
    generalize a'.handler = bound' at hrel
    cases hrel with
    | some hclauses =>
      obtain ⟨c', _, _, _, hfits⟩ := exists_of_mem_left hclauses hc
      exact hfits

/-- The values that twins await go on their stacks. -/
theorem Twins.pushAll (h : a.Twins κ ids R awaited a') (pairs : List (Value × Value))
    (hpairs : List.Forall₂ (κ.Joins ids R) awaited pairs) :
    (a.pushAll (pairs.map Prod.fst)).Twins κ ids R [] (a'.pushAll (pairs.map Prod.snd)) := by
  obtain ⟨H, last, kinds, pairs', htyped, hlast, hip, hpairs', hoperands, hoperands'⟩ := h.typed
  refine ⟨h.code, h.ip, h.sound, h.room, h.supplied, h.env, h.locals, ⟨H, last, kinds ++ awaited,
    pairs' ++ pairs, htyped, hlast, ?_, List.rel_append hpairs' hpairs, ?_, ?_⟩, h.handler⟩
  · rw [List.append_nil]
    exact hip
  · simp [Activation.pushAll, hoperands]
  · simp [Activation.pushAll, hoperands']

theorem Twins.push {v v' : Value} (h : a.Twins κ ids R [.value] a') (hv : R v v') :
    (a.pushAll [v]).Twins κ ids R [] (a'.pushAll [v']) :=
  h.pushAll [(v, v')] (.cons hv .nil)

/-- The labels of twins do not matter. -/
theorem Twins.relabel (h : a.Twins κ ids R awaited a') (label label' : Nat) :
    (a.relabel label).Twins κ ids R awaited (a'.relabel label') := by
  refine ⟨h.code, h.ip, h.sound, h.room, h.supplied, h.env, h.locals, h.typed, ?_⟩
  have hhandler := h.handler
  simp only [Activation.relabel]
  generalize a.handler = bound, a'.handler = bound' at hhandler
  cases hhandler with
  | some hclauses => exact .some hclauses
  | none => exact .none

theorem Twins.isSome_handler (h : a.Twins κ ids R awaited a') :
    a'.handler.isSome = a.handler.isSome := by
  have hhandler := h.handler
  generalize a.handler = bound, a'.handler = bound' at hhandler
  cases hhandler <;> rfl

/-- The activations of a function that is called with related arguments. -/
theorem enter_twins {L : Likeness} {id id' : Nat} {f : Code Value} {env env' : List (Symbol × Value)}
    {args args' : List Value} {bound bound' : Option (List (Effect × Value) × Nat)}
    (hf : f.Sound κ) (hsupplied : f.SuppliedBy env) (henv : Env.Related L.rel env env')
    (hclosure : L.rel (.closure id f env) (.closure id' f env'))
    (hargs : List.Forall₂ L.rel args args')
    (hbound : Option.Rel (fun b b' => ClausesTwin κ L.ids L.rel b.1 b'.1) bound bound') :
    (enter (.closure id f env) f env args bound).Twins κ L.ids L.rel []
      (enter (.closure id' f env') f env' args' bound') := by
  obtain ⟨H, last, htyped⟩ : ∃ H last, f.WellTyped κ H last := by
    cases hf with
    | intro htyped _ _ => exact ⟨_, _, htyped⟩
  refine ⟨rfl, rfl, hf, ?_, hsupplied, henv, ?_, ?_, hbound⟩
  · rw [size_locals_enter]
    exact Nat.le_max_left _ _
  · exact enter_locals_related rfl rfl rfl hclosure hargs
  · exact ⟨H, last, [], [], htyped, Nat.zero_le _, htyped.typed.start, .nil, rfl, rfl⟩

/-- The activations of a function that is called with twin arguments. -/
theorem twins_enter {id id' : Nat} {f : Code Value} {env env' : List (Symbol × Value)}
    {args args' : List Value} {bound bound' : Option (List (Effect × Value) × Nat)}
    (hclosure : (Value.closure id f env).Twins κ ρ (.closure id' f env'))
    (hargs : List.Forall₂ (Value.Twins κ ρ) args args')
    (hbound : Option.Rel (fun b b' => ClausesTwin κ ρ.ids (Value.Twins κ ρ) b.1 b'.1) bound bound') :
    (enter (.closure id f env) f env args bound).Twins κ ρ.ids (Value.Twins κ ρ) []
      (enter (.closure id' f env') f env' args' bound') := by
  obtain ⟨_, _, heq, _, hf, hsupplied, henv⟩ := hclosure.closure_inv
  cases heq
  exact enter_twins (L := twinning κ ρ) hf hsupplied henv hclosure hargs hbound

/-- What twins do next. They return twins, or they execute an instruction that takes some of their
operands and then await values in their place, or they jump. -/
inductive TwinsNext (κ : Kind) (ids : Nat → Nat → Prop) (R : Value → Value → Prop) (a a' : Activation) :
    Prop
  | ret {line : Nat} {v v' : Value} (hat : a.code.At a.ip .ret 0 line) (hoperands : a.operands = [v])
    (hoperands' : a'.operands = [v']) (hv : R v v')
  | straight {op : Op} {operand line : Nat} {takes leaves : List Kind} {ops ops' : List Value}
    {pairs : List (Value × Value)} (hat : a.code.At a.ip op operand line)
    (hstraight : a.code.Straight κ op.narrow operand takes leaves)
    (htail : op = .tailCall → a.code.Returns (a.ip + 2))
    (hoperands : a.operands = ops ++ pairs.map Prod.fst)
    (hoperands' : a'.operands = ops' ++ pairs.map Prod.snd)
    (hpairs : List.Forall₂ (κ.Joins ids R) takes pairs)
    (hnext : { a with ip := a.ip + 1 + op.width, operands := ops }.Twins κ ids R leaves
      { a' with ip := a.ip + 1 + op.width, operands := ops' })
  | jump {operand line : Nat} (hat : a.code.At a.ip .jump operand line)
    (htarget : { a with ip := a.ip + operand }.Twins κ ids R [] { a' with ip := a.ip + operand })
  | branch {operand line : Nat} {ops ops' : List Value} {v v' : Value}
    (hat : a.code.At a.ip .jumpIfFalse operand line) (hoperands : a.operands = ops ++ [v])
    (hoperands' : a'.operands = ops' ++ [v']) (hv : R v v')
    (htarget : { a with ip := a.ip + operand, operands := ops }.Twins κ ids R []
      { a' with ip := a.ip + operand, operands := ops' })
    (hnext : { a with ip := a.ip + 3, operands := ops }.Twins κ ids R []
      { a' with ip := a.ip + 3, operands := ops' })

/-- Twins that have come to another offset with part of their operands. -/
theorem Twins.moved {leaves below : List Kind} {H : Code.Typing} {last ip : Nat}
    {pairs : List (Value × Value)} (h : a.Twins κ ids R awaited a') (htyped : a.code.WellTyped κ H last)
    (hlast : ip ≤ last) (hip : H ip = some (below ++ leaves))
    (hpairs : List.Forall₂ (κ.Joins ids R) below pairs) :
    { a with ip, operands := pairs.map Prod.fst }.Twins κ ids R leaves
      { a' with ip, operands := pairs.map Prod.snd } :=
  ⟨h.code, rfl, h.sound, h.room, h.supplied, h.env, h.locals,
    ⟨H, last, below, pairs, htyped, hlast, hip, hpairs, rfl, rfl⟩, h.handler⟩

theorem Twins.next (h : a.Twins κ ids R [] a') : a.TwinsNext κ ids R a' := by
  obtain ⟨H, last, kinds, pairs, htyped, hlast, hip, hpairs, hoperands, hoperands'⟩ := h.typed
  rw [List.append_nil] at hip
  obtain hend | hlt := Nat.eq_or_lt_of_le hlast
  · obtain ⟨line, hret⟩ := htyped.ret
    rw [hend, htyped.typed.stop] at hip
    cases hip
    obtain ⟨p, hp, rfl⟩ := forall₂_singleton_left hpairs
    rw [← hend] at hret
    exact .ret hret hoperands hoperands' hp
  · have hchecked := htyped.typed.checked a.ip kinds (Nat.zero_le _) hlt hip
    cases hchecked with
    | @straight op operand line below takes leaves hat hstraight htail hnext hreach =>
      obtain ⟨ps, qs, hps, hqs, rfl⟩ := forall₂_split hpairs
      rw [List.map_append] at hoperands hoperands'
      exact .straight hat hstraight htail hoperands hoperands' hqs
        (h.moved htyped hreach hnext hps)
    | @jump operand line _ _ hat _ htarget hreach _ _ =>
      rw [← List.append_nil kinds] at htarget
      have hmoved := h.moved htyped hreach htarget hpairs
      rw [← hoperands, ← hoperands'] at hmoved
      exact .jump hat hmoved
    | @branch operand line below hat _ htarget hreach hnext hreach' =>
      obtain ⟨ps, qs, hps, hqs, rfl⟩ := forall₂_split hpairs
      obtain ⟨p, hp, rfl⟩ := forall₂_singleton_left hqs
      rw [List.map_append] at hoperands hoperands'
      rw [← List.append_nil below] at htarget hnext
      exact .branch hat hoperands hoperands' hp (h.moved htyped hreach htarget hps)
        (h.moved htyped hreach' hnext hps)

theorem Twins.setLocal {L : Likeness} {v v' : Value} (h : a.Twins κ L.ids L.rel awaited a') (slot : Nat)
    (hv : L.rel v v') :
    { a with locals := setSlot a.locals slot v }.Twins κ L.ids L.rel awaited
      { a' with locals := setSlot a'.locals slot v' } :=
  ⟨h.code, h.ip, h.sound, Nat.le_trans h.room (setSlot_size_le a.locals slot v), h.supplied, h.env,
    setSlot_related h.locals slot hv, h.typed, h.handler⟩

theorem Twins.setCaptured {L : Likeness} {s : Symbol} {v v' : Value} {env : List (Symbol × Value)}
    (h : a.Twins κ L.ids L.rel awaited a') (henv : Env.set? a.env s v = some env) (hv : L.rel v v') :
    ∃ env', Env.set? a'.env s v' = some env' ∧
      { a with env }.Twins κ L.ids L.rel awaited { a' with env := env' } := by
  have hrel := Env.Related.set? h.env s hv
  rw [henv] at hrel
  generalize henv' : Env.set? a'.env s v' = found at hrel
  cases hrel with
  | @some _ env' hrel =>
    refine ⟨env', rfl, h.code, h.ip, h.sound, h.room, ?_, hrel, h.locals, h.typed, h.handler⟩
    intro c hc
    rw [Env.get?_set? henv]
    split
    · rfl
    · exact h.supplied c hc

/-- The functions that twins make capture related values. -/
theorem Twins.makes {L : Likeness} {i id : Nat} {f : Code Value} (h : a.Twins κ L.ids L.rel awaited a')
    (hconstant : a.code.constants[i]? = some (.code id f))
    (hsupplied : ∀ c ∈ f.captures, a.code.CanSupply c) :
    ∃ env env', a.bindAll [] f.captures = some env ∧ a'.bindAll [] f.captures = some env' ∧
      f.Sound κ ∧ f.SuppliedBy env ∧ Env.Related L.rel env env' := by
  obtain ⟨env, hbound, _, hnames, _⟩ := bindAll_eq_some (a := a) []
    fun c hc => h.shape.supplies (hsupplied c hc)
  obtain ⟨env', hbound', henv⟩ := bindAll_related h.env h.locals .nil hbound
  have hf : f.Sound κ := by
    cases h.sound with
    | intro _ _ hnested => exact hnested id f (Array.mem_of_getElem? hconstant)
  exact ⟨env, env', hbound, hbound', hf, hnames, henv⟩

end Activation

/-- The identities that a value shows: its own, and those of the effects that it has clauses for. -/
def Value.identities : Value → List Nat
  | closure id _ _ | native id _ _ _ | applied id _ _ | code id _ => [id]
  | effect e => [e.id]
  | handler id clauses => id :: clauses.map fun c => c.1.id
  | continuation id k => id :: k.handlers.toList.flatMap fun h => h.clauses.map fun c => c.1.id
  | _ => []

/-- The identities of the effects that an activation has clauses for. -/
def Activation.identities (a : Activation) : List Nat :=
  a.handler.toList.flatMap fun bound => bound.1.map fun c => c.1.id

theorem mem_identities_ofActs {i id : Nat} {a : Activation} {acts : List Activation} (ha : a ∈ acts)
    (hi : i ∈ a.identities) : i ∈ (Value.continuation id (.ofActs acts)).identities := by
  have hinstalled : ∀ depth height, i ∈ (handlersFrom depth height acts).flatMap fun h =>
      h.clauses.map fun c => c.1.id := by
    induction acts with
    | nil => cases ha
    | cons b acts ih =>
      intro depth height
      rw [handlersFrom_cons, List.flatMap_append, List.mem_append]
      obtain rfl | ha := List.mem_cons.1 ha
      · refine Or.inl ?_
        cases hhandler : a.handler with
        | none => simp [Activation.identities, hhandler] at hi
        | some bound => simpa [Activation.identities, Activation.installed, hhandler] using hi
      · exact Or.inr (ih ha _ _)
  exact List.mem_cons_of_mem _ (by simpa [Continuation.ofActs] using hinstalled 0 0)

/-- Values of a good shape whose parts are of the same sort, and whose identities are related to
themselves. -/
structure Value.Reflexive (κ : Kind) (ids : Nat → Nat → Prop) (good : Value → Prop) : Prop where
  shape : ∀ {v : Value}, good v → v.Shape κ
  part : ∀ {v part : Value}, good v → part ∈ v.parts → good part
  ids : ∀ {v : Value} {i : Nat}, good v → i ∈ v.identities → ids i i

section Self

variable {κ : Kind} {ids : Nat → Nat → Prop} {R : Value → Value → Prop} {good : Value → Prop}
  (hself : ∀ {v : Value}, good v → R v v)

include hself

theorem related_self {vs : List Value} (hvs : ∀ v ∈ vs, good v) : List.Forall₂ R vs vs :=
  List.forall₂_same.2 fun v hv => hself (hvs v hv)

theorem Env.related_self {env : List (Symbol × Value)} (henv : ∀ v ∈ env.map Prod.snd, good v) :
    Env.Related R env env :=
  List.forall₂_same.2 fun _ hb => ⟨rfl, hself (henv _ (List.mem_map_of_mem hb))⟩

theorem ClausesRelated.self {clauses : List (Effect × Value)}
    (heffects : ∀ c ∈ clauses, ids c.1.id c.1.id) (hclauses : ∀ v ∈ clauses.map Prod.snd, good v) :
    ClausesRelated ids R clauses clauses :=
  List.forall₂_same.2 fun c hc =>
    ⟨⟨heffects c hc, rfl⟩, hself (hclauses _ (List.mem_map_of_mem hc))⟩

theorem ClausesTwin.self {clauses : List (Effect × Value)}
    (heffects : ∀ c ∈ clauses, ids c.1.id c.1.id) (hclauses : ∀ v ∈ clauses.map Prod.snd, good v)
    (hfits : ∀ c ∈ clauses, κ.Fits c.2) : ClausesTwin κ ids R clauses clauses :=
  List.forall₂_same.2 fun c hc =>
    ⟨⟨heffects c hc, rfl⟩, hself (hclauses _ (List.mem_map_of_mem hc)), hfits c hc⟩

theorem Kind.Joins.self (hgood : Value.Reflexive κ ids good) {kind : Kind} {v : Value}
    (hfits : kind.Fits v) (hv : good v) : κ.Joins ids R kind (v, v) := by
  cases kind with
  | value => exact hself hv
  | key =>
    obtain ⟨s, rfl⟩ := hfits
    exact ⟨s, rfl⟩
  | handler =>
    obtain ⟨id, clauses, rfl⟩ := hfits
    refine ⟨id, id, clauses, clauses, rfl, hgood.ids hv (.head _), ClausesTwin.self hself ?_
      (fun _ h => hgood.part hv h) (hgood.shape hv)⟩
    exact fun c hc => hgood.ids hv (.tail _ (List.mem_map_of_mem (f := fun c => c.1.id) hc))
  | clause => exact ⟨hself hv, hfits⟩

theorem joins_self (hgood : Value.Reflexive κ ids good) {kinds : List Kind} {vs : List Value}
    (hfits : List.Forall₂ Kind.Fits kinds vs) (hvs : ∀ v ∈ vs, good v) :
    List.Forall₂ (κ.Joins ids R) kinds (vs.map fun v => (v, v)) := by
  induction hfits with
  | nil => exact .nil
  | cons hfit _ ih =>
    obtain ⟨hv, hrest⟩ := List.forall_mem_cons.1 hvs
    exact .cons (Kind.Joins.self hself hgood hfit hv) (ih hrest)

/-- An activation of a good shape that holds such values is its own twin. -/
theorem Activation.Shape.twins (hgood : Value.Reflexive κ ids good) {awaited : List Kind}
    {a : Activation} (hshape : a.Shape κ awaited) (hparts : ∀ v ∈ a.parts, good v)
    (hids : ∀ i ∈ a.identities, ids i i) : a.Twins κ ids R awaited a := by
  simp only [Activation.parts, List.mem_append] at hparts
  obtain ⟨H, last, kinds, htyped, hlast, hip, hfits⟩ := hshape.typed
  refine ⟨rfl, rfl, hshape.code, hshape.locals, hshape.env, Env.related_self hself ?_,
    Resumable.related_self hself ?_, ⟨H, last, kinds, a.operands.map fun v => (v, v), htyped, hlast, hip,
      joins_self hself hgood hfits ?_, ?_, ?_⟩, ?_⟩
  · exact fun v hv => hparts v (Or.inl (Or.inl (Or.inl hv)))
  · exact fun v hv => hparts v (Or.inl (Or.inl (Or.inr hv)))
  · exact fun v hv => hparts v (Or.inl (Or.inr hv))
  · rw [List.map_map]
    exact (List.map_id _).symm
  · rw [List.map_map]
    exact (List.map_id _).symm
  · have hclauses := hshape.clauses
    cases hhandler : a.handler with
    | none => exact .none
    | some bound =>
      have hbound : bound ∈ a.handler.toList := by
        rw [hhandler]
        exact .head _
      refine .some (ClausesTwin.self hself (fun c hc => hids _ ?_) (fun v hv => hparts v (Or.inr ?_)) ?_)
      · exact List.mem_flatMap.2 ⟨bound, hbound, List.mem_map_of_mem (f := fun c => c.1.id) hc⟩
      · exact List.mem_flatMap.2 ⟨bound, hbound, hv⟩
      · exact hclauses bound (by rw [hhandler]; rfl)

end Self

namespace Value

/-- The same value, which has a property. -/
def Itself (good : Value → Prop) (v v' : Value) : Prop :=
  v' = v ∧ good v

/-- A value of a good shape, with parts of a good shape, is its own twin if internal values are not
hidden and its identities correspond to themselves. -/
theorem Reflexive.twins {κ : Kind} {ρ : Pairing} {good : Value → Prop}
    (hgood : Reflexive κ ρ.ids good) (hhidden : ρ.hidden = false) {v : Value} (hv : good v) :
    v.Twins κ ρ v := by
  refine ⟨Itself good, ?_, rfl, hv⟩
  rintro _ v ⟨rfl, hv⟩
  have hself : ∀ {v : Value}, good v → v.Itself good v := fun hv => ⟨rfl, hv⟩
  have hshown : ∀ {v : Value}, ρ.hidden = true → v.isInternal = false := fun h =>
    Bool.noConfusion (hhidden.symm.trans h)
  have hparts : ∀ part ∈ v.parts, good part := fun _ hpart => hgood.part hv hpart
  have hids : ∀ i ∈ v.identities, ρ.ids i i := fun _ hi => hgood.ids hv hi
  have hshape := hgood.shape hv
  cases v with
  | list items => exact ⟨.list (related_self hself hparts), trivial, hshown⟩
  | tuple items => exact ⟨.tuple (related_self hself hparts), trivial, hshown⟩
  | record fields => exact ⟨.record (Env.related_self hself hparts), trivial, hshown⟩
  | closure id f env =>
    exact ⟨.closure (hids id (.head _)) rfl rfl,
      ⟨rfl, hshape.1, hshape.2, Env.related_self hself hparts⟩, hshown⟩
  | native id name arity function => exact ⟨.native (hids id (.head _)), hshape, hshown⟩
  | applied id callee bound =>
    exact ⟨.applied (hids id (.head _)) (hself (hparts callee (.head _)))
      (related_self hself fun v hv => hparts v (.tail _ hv)), trivial, hshown⟩
  | continuation id k =>
    obtain ⟨b, above, rfl, hb, hacts⟩ := hshape
    refine ⟨.continuation (hids id (.head _)), ⟨b, above, b, above, rfl, rfl, hb,
      List.forall₂_same.2 fun a ha => (hacts a ha).twins hself hgood ?_ ?_⟩, hshown⟩
    · exact fun v hv => hparts v ((mem_parts_ofActs hb).2 (Or.inl ⟨a, ha, hv⟩))
    · exact fun i hi => hids i (mem_identities_ofActs ha hi)
  | effect e => exact ⟨.effect ⟨hids e.id (.head _), rfl⟩, trivial, hshown⟩
  | handler id clauses =>
    refine ⟨.handler (hids id (.head _)) rfl, ClausesRelated.self hself ?_ hparts, hshown⟩
    exact fun c hc => hids _ (.tail _ (List.mem_map_of_mem (f := fun c => c.1.id) hc))
  | code id f => exact ⟨.code (hids id (.head _)) rfl, rfl, hshown⟩
  | _ => exact ⟨.flat rfl, trivial, hshown⟩

/-- Sound values, if identities are the same. -/
theorem reflexive_sound (κ : Kind) : Reflexive κ Eq (Sound κ) :=
  ⟨fun hv => hv.shape, fun hv hpart => hv.part hpart, fun _ _ => rfl⟩

end Value

/-- A sound activation is its own twin if sound values are related to themselves. -/
theorem Activation.Sound.twins {κ : Kind} {R : Value → Value → Prop} {awaited : List Kind}
    {a : Activation} (ha : a.Sound κ awaited) (hself : ∀ {v : Value}, v.Sound κ → R v v) :
    a.Twins κ Eq R awaited a :=
  ha.shape.twins hself (Value.reflexive_sound κ) ha.parts fun _ _ => rfl

/-- A shared state is related to itself if all its values are and nothing else is left to compare. -/
theorem World.related_self {L : Likeness} {d : Discipline} {w : World} (hw : w.Every d)
    (hsupply : L.supply w.supply.objects w.supply.objects) (houtput : L.output w.output w.output)
    (hself : ∀ {v : Value}, v.Every d → L.rel v v) : w.Related L w := by
  refine ⟨?_, ?_, hsupply, houtput, fun _ => ⟨?_, rfl, rfl, rfl⟩⟩
  · intro s
    cases hget : w.globals.get? s with
    | some v => exact .some (hself (hw.globals s v hget))
    | none => exact .none
  · exact List.forall₂_same.2 fun v hv => hself (hw.cells v (Array.mem_toList_iff.1 hv))
  · refine List.forall₂_same.2 fun result hresult => ⟨rfl, ?_⟩
    obtain ⟨id, result⟩ := result
    cases result with
    | ok v => exact hself (hw.results id v hresult)
    | error e => exact rfl

end Resumable
