import Resumable.Proofs.Machine.TwinTasks

/-!
Internal values are sealed off from programs. Names of fields, labels, handlers and code never get
where a program can see them: they only stand on the stack where the code has put them, or below the
operands of a boundary.
-/

namespace Resumable

section Left

variable {κ : Kind} {R R' : Value → Value → Prop} (hleft : ∀ {v v'}, R v v' → R' v v)

theorem forall₂_left {α β : Type} {S : α → β → Prop} {S' : α → α → Prop} {xs : List α} {ys : List β}
    (h : List.Forall₂ S xs ys) (hS : ∀ {x y}, S x y → S' x x) : List.Forall₂ S' xs xs := by
  refine List.forall₂_same.2 fun x hx => ?_
  obtain ⟨y, _, hrel⟩ := exists_of_mem_left h hx
  exact hS hrel

include hleft

theorem ClausesTwin.left {clauses clauses' : List (Effect × Value)}
    (h : ClausesTwin κ Eq R clauses clauses') : ClausesTwin κ Eq R' clauses clauses :=
  forall₂_left h fun hc => ⟨⟨rfl, rfl⟩, hleft hc.2.1, hc.2.2⟩

theorem Kind.Joins.left {k : Kind} {p : Value × Value} (h : κ.Joins Eq R k p) :
    κ.Joins Eq R' k (p.1, p.1) := by
  cases k with
  | value => exact hleft h
  | key =>
    obtain ⟨s, rfl⟩ := h
    exact ⟨s, rfl⟩
  | handler =>
    obtain ⟨id, id', clauses, clauses', rfl, _, hclauses⟩ := h
    exact ⟨id, id, clauses, clauses, rfl, rfl, hclauses.left hleft⟩
  | clause => exact ⟨hleft h.1, h.2⟩

/-- The first of two twins is its own twin. -/
theorem Activation.Twins.left {awaited : List Kind} {a a' : Activation}
    (h : a.Twins κ Eq R awaited a') : a.Twins κ Eq R' awaited a := by
  obtain ⟨H, last, kinds, pairs, htyped, hlast, hip, hpairs, hoperands, _⟩ := h.typed
  refine ⟨rfl, rfl, h.sound, h.room, h.supplied, forall₂_left h.env fun hb => ⟨rfl, hleft hb.2⟩,
    forall₂_left h.locals hleft, ⟨H, last, kinds, pairs.map fun p => (p.1, p.1), htyped, hlast, hip, ?_,
      ?_, ?_⟩, ?_⟩
  · rw [List.forall₂_map_right_iff]
    exact hpairs.imp fun _ _ hp => hp.left hleft
  · rw [hoperands, List.map_map]
    rfl
  · rw [hoperands, List.map_map]
    rfl
  · have hhandler := h.handler
    generalize a.handler = bound, a'.handler = bound' at hhandler
    cases hhandler with
    | some hclauses => exact .some (hclauses.left hleft)
    | none => exact .none

theorem Value.TwinsWith.left {hidden : Bool} {v v' : Value} (h : v.TwinsWith κ hidden R v') :
    v.TwinsWith κ hidden R' v := by
  have hinner := h.inner
  have hordinary := h.ordinary
  cases h.alike with
  | flat hflat =>
    refine ⟨.flat hflat, ?_, hordinary⟩
    cases v <;> trivial
  | effect => exact ⟨.effect ⟨rfl, rfl⟩, trivial, hordinary⟩
  | list hitems => exact ⟨.list (forall₂_left hitems hleft), trivial, hordinary⟩
  | tuple hitems => exact ⟨.tuple (forall₂_left hitems hleft), trivial, hordinary⟩
  | record hfields =>
    exact ⟨.record (forall₂_left hfields fun hb => ⟨rfl, hleft hb.2⟩), trivial, hordinary⟩
  | closure =>
    obtain ⟨_, hf, hsupplied, henv⟩ := hinner
    exact ⟨.closure rfl rfl rfl, ⟨rfl, hf, hsupplied, forall₂_left henv fun hb => ⟨rfl, hleft hb.2⟩⟩,
      hordinary⟩
  | native => exact ⟨.native rfl, hinner, hordinary⟩
  | applied _ hcallee hbound =>
    exact ⟨.applied rfl (hleft hcallee) (forall₂_left hbound hleft), trivial, hordinary⟩
  | continuation =>
    obtain ⟨b, above, b', above', rfl, rfl, hb, hacts⟩ := hinner
    exact ⟨.continuation rfl, ⟨b, above, b, above, rfl, rfl, hb,
      forall₂_left hacts fun ha => ha.left hleft⟩, hordinary⟩
  | handler => exact ⟨.handler rfl rfl, forall₂_left hinner fun hc => ⟨⟨rfl, rfl⟩, hleft hc.2⟩, hordinary⟩
  | code => exact ⟨.code rfl rfl, rfl, hordinary⟩

end Left

/-- The first of two twins is its own twin. -/
theorem Value.Twins.self {κ : Kind} {hidden : Bool} {v v' : Value} (h : v.Twins κ hidden v') :
    v.Twins κ hidden v := by
  refine ⟨fun u u' => u' = u ∧ ∃ w, u.Twins κ hidden w, ?_, rfl, v', h⟩
  rintro u _ ⟨rfl, w, hu⟩
  exact hu.unfold.left fun hparts => ⟨rfl, _, hparts⟩

/-- A value on the stack where the code has put a value of the given kind. -/
def Kind.Allows : Kind → Value → Prop
  | .value, v => v.isInternal = false
  | .key, v => ∃ s, v = .symbol s
  | .handler, v => ∃ id clauses, v = .handler id clauses
  | .clause, v => v.isInternal = false

/-- An activation on whose stack names of fields and handlers only stand where its code has put
them. -/
def Activation.Placed (κ : Kind) (a : Activation) : Prop :=
  ∃ H last kinds awaited, a.code.WellTyped κ H last ∧ H a.ip = some (kinds ++ awaited) ∧
    List.Forall₂ Kind.Allows kinds a.operands

namespace Value

/-- What programs can get hold of if a value stands on the stack. Names and labels are there for the
machine, and of a handler the clauses are called. -/
def onStack : Value → List Value
  | symbol _ | label _ => []
  | handler _ clauses => clauses.map Prod.snd
  | v => [v]

end Value

/-- What programs can get hold of by means of a suspended computation. -/
def Continuation.shown (k : Continuation Value) : List Value :=
  k.frames.toList.flatMap Frame.parts ++ k.stack.toList.flatMap Value.onStack ++
    k.handlers.toList.flatMap fun h => h.clauses.map Prod.snd

namespace Value

/-- What programs can get hold of by means of a value. -/
def shown : Value → List Value
  | continuation _ k => k.shown
  | v => v.parts

/-- A value that is not internal and by means of which programs get hold of no internal value. -/
inductive Open (κ : Kind) : Value → Prop
  | intro {v : Value} (hordinary : v.isInternal = false) (hshown : ∀ part ∈ v.shown, Open κ part)
    (hplaced : ∀ id k, v = .continuation id k → ∃ acts, k = .ofActs acts ∧ ∀ a ∈ acts, a.Placed κ) :
    Open κ v

theorem shown_of_isFlat {v : Value} (hflat : v.isFlat = true) : v.shown = [] := by
  cases v <;> first | rfl | cases hflat

theorem onStack_of_ordinary {v : Value} (hv : v.isInternal = false) : v.onStack = [v] := by
  cases v <;> first | rfl | cases hv

theorem sizeOf_le_of_mem_onStack {v part : Value} (hpart : part ∈ v.onStack) :
    sizeOf part ≤ sizeOf v := by
  cases v with
  | symbol | label => simp [onStack] at hpart
  | handler id clauses => exact Nat.le_of_lt (sizeOf_lt_of_mem_parts (v := handler id clauses) hpart)
  | _ =>
    obtain rfl := List.mem_singleton.1 hpart
    exact Nat.le_refl _

/-- Values are larger than what they show. -/
theorem sizeOf_lt_of_mem_shown {v part : Value} (hpart : part ∈ v.shown) : sizeOf part < sizeOf v := by
  cases v with
  | continuation id k =>
    simp only [shown, Continuation.shown, List.mem_append] at hpart
    have hparts : ∀ {w : Value}, w ∈ k.parts → sizeOf w < sizeOf (continuation id k) :=
      fun hw => sizeOf_lt_of_mem_parts (v := continuation id k) hw
    obtain (hpart | hpart) | hpart := hpart
    · exact hparts (by simp only [Continuation.parts, List.mem_append]; exact Or.inl (Or.inl hpart))
    · obtain ⟨w, hw, hpart⟩ := List.mem_flatMap.1 hpart
      have hlt := hparts (w := w) (by
        simp only [Continuation.parts, List.mem_append]
        exact Or.inl (Or.inr hw))
      exact Nat.lt_of_le_of_lt (sizeOf_le_of_mem_onStack hpart) hlt
    · exact hparts (by simp only [Continuation.parts, List.mem_append]; exact Or.inr hpart)
  | _ => exact sizeOf_lt_of_mem_parts hpart

/-- A part that is not internal is shown. -/
theorem mem_shown_of_mem_parts {v part : Value} (hpart : part ∈ v.parts)
    (hordinary : part.isInternal = false) : part ∈ v.shown := by
  cases v with
  | continuation id k =>
    simp only [parts, Continuation.parts, List.mem_append] at hpart
    simp only [shown, Continuation.shown, List.mem_append, List.mem_flatMap]
    obtain (hpart | hpart) | hpart := hpart
    · exact Or.inl (Or.inl (List.mem_flatMap.1 hpart))
    · refine Or.inl (Or.inr ⟨part, hpart, ?_⟩)
      rw [onStack_of_ordinary hordinary]
      exact .head _
    · exact Or.inr (List.mem_flatMap.1 hpart)
  | _ => exact hpart

end Value

variable {κ : Kind} {awaited : List Kind} {a a' : Activation} {v w : Value}

/-- What programs can get hold of by means of an activation. -/
def Activation.shown (a : Activation) : List Value :=
  a.env.map Prod.snd ++ a.locals.toList ++ a.operands.flatMap Value.onStack ++
    a.handler.toList.flatMap fun bound => bound.1.map Prod.snd

theorem ClausesRelated.exists_of_mem {ids : Nat → Nat → Prop} {R : Value → Value → Prop}
    {clauses clauses' : List (Effect × Value)} (h : ClausesRelated ids R clauses clauses')
    (hv : v ∈ clauses.map Prod.snd) : ∃ v', R v v' := by
  obtain ⟨c, hc, rfl⟩ := List.mem_map.1 hv
  obtain ⟨c', _, _, hrel⟩ := exists_of_mem_left h hc
  exact ⟨c'.2, hrel⟩

theorem Env.Related.exists_of_mem {R : Value → Value → Prop} {env env' : List (Symbol × Value)}
    (h : Env.Related R env env') (hv : v ∈ env.map Prod.snd) : ∃ v', R v v' := by
  obtain ⟨b, hb, rfl⟩ := List.mem_map.1 hv
  obtain ⟨b', _, _, hrel⟩ := exists_of_mem_left h hb
  exact ⟨b'.2, hrel⟩

theorem ClausesTwin.exists_of_mem {ids : Nat → Nat → Prop} {R : Value → Value → Prop}
    {clauses clauses' : List (Effect × Value)} (h : ClausesTwin κ ids R clauses clauses') (hv : v ∈ clauses.map Prod.snd) : ∃ v', R v v' := by
  obtain ⟨v', hrel, _⟩ := ClausesRelated.exists_of_mem h hv
  exact ⟨v', hrel⟩

namespace Value

/-- What is shown by a value on the stack has a twin, if internal values are hidden. -/
theorem twin_of_onStack {kind : Kind} {v' : Value}
    (hjoins : κ.Joins Eq (Twins κ true) kind (v, v')) (hw : w ∈ v.onStack) : ∃ w', w.Twins κ true w' := by
  have hordinary : v.Twins κ true v' → ∃ w', w.Twins κ true w' := by
    intro hv
    rw [onStack_of_ordinary (hv.unfold.ordinary rfl), List.mem_singleton] at hw
    subst hw
    exact ⟨v', hv⟩
  cases kind with
  | value => exact hordinary hjoins
  | key =>
    obtain ⟨s, hpair⟩ := hjoins
    cases hpair
    cases hw
  | handler =>
    obtain ⟨id, id', clauses, clauses', hpair, _, hclauses⟩ := hjoins
    cases hpair
    exact hclauses.exists_of_mem hw
  | clause => exact hordinary hjoins.1

theorem allows_of_joins {kind : Kind} {v' : Value} (hjoins : κ.Joins Eq (Twins κ true) kind (v, v')) :
    kind.Allows v := by
  cases kind with
  | value => exact hjoins.unfold.ordinary rfl
  | key =>
    obtain ⟨s, hpair⟩ := hjoins
    cases hpair
    exact ⟨s, rfl⟩
  | handler =>
    obtain ⟨id, id', clauses, clauses', hpair, _⟩ := hjoins
    cases hpair
    exact ⟨id, clauses, rfl⟩
  | clause => exact hjoins.1.unfold.ordinary rfl

end Value

/-- What is shown by the first of two twins has a twin. -/
theorem Activation.Twins.twin_of_shown (ha : a.Twins κ Eq (Value.Twins κ true) awaited a')
    (hw : w ∈ a.shown) : ∃ w', w.Twins κ true w' := by
  simp only [Activation.shown, List.mem_append] at hw
  obtain ((hw | hw) | hw) | hw := hw
  · exact ha.env.exists_of_mem hw
  · obtain ⟨w', _, hrel⟩ := exists_of_mem_left ha.locals hw
    exact ⟨w', hrel⟩
  · obtain ⟨_, _, kinds, pairs, _, _, _, hpairs, hoperands, _⟩ := ha.typed
    obtain ⟨u, hu, hw⟩ := List.mem_flatMap.1 hw
    rw [hoperands] at hu
    obtain ⟨p, hp, rfl⟩ := List.mem_map.1 hu
    obtain ⟨kind, _, hjoins⟩ := exists_of_mem_left hpairs.flip hp
    exact Value.twin_of_onStack hjoins hw
  · obtain ⟨bound, hbound, hw⟩ := List.mem_flatMap.1 hw
    have hhandler := ha.handler
    rw [Option.mem_toList.1 hbound] at hhandler
    generalize a'.handler = bound' at hhandler
    cases hhandler with
    | some hclauses => exact hclauses.exists_of_mem hw

theorem Activation.Twins.placed (ha : a.Twins κ Eq (Value.Twins κ true) awaited a') : a.Placed κ := by
  obtain ⟨H, last, kinds, pairs, htyped, _, hip, hpairs, hoperands, _⟩ := ha.typed
  refine ⟨H, last, kinds, awaited, htyped, hip, ?_⟩
  rw [hoperands, List.forall₂_map_right_iff]
  exact hpairs.imp fun _ _ hjoins => Value.allows_of_joins hjoins

/-- What is shown by activations on a stack. -/
theorem mem_shown_stackOf {acts : List Activation} (hw : w ∈ (stackOf acts).flatMap Value.onStack) :
    ∃ a ∈ acts, w ∈ a.operands.flatMap Value.onStack := by
  obtain ⟨u, hu, hw⟩ := List.mem_flatMap.1 hw
  obtain ⟨a, ha, hmark | hoperand⟩ := (mem_stackOf acts).1 hu
  · unfold Activation.mark at hmark
    split at hmark
    next =>
      obtain rfl := List.mem_singleton.1 hmark
      cases hw
    next => cases hmark
  · exact ⟨a, ha, List.mem_flatMap.2 ⟨u, hoperand, hw⟩⟩

/-- Suspended activations show the same values as the computation that they stand for. -/
theorem mem_shown_ofActs {acts : List Activation} (hw : w ∈ (Continuation.ofActs acts).shown) :
    ∃ a ∈ acts, w ∈ a.shown := by
  simp only [Continuation.shown, Continuation.ofActs, List.mem_append] at hw
  have hshown : ∀ {a : Activation}, w ∈ a.env.map Prod.snd ++ a.locals.toList ∨
      w ∈ a.operands.flatMap Value.onStack ∨
      w ∈ a.handler.toList.flatMap (fun bound => bound.1.map Prod.snd) → w ∈ a.shown := by
    intro a h
    simp only [Activation.shown, List.mem_append] at h ⊢
    tauto
  obtain (hw | hw) | hw := hw
  · obtain ⟨a, ha, hw⟩ := (mem_parts_framesFrom 0 acts).1 hw
    exact ⟨a, ha, hshown (Or.inl hw)⟩
  · have hstack : w ∈ (stackOf acts).flatMap Value.onStack := by
      obtain ⟨u, hu, hw⟩ := List.mem_flatMap.1 hw
      exact List.mem_flatMap.2 ⟨u, List.mem_of_mem_tail hu, hw⟩
    obtain ⟨a, ha, hw⟩ := mem_shown_stackOf hstack
    exact ⟨a, ha, hshown (Or.inr (Or.inl hw))⟩
  · obtain ⟨a, ha, hw⟩ := (mem_parts_handlersFrom 0 0 acts).1 hw
    exact ⟨a, ha, hshown (Or.inr (Or.inr hw))⟩

namespace Value

/-- What is shown by the first of two twins has a twin. -/
theorem Twins.twin_of_shown {v' : Value} (hv : v.Twins κ true v') (hw : w ∈ v.shown) :
    ∃ w', w.Twins κ true w' := by
  have hinner := hv.unfold.inner
  have hrelated : ∀ {vs vs' : List Value}, List.Forall₂ (Twins κ true) vs vs' → w ∈ vs →
      ∃ w', w.Twins κ true w' := by
    intro vs vs' hrel hw
    obtain ⟨w', _, hrel⟩ := exists_of_mem_left hrel hw
    exact ⟨w', hrel⟩
  cases hv.unfold.alike with
  | flat hflat =>
    rw [shown_of_isFlat (isFlat_of_isBasic hflat)] at hw
    cases hw
  | effect => cases hw
  | list hitems => exact hrelated hitems hw
  | tuple hitems => exact hrelated hitems hw
  | record hfields => exact hfields.exists_of_mem hw
  | closure => exact hinner.2.2.2.exists_of_mem hw
  | native => cases hw
  | applied _ hcallee hbound => exact hrelated (.cons hcallee hbound) hw
  | continuation =>
    obtain ⟨b, above, b', above', rfl, rfl, _, hacts⟩ := hinner
    obtain ⟨a, ha, hw⟩ := mem_shown_ofActs hw
    obtain ⟨a', _, htwins⟩ := exists_of_mem_left hacts ha
    exact htwins.twin_of_shown hw
  | handler => exact ClausesRelated.exists_of_mem hinner hw
  | code => cases hw

/-- The first of two twins is open, if internal values are hidden. -/
theorem Twins.open {v' : Value} (hv : v.Twins κ true v') : v.Open κ := by
  induction hsize : sizeOf v using Nat.strongRecOn generalizing v v' with
  | ind n ih =>
    subst hsize
    refine .intro (hv.unfold.ordinary rfl) ?_ ?_
    · intro part hpart
      obtain ⟨part', hrel⟩ := hv.twin_of_shown hpart
      exact ih _ (sizeOf_lt_of_mem_shown hpart) hrel rfl
    · rintro id k rfl
      have hinner := hv.unfold.inner
      cases hv.unfold.alike with
      | flat hflat => cases hflat
      | continuation =>
        obtain ⟨b, above, b', above', rfl, rfl, _, hacts⟩ := hinner
        refine ⟨b :: above, rfl, fun a ha => ?_⟩
        obtain ⟨a', _, htwins⟩ := exists_of_mem_left hacts ha
        exact htwins.placed

end Value

/-- What programs can get hold of by means of a thread. -/
def Thread.shown (t : Thread) : List Value :=
  t.frames.toList.flatMap Frame.parts ++ t.stack.toList.flatMap Value.onStack ++
    t.handlers.toList.flatMap (fun h => h.clauses.map Prod.snd) ++ t.levels.flatMap Level.parts

/-- A thread on whose stack internal values only stand where code has put them, or below the operands
of a boundary, and by means of which programs get hold of no internal value. -/
structure Thread.Sealed (κ : Kind) (t : Thread) : Prop where
  placed : ∃ acts extra, t = t.showing acts extra ∧ (∀ a ∈ acts, a.Placed κ) ∧
    ∀ v ∈ extra, v.isInternal = false
  shown : ∀ v ∈ t.shown, v.Open κ

/-- A machine that keeps internal values from programs. -/
structure Machine.Sealed (κ : Kind) (m : Machine) : Prop where
  world : ∀ v, m.world.Holds v → v.Open κ
  threads : ∀ t ∈ m.threads, t.Sealed κ

theorem World.Related.twin_of_holds {hidden : Bool} {m m' : World}
    (hworld : m.Related (twinning κ hidden) m') (hv : m.Holds v) : ∃ v', v.Twins κ hidden v' := by
  obtain ⟨s, hget⟩ | hcell | ⟨id, hresult⟩ := hv
  · have hrel := hworld.globals s
    rw [hget] at hrel
    generalize m'.globals.get? s = found at hrel
    cases hrel with
    | some hrel => exact ⟨_, hrel⟩
  · obtain ⟨v', _, hrel⟩ := exists_of_mem_left hworld.cells (Array.mem_toList_iff.2 hcell)
    exact ⟨v', hrel⟩
  · obtain ⟨⟨_, result'⟩, _, _, hrel⟩ := exists_of_mem_left (hworld.rest rfl).results hresult
    cases result' with
    | ok v' => exact ⟨v', hrel⟩
    | error => cases hrel

/-- Threads of twins keep internal values from programs. -/
theorem Thread.sealed_of_twins {t : Thread} {acts : List Activation} {extra : List Value}
    (hshows : t = t.showing acts extra)
    (hacts : ∀ a ∈ acts, ∃ awaited a', a.Twins κ Eq (Value.Twins κ true) awaited a')
    (hextra : ∀ v ∈ extra, ∃ v', v.Twins κ true v')
    (hlevels : ∀ v ∈ t.levels.flatMap Level.parts, ∃ v', v.Twins κ true v') : t.Sealed κ := by
  refine ⟨⟨acts, extra, hshows, ?_, ?_⟩, ?_⟩
  · intro a ha
    obtain ⟨awaited, a', htwins⟩ := hacts a ha
    exact htwins.placed
  · intro v hv
    obtain ⟨v', hrel⟩ := hextra v hv
    exact hrel.unfold.ordinary rfl
  · intro v hv
    suffices htwin : ∃ v', v.Twins κ true v' by
      obtain ⟨v', hrel⟩ := htwin
      exact hrel.open
    have hin : (∃ a ∈ acts, v ∈ a.shown) → ∃ v', v.Twins κ true v' := by
      rintro ⟨a, ha, hv⟩
      obtain ⟨awaited, a', htwins⟩ := hacts a ha
      exact htwins.twin_of_shown hv
    simp only [Thread.shown, List.mem_append] at hv
    rw [hshows] at hv
    simp only [showing_frames, showing_stack, showing_handlers, showing_levels, List.flatMap_append,
      List.mem_append] at hv
    obtain ((hv | hv | hv) | hv) | hv := hv
    · obtain ⟨a, ha, hv⟩ := (mem_parts_framesFrom 0 acts).1 hv
      exact hin ⟨a, ha, by simp only [Activation.shown, List.mem_append] at hv ⊢; tauto⟩
    · obtain ⟨a, ha, hv⟩ := mem_shown_stackOf hv
      exact hin ⟨a, ha, by simp only [Activation.shown, List.mem_append]; tauto⟩
    · obtain ⟨u, hu, hv⟩ := List.mem_flatMap.1 hv
      obtain ⟨u', hrel⟩ := hextra u hu
      rw [Value.onStack_of_ordinary (hrel.unfold.ordinary rfl), List.mem_singleton] at hv
      subst hv
      exact ⟨u', hrel⟩
    · obtain ⟨a, ha, hv⟩ := (mem_parts_handlersFrom 0 0 acts).1 hv
      exact hin ⟨a, ha, by simp only [Activation.shown, List.mem_append]; tauto⟩
    · exact hlevels v hv

/-- Threads of their own: nothing lies below their first calls. -/
structure Footing.Bare (F : Footing) : Prop where
  low : F.low = []
  outer : F.outer = []

section

variable {F : Footing} {level level' : Level} {levels levels' : List Level}
  {below below' mid mid' : List Activation} {t t' : Thread}

theorem Level.WaitTogether.parts (hwaits : level.WaitTogether κ level' mid) : level.parts = [] := by
  obtain ⟨hphase, _⟩ | ⟨hphase, _⟩ := hwaits
  · simp only [Level.parts, hphase]
  · simp only [Level.parts, hphase]

/-- Below a call of a thread of its own there are twins, and calls that wait. -/
theorem Under.twins (hunder : Under κ true F level level' below below' levels levels') (hF : F.Bare) :
    (∀ a ∈ below, ∃ a', a.Twins κ Eq (Value.Twins κ true) [.value] a') ∧
      levels.flatMap Level.parts = [] := by
  induction hunder with
  | first =>
    rw [hF.low, hF.outer]
    exact ⟨nofun, rfl⟩
  | @inner level level' o o' below below' mid mid' levels levels' _ _ hmid hwaits _ _ _ ih =>
    refine ⟨fun a ha => ?_, ?_⟩
    · obtain ha | ha := List.mem_append.1 ha
      · exact ih.1 a ha
      · obtain ⟨a', _, htwins⟩ := exists_of_mem_left hmid ha
        exact ⟨a', htwins⟩
    · rw [List.flatMap_cons, hwaits.parts, ih.2]
      rfl

theorem Thread.WaitTogether.sealed (ht : t.WaitTogether κ true F t') (hF : F.Bare) : t.Sealed κ := by
  obtain ⟨hlevels, _, hunder, hmid, hwaits, hshows, _⟩ := ht
  obtain ⟨hbelow, hparts⟩ := hunder.twins hF
  refine Thread.sealed_of_twins hshows ?_ nofun ?_
  · intro a ha
    obtain ha | ha := List.mem_append.1 ha
    · exact ⟨_, hbelow a ha⟩
    · obtain ⟨a', _, htwins⟩ := exists_of_mem_left hmid ha
      exact ⟨_, a', htwins⟩
  · rw [hlevels, List.flatMap_cons, hwaits.parts, hparts]
    nofun

theorem Thread.RunTogether.sealed (ht : t.RunTogether κ true F t') (hF : F.Bare) : t.Sealed κ := by
  obtain @⟨level, level', levels, levels', below, below', mid, mid', extra, extra', hlevels, _, hunder,
    hunderway, hshows, _⟩ := ht
  obtain ⟨hbelow, hparts⟩ := hunder.twins hF
  have hcalls : (∀ a ∈ mid, ∃ awaited a', a.Twins κ Eq (Value.Twins κ true) awaited a') ∧
      (∀ v ∈ extra, ∃ v', v.Twins κ true v') ∧ ∀ v ∈ level.parts, ∃ v', v.Twins κ true v' := by
    unfold Level.parts
    generalize level.phase = phase at hunderway
    generalize level'.phase = phase' at hunderway
    cases hunderway with
    | made hcallee hargs =>
      refine ⟨nofun, nofun, fun v hv => ?_⟩
      obtain ⟨v', _, hrel⟩ := exists_of_mem_left (List.Forall₂.cons hcallee hargs) hv
      exact ⟨v', hrel⟩
    | given hv => exact ⟨nofun, by simpa using ⟨_, hv⟩, nofun⟩
    | stranded _ hv => exact ⟨nofun, by simpa using ⟨_, hv⟩, nofun⟩
    | @entered phase pre pre' a a' hphase hpre ha =>
      refine ⟨fun b hb => ?_, nofun, ?_⟩
      · obtain hb | hb := List.mem_append.1 hb
        · obtain ⟨b', _, htwins⟩ := exists_of_mem_left hpre hb
          exact ⟨_, b', htwins⟩
        · obtain rfl := List.mem_singleton.1 hb
          exact ⟨_, a', ha⟩
      · obtain rfl | rfl := hphase <;> nofun
  refine Thread.sealed_of_twins hshows ?_ hcalls.2.1 ?_
  · intro a ha
    obtain ha | ha := List.mem_append.1 ha
    · exact ⟨_, hbelow a ha⟩
    · exact hcalls.1 a ha
  · rw [hlevels, List.flatMap_cons, hparts, List.append_nil]
    exact hcalls.2.2

end

theorem WaitingTogether.sealed {F G : Footing} {tasks tasks' : List (Int × Thread)}
    (htasks : WaitingTogether κ true F [] [] G tasks tasks') (hF : F.Bare) :
    G.Bare ∧ ∀ w ∈ tasks, w.2.Sealed κ := by
  induction htasks with
  | nil => exact ⟨hF, nofun⟩
  | cons _ ht ih =>
    refine ⟨⟨rfl, rfl⟩, fun w hw => ?_⟩
    obtain rfl | hw := List.mem_cons.1 hw
    · exact ht.sealed ih.1
    · exact ih.2 w hw

/-- Machines that run together on threads of their own keep internal values from programs. -/
theorem Machine.Together.sealed {F : Footing} {m m' : Machine} (hm : Together κ true F [] [] m m')
    (hF : F.Bare) : m.Sealed κ := by
  obtain ⟨hworld, G, htasks, hrun⟩ := hm
  obtain ⟨hG, hwaiting⟩ := htasks.sealed hF
  refine ⟨fun v hv => ?_, fun t ht => ?_⟩
  · obtain ⟨v', hrel⟩ := hworld.twin_of_holds hv
    exact hrel.open
  · obtain rfl | ht := List.mem_cons.1 ht
    · exact hrun.sealed hG
    · obtain ⟨w, hw, rfl⟩ := List.mem_map.1 ht
      exact hwaiting w hw

namespace Machine

/-- The calls that the next move of a machine makes, each in the state in which it is made: the call
that is due, the one that an instruction makes, and those of the clauses that answer effects. -/
inductive Makes (m : Machine) : Machine → Value → List Value → Prop
  | due {level : Level} {levels : List Level} {callee : Value} {args : List Value}
    (hlevels : m.thread.levels = level :: levels) (hphase : level.phase = .made callee args) :
    Makes m (m.setPhase .opening) callee args
  | instruction {level : Level} {levels : List Level} {i : Fetched} {callee : Value}
    {args : List Value} {s : Machine} (hlevels : m.thread.levels = level :: levels)
    (hphase : level.phase = .running) (hcalling : m.Calling i callee args s) : Makes m s callee args
  | clause {s s₁ s₂ : Machine} {callee payload clause : Value} {args : List Value} {effect : Effect}
    {j : Nat} {h : Installed Value} {k : Continuation Value} (hmakes : Makes m s callee args)
    (happly : Exec.apply callee args s = .ok (.raise effect payload) s₁)
    (hanswers : s₁.thread.Answers effect j h clause) (hcapture : Exec.capture j h s₁ = .ok k s₂) :
    Makes m s₂.drawn clause
      (Exec.clauseArgs clause payload (.continuation s₂.world.draw.1 k))

/-- A call made in a thread of twins. -/
structure MadeTogether (κ : Kind) (hidden : Bool) (low low' : List Activation) (s s' : Machine)
    (callee callee' : Value) (args args' : List Value) : Prop where
  world : s.world.Related (twinning κ hidden) s'.world
  unseen : Unseen s.thread.levels low
  unseen' : Unseen s'.thread.levels low'
  shows : ∃ mid mid', List.Forall₂ (Activation.Twins κ Eq (Value.Twins κ hidden) [.value]) mid mid' ∧
    s = s.showing (low ++ mid) [] ∧ s' = s'.showing (low' ++ mid') []
  callee : callee.Twins κ hidden callee'
  args : List.Forall₂ (Value.Twins κ hidden) args args'

variable {hidden : Bool} {F : Footing} {m m' s : Machine} {callee : Value} {args : List Value}

/-- A clause that answers an effect is called as a twin, with the computation from its handler on. -/
theorem MadeTogether.answered {low low' : List Activation} {s₁ s₂ s' : Machine} {effect : Effect}
    {payload clause callee' : Value} {args' : List Value} {j : Nat} {h : Installed Value}
    {k : Continuation Value} (hmade : MadeTogether κ hidden low low' s s' callee callee' args args')
    (happly : Exec.apply callee args s = .ok (.raise effect payload) s₁)
    (hanswers : s₁.thread.Answers effect j h clause) (hcapture : Exec.capture j h s₁ = .ok k s₂) :
    ∃ s' clause' args', MadeTogether κ hidden low low' s₂.drawn s' clause clause'
      (Exec.clauseArgs clause payload (.continuation s₂.world.draw.1 k)) args' := by
  obtain ⟨mid, mid', hmid, hshows, hshows'⟩ := hmade.shows
  have hagree := Exec.apply_agree (L := twinning κ hidden) (Or.inl rfl) hmade.world hmade.callee hmade.args
  rw [happly] at hagree
  generalize Exec.apply callee' args' s' = r' at hagree
  cases hagree with
  | @ok _ _ w w' htransfer hw =>
    cases htransfer with
    | @raise _ effect _ payload' heffect hpayload =>
      obtain rfl := heffect.eq
      have hthread : s.thread = s.thread.showing (low ++ mid) [] := congrArg thread hshows
      have hfound := findHandler_twins hmade.unseen hmade.unseen' hmid heffect
      have hfind := findHandler_of_answers hanswers
      simp only [] at hfind
      rw [hthread, Thread.showing_handlers, Thread.showing_levels, List.size_toArray] at hfind
      rw [hfind] at hfound
      generalize findHandler _ (Exec.baseOf s'.thread.levels) effect _ = found' at hfound
      cases hfound with
      | @some _ found' hfound =>
        obtain ⟨index', h', clause'⟩ := found'
        obtain ⟨⟨pre, pre', b, b', above, above', clauses, clauses', label, label', rfl, rfl, hpre, hb,
          habove, hhandler, _, rfl, rfl, _⟩, hclause, _⟩ := hfound
        have hcut := Exec.capture_showing { s with world := w } (low ++ pre) above b clauses label
          hhandler
        rw [List.append_assoc] at hcut
        have hover : ({ s with world := w } : Machine).showing (low ++ (pre ++ b :: above)) [] =
            { s with world := w } := by
          rw [showing, ← hthread]
        rw [hover, hcapture] at hcut
        cases hcut
        obtain ⟨hid, hdrawn⟩ := hw.draw_eq rfl
        have hk : (Value.continuation w.draw.1 (.ofActs (b :: above))).Twins κ hidden
            (.continuation w'.draw.1 (.ofActs (b' :: above'))) := by
          rw [hid]
          exact Value.twins_continuation rfl (by rw [hhandler]; rfl) (.cons hb habove)
        have hdrawn' : ({ s with world := w }.showing (low ++ pre) [] : Machine).drawn.world.Related
            (twinning κ hidden) ({ s' with world := w'.draw.2 }.showing (low' ++ pre') []).world :=
          hdrawn
        exact ⟨_, clause', _, hdrawn', hmade.unseen, hmade.unseen', ⟨pre, pre', hpre, rfl, rfl⟩, hclause,
          Exec.clauseArgs_related (L := twinning κ hidden) hclause hpayload hk⟩

/-- Every call that one of two machines makes that run together is one of twins. -/
theorem Makes.together (hmakes : m.Makes s callee args)
    (hF : κ ≠ .clause → F.low = [] ∧ F.low' = [])
    (hworld : m.world.Related (twinning κ hidden) m'.world)
    (hrun : m.thread.RunTogether κ hidden F m'.thread) :
    ∃ low low' s' callee' args', MadeTogether κ hidden low low' s s' callee callee' args args' := by
  obtain @⟨level, level', levels, levels', low, low', mid, mid', extra, extra', hlevels, hlevels', hunder,
    hunderway, hshows, hshows'⟩ := hrun
  induction hmakes with
  | @due _ _ callee args hcalls hphase =>
    cases hlevels.symm.trans hcalls
    rw [hphase] at hunderway
    generalize level'.phase = phase' at hunderway
    cases hunderway with
    | entered hentered => simp at hentered
    | made hcallee hargs =>
      have hopening := hunder.setPhase .opening .opening
      refine ⟨low, low', m'.setPhase .opening, _, _, hworld, ?_, ?_, ⟨[], [], .nil, ?_, ?_⟩, hcallee,
        hargs⟩
      · simp only [setPhase, Thread.setPhase, hlevels]
        exact unseen_of_above hopening.above.1
      · simp only [setPhase, Thread.setPhase, hlevels']
        exact unseen_of_above hopening.above.2
      · exact setPhase_showing (eq_showing hshows) .opening
      · exact setPhase_showing (eq_showing hshows') .opening
  | @instruction _ _ i callee args s hcalls hphase hcalling =>
    cases hlevels.symm.trans hcalls
    rw [eq_showing hshows] at hcalling
    generalize hsame : level.phase = phase, level'.phase = phase' at hunderway
    cases hunderway with
    | made => cases hphase.symm.trans hsame
    | given => cases hphase.symm.trans hsame
    | stranded hκ =>
      -- Without frames no instruction is fetched.
      obtain ⟨rfl, _⟩ := hunder.eq_nil hF hκ
      obtain ⟨_, _, hfetch, _⟩ := hcalling.operands
      cases hfetch
    | @entered _ pre pre' a a' _ hpre ha =>
      rw [← List.append_assoc] at hcalling
      obtain ⟨b, b', callee', args', rfl, hb, _, _, hcallee, hargs, _⟩ :=
        hcalling.twins ha m' (low' ++ pre')
      refine ⟨low, low', m'.showing (low' ++ (pre' ++ [b'])) [], callee', args', hworld, ?_, ?_,
        ⟨pre ++ [b], pre' ++ [b'], List.rel_append hpre (.cons hb .nil), ?_, rfl⟩, hcallee, hargs⟩
      · rw [showing_thread, Thread.showing_levels, hlevels]
        exact unseen_of_above hunder.above.1
      · rw [showing_thread, Thread.showing_levels, hlevels']
        exact unseen_of_above hunder.above.2
      · rw [List.append_assoc]
        rfl
  | clause _ happly hanswers hcapture ih =>
    obtain ⟨low, low', _, _, _, hmade⟩ := ih
    obtain ⟨s', clause', args', hanswered⟩ := hmade.answered happly hanswers hcapture
    exact ⟨low, low', s', clause', args', hanswered⟩

/-- What a call invokes is the callee of one of the calls on the way. -/
theorem Makes.invokes {p : Native → Bool} (hmakes : m.Makes s callee args)
    (hinvokes : Exec.Invokes p callee args s) :
    ∃ s' callee' args', m.Makes s' callee' args' ∧ callee'.Invokes p args' := by
  induction hinvokes with
  | here hcallee => exact ⟨_, _, _, hmakes, hcallee⟩
  | clause happly hfind hcapture _ ih =>
    exact ih (.clause hmakes happly (answers_of_findHandler hfind) hcapture)

/-- Without functions of an embedding, no call tells the number of frames. -/
theorem Together.not_tells {waiting waiting' : List (Int × Thread)} (hκ : κ ≠ .clause)
    (hF : κ ≠ .clause → F.low = [] ∧ F.low' = [])
    (hm : Together κ hidden F waiting waiting' m m') : ¬ m.Invokes (Pairing.exact hidden).tells := by
  obtain ⟨hworld, G, htasks, hrun⟩ := hm
  have hplain : ∀ {s : Machine} {callee : Value} {args : List Value}, m.Makes s callee args →
      ¬ callee.Invokes (Pairing.exact hidden).tells args := by
    rintro s callee args hmakes ⟨id, name, arity, function, given, hnative, _, htells⟩
    obtain ⟨_, _, _, callee', args', hmade⟩ := hmakes.together (htasks.low_eq_nil hF) hworld hrun
    have hbare := (Likeness.unapply_related (L := twinning κ hidden) hmade.callee hmade.args).1
    rw [hnative] at hbare
    have hplain : ∀ h, function ≠ .hook h := hbare.unfold.inner hκ
    cases function <;> first | exact absurd rfl (hplain _) | cases htells
  intro hinvokes
  cases hinvokes with
  | made hlevels hphase hinvokes =>
    obtain ⟨_, _, _, hmakes, hcallee⟩ := (Makes.due hlevels hphase).invokes hinvokes
    exact hplain hmakes hcallee
  | instruction hlevels hphase hfetch hop hcallee hargs hinvokes =>
    obtain ⟨_, _, _, hmakes, hcallee⟩ :=
      (Makes.instruction hlevels hphase ⟨hop, _, _, hfetch, hcallee, hargs⟩).invokes hinvokes
    exact hplain hmakes hcallee

end Machine

end Resumable
