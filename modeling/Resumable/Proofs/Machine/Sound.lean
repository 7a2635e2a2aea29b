import Resumable.Proofs.Machine.Instruction
import Resumable.Proofs.Value.Env

/-!
Soundness of values and of what a machine is made of. A sound value has a good shape, and so have all
values that it holds, to any depth. Clauses of handlers are of kind `κ`. Unless these are functions of
two parameters, there are no functions of an embedding.
-/

namespace Resumable

theorem forall₂_split {α β : Type} {R : α → β → Prop} {xs ys : List α} {zs : List β}
    (h : List.Forall₂ R (xs ++ ys) zs) :
    ∃ us vs, List.Forall₂ R xs us ∧ List.Forall₂ R ys vs ∧ zs = us ++ vs := by
  induction xs generalizing zs with
  | nil => exact ⟨[], zs, .nil, h, rfl⟩
  | cons x xs ih =>
    obtain ⟨z, zs, hz, hrest, rfl⟩ := List.forall₂_cons_left_iff.1 h
    obtain ⟨us, vs, hus, hvs, rfl⟩ := ih hrest
    exact ⟨z :: us, vs, .cons hz hus, hvs, rfl⟩

theorem forall₂_singleton_left {α β : Type} {R : α → β → Prop} {x : α} {ys : List β}
    (h : List.Forall₂ R [x] ys) : ∃ y, R x y ∧ ys = [y] := by
  obtain ⟨y, _, hy, hnil, rfl⟩ := List.forall₂_cons_left_iff.1 h
  cases hnil
  exact ⟨y, hy, rfl⟩

theorem forall₂_concat_left {α β : Type} {R : α → β → Prop} {xs : List α} {x : α} {ys : List β}
    (h : List.Forall₂ R (xs ++ [x]) ys) : ∃ ys' y, ys = ys' ++ [y] ∧ List.Forall₂ R xs ys' ∧ R x y := by
  obtain ⟨us, vs, hus, hvs, rfl⟩ := forall₂_split h
  obtain ⟨y, hy, rfl⟩ := forall₂_singleton_left hvs
  exact ⟨us, y, rfl, hus, hy⟩

/-- The values that a frame holds. -/
def Frame.parts (f : Frame Value) : List Value :=
  f.env.map Prod.snd ++ f.locals.toList

/-- The values that a suspended computation holds. -/
def Continuation.parts (k : Continuation Value) : List Value :=
  k.frames.toList.flatMap Frame.parts ++ k.stack.toList ++
    k.handlers.toList.flatMap fun h => h.clauses.map Prod.snd

/-- The values that a value holds. -/
def Value.parts : Value → List Value
  | list items | tuple items => items
  | record fields => fields.map Prod.snd
  | closure _ _ env => env.map Prod.snd
  | applied _ callee bound => callee :: bound
  | continuation _ k => k.parts
  | handler _ clauses => clauses.map Prod.snd
  | _ => []

theorem sizeOf_lt_of_mem_snd {α : Type} [SizeOf α] {pairs : List (α × Value)} {v : Value}
    (hv : v ∈ pairs.map Prod.snd) : sizeOf v < sizeOf pairs := by
  obtain ⟨⟨a, w⟩, hpair, hsame⟩ := List.mem_map.1 hv
  have hlt := List.sizeOf_lt_of_mem hpair
  simp only [Prod.mk.sizeOf_spec] at hlt
  simp only at hsame
  subst hsame
  omega

theorem Continuation.sizeOf_lt_of_mem_parts {k : Continuation Value} {v : Value} (hv : v ∈ k.parts) :
    sizeOf v < sizeOf k := by
  obtain ⟨frames, stack, handlers⟩ := k
  simp only [Continuation.parts, List.mem_append, List.mem_flatMap, Array.mem_toList_iff] at hv
  simp only [Continuation.mk.sizeOf_spec]
  obtain (⟨f, hf, hv⟩ | hv) | ⟨h, hh, hv⟩ := hv
  · have hlt := Array.sizeOf_lt_of_mem hf
    obtain ⟨code, env, locals, ip, base, boundary⟩ := f
    simp only [Frame.mk.sizeOf_spec] at hlt
    obtain hv | hv := List.mem_append.1 hv
    · have : sizeOf v < sizeOf env := sizeOf_lt_of_mem_snd hv
      omega
    · have : sizeOf v < sizeOf locals := Array.sizeOf_lt_of_mem (Array.mem_toList_iff.1 hv)
      omega
  · have := Array.sizeOf_lt_of_mem hv
    omega
  · have hlt := Array.sizeOf_lt_of_mem hh
    obtain ⟨clauses, depth, height, label⟩ := h
    simp only [Installed.mk.sizeOf_spec] at hlt
    have : sizeOf v < sizeOf clauses := sizeOf_lt_of_mem_snd hv
    omega

/-- Values are larger than the values that they hold. -/
theorem Value.sizeOf_lt_of_mem_parts {v part : Value} (hpart : part ∈ v.parts) :
    sizeOf part < sizeOf v := by
  cases v with
  | list items =>
    have : sizeOf part < sizeOf items := List.sizeOf_lt_of_mem hpart
    simp only [list.sizeOf_spec]
    omega
  | tuple items =>
    have : sizeOf part < sizeOf items := List.sizeOf_lt_of_mem hpart
    simp only [tuple.sizeOf_spec]
    omega
  | record fields =>
    have := sizeOf_lt_of_mem_snd hpart
    simp only [record.sizeOf_spec]
    omega
  | closure id code env =>
    have := sizeOf_lt_of_mem_snd hpart
    simp only [closure.sizeOf_spec]
    omega
  | applied id callee bound =>
    simp only [applied.sizeOf_spec]
    obtain rfl | hpart := List.mem_cons.1 hpart
    · omega
    · have := List.sizeOf_lt_of_mem hpart
      omega
  | continuation id k =>
    have := Continuation.sizeOf_lt_of_mem_parts hpart
    simp only [continuation.sizeOf_spec]
    omega
  | handler id clauses =>
    have := sizeOf_lt_of_mem_snd hpart
    simp only [handler.sizeOf_spec]
    omega
  | _ => cases hpart

/-- A value is of a kind. -/
def Kind.Fits : Kind → Value → Prop
  | .value, _ => True
  | .key, v => ∃ s, v = .symbol s
  | .handler, v => ∃ id clauses, v = .handler id clauses
  | .clause, v => ∃ id code env, v = .closure id code env ∧ code.arity = 2

/-- All names that a function captures are bound. -/
def Code.SuppliedBy (code : Code Value) (env : List (Symbol × Value)) : Prop :=
  ∀ c ∈ code.captures, (Env.get? env c.name).isSome = true

namespace Activation

/-- The values that an activation holds. -/
def parts (a : Activation) : List Value :=
  a.env.map Prod.snd ++ a.locals.toList ++ a.operands ++
    (a.handler.toList.flatMap fun bound => bound.1.map Prod.snd)

/-- An activation that goes on as its code is typed, once it has been given values of the kinds
`awaited`. -/
structure Shape (κ : Kind) (awaited : List Kind) (a : Activation) : Prop where
  code : a.code.Sound κ
  typed : ∃ H last kinds, a.code.WellTyped κ H last ∧ a.ip ≤ last ∧
    H a.ip = some (kinds ++ awaited) ∧ List.Forall₂ Kind.Fits kinds a.operands
  locals : a.code.localCount ≤ a.locals.size
  env : a.code.SuppliedBy a.env
  clauses : ∀ bound ∈ a.handler, ∀ c ∈ bound.1, κ.Fits c.2

end Activation

namespace Value

/-- A value that is not a function with some of its arguments. -/
def Bare (v : Value) : Prop :=
  ∀ args, v.unapply args = (v, args)

/-- The shape of a sound value. A partial application holds fewer arguments than its function takes,
and a suspended computation shows activations that all wait for a value, the first of which is a
boundary. -/
def Shape (κ : Kind) : Value → Prop
  | closure _ f env => f.Sound κ ∧ f.SuppliedBy env
  | native _ _ _ function => κ ≠ .clause → ∀ h, function ≠ .hook h
  | applied _ callee bound => callee.Bare ∧ ∃ n, callee.arity? = some n ∧ bound.length < n
  | continuation _ k => ∃ b above, k = .ofActs (b :: above) ∧ b.handler.isSome = true ∧
    ∀ a ∈ b :: above, a.Shape κ [.value]
  | handler _ clauses => ∀ c ∈ clauses, κ.Fits c.2
  | _ => True

/-- Values that hold no others and of which nothing is asked. -/
def isFlat : Value → Bool
  | none | bool _ | int _ | float _ | str _ | symbol _ | effect _ | cell _ | label _ => true
  | _ => false

/-- Values that hold no others and have no identity. -/
def isBasic : Value → Bool
  | effect _ => false
  | v => v.isFlat

/-- Values that hold nothing but data and other values. -/
def isData : Value → Bool
  | list _ | tuple _ | record _ => true
  | v => v.isFlat

/-- Values that are of use to the machine alone: names of fields, labels, handlers and code. -/
def isInternal : Value → Bool
  | symbol _ | label _ | handler _ _ | code _ _ => true
  | _ => false

/-- Values that hold no others and have no identity, as programs compute them. -/
def isSimple (v : Value) : Bool :=
  v.isBasic && !v.isInternal

theorem isFlat_of_isBasic {v : Value} (hbasic : v.isBasic = true) : v.isFlat = true := by
  cases v <;> first | rfl | cases hbasic

theorem isFlat_of_isSimple {v : Value} (hsimple : v.isSimple = true) : v.isFlat = true := by
  rw [isSimple, Bool.and_eq_true] at hsimple
  exact isFlat_of_isBasic hsimple.1

end Value

/-- A property of values that data has whatever it holds. -/
structure Discipline where
  holds : Value → Prop
  data : ∀ v : Value, v.isData = true → holds v

namespace Value

/-- A value that has a property, as have all values that it holds. -/
inductive Every (d : Discipline) : Value → Prop
  | intro {v : Value} (hholds : d.holds v) (hparts : ∀ part ∈ v.parts, Every d part) : Every d v

theorem Every.holds {d : Discipline} {v : Value} (hevery : v.Every d) : d.holds v := by
  cases hevery with
  | intro hholds _ => exact hholds

theorem Every.part {d : Discipline} {v part : Value} (hevery : v.Every d)
    (hpart : part ∈ v.parts) : part.Every d := by
  cases hevery with
  | intro _ hparts => exact hparts part hpart

/-- A property that all values have. -/
theorem every_of_forall {d : Discipline} (hall : ∀ v, d.holds v) (v : Value) : v.Every d :=
  .intro (hall v) fun part hpart =>
    have := sizeOf_lt_of_mem_parts hpart
    every_of_forall hall part
termination_by sizeOf v

end Value

/-- Values of a good shape. -/
def Kind.discipline (κ : Kind) : Discipline where
  holds := Value.Shape κ
  data := by
    intro v hdata
    cases v <;> first | exact trivial | cases hdata

namespace Value

/-- A value of a good shape that only holds sound values. -/
abbrev Sound (κ : Kind) : Value → Prop :=
  Every κ.discipline

theorem Sound.shape {κ : Kind} {v : Value} (hsound : v.Sound κ) : v.Shape κ :=
  hsound.holds

end Value

/-- An activation of a good shape that only holds sound values. -/
structure Activation.Sound (κ : Kind) (awaited : List Kind) (a : Activation) : Prop where
  shape : a.Shape κ awaited
  parts : ∀ v ∈ a.parts, v.Sound κ

theorem mem_parts_framesFrom {v : Value} (height : Nat) (acts : List Activation) :
    v ∈ (framesFrom height acts).flatMap Frame.parts ↔
      ∃ a ∈ acts, v ∈ a.env.map Prod.snd ++ a.locals.toList := by
  induction acts generalizing height with
  | nil => simp
  | cons a acts ih =>
    rw [framesFrom_cons, List.flatMap_cons, List.mem_append, ih]
    simp [Frame.parts, Activation.frame]

theorem mem_parts_handlersFrom {v : Value} (depth height : Nat) (acts : List Activation) :
    v ∈ (handlersFrom depth height acts).flatMap (fun h => h.clauses.map Prod.snd) ↔
      ∃ a ∈ acts, v ∈ a.handler.toList.flatMap fun bound => bound.1.map Prod.snd := by
  induction acts generalizing depth height with
  | nil => simp
  | cons a acts ih =>
    rw [handlersFrom_cons, List.flatMap_append, List.mem_append, ih]
    cases hhandler : a.handler with
    | none => simp [Activation.installed, hhandler]
    | some bound =>
      obtain ⟨clauses, label⟩ := bound
      simp [Activation.installed, hhandler]

theorem mem_stackOf {v : Value} (acts : List Activation) :
    v ∈ stackOf acts ↔ ∃ a ∈ acts, v ∈ a.mark ∨ v ∈ a.operands := by
  simp [stackOf, Activation.segment]

/-- Suspended activations hold the same values as the computation that they stand for, labels
apart. -/
theorem mem_parts_ofActs {v : Value} {b : Activation} {above : List Activation}
    (hb : b.handler.isSome = true) :
    v ∈ (Continuation.ofActs (b :: above)).parts ↔
      (∃ a ∈ b :: above, v ∈ a.parts) ∨ ∃ a ∈ above, v ∈ a.mark := by
  obtain ⟨⟨clauses, label⟩, hb⟩ := Option.isSome_iff_exists.1 hb
  have htail : (stackOf (b :: above)).tail = b.operands ++ stackOf above := by
    simp [Activation.segment, Activation.mark_eq hb]
  simp only [Continuation.parts, Continuation.ofActs, htail, List.mem_append,
    mem_parts_framesFrom, mem_parts_handlersFrom, mem_stackOf, Activation.parts]
  grind

namespace Value

variable {d : Discipline} {κ : Kind}

theorem every_of_isData {v : Value} (hdata : v.isData = true)
    (hparts : ∀ part ∈ v.parts, part.Every d) : v.Every d :=
  .intro (d.data v hdata) hparts

theorem every_of_isFlat {v : Value} (hflat : v.isFlat = true) : v.Every d := by
  have hdata : v.isData = true := by cases v <;> first | rfl | cases hflat
  have hparts : v.parts = [] := by cases v <;> first | rfl | cases hflat
  exact every_of_isData hdata (by simp [hparts])

theorem every_of_isLiteral {v : Value} (hliteral : v.isLiteral = true) : v.Every d := by
  cases v <;> first | exact every_of_isFlat rfl | cases hliteral

theorem every_list_iff {items : List Value} :
    (list items).Every d ↔ ∀ v ∈ items, v.Every d :=
  ⟨fun hevery _ hmem => hevery.part hmem, fun hitems => every_of_isData rfl hitems⟩

theorem every_tuple_iff {items : List Value} :
    (tuple items).Every d ↔ ∀ v ∈ items, v.Every d :=
  ⟨fun hevery _ hmem => hevery.part hmem, fun hitems => every_of_isData rfl hitems⟩

theorem every_record_iff {fields : List (Symbol × Value)} :
    (record fields).Every d ↔ ∀ v ∈ fields.map Prod.snd, v.Every d :=
  ⟨fun hevery _ hmem => hevery.part hmem, fun hfields => every_of_isData rfl hfields⟩

theorem sound_of_mem_mark {v : Value} {a : Activation} (hmark : v ∈ a.mark) : v.Sound κ := by
  unfold Activation.mark at hmark
  split at hmark
  next =>
    rw [List.mem_singleton] at hmark
    subst hmark
    exact every_of_isFlat rfl
  next => cases hmark

/-- A suspended computation of sound activations is sound. -/
theorem sound_continuation {b : Activation} {above : List Activation}
    (hb : b.handler.isSome = true) (hacts : ∀ a ∈ b :: above, a.Sound κ [.value]) (id : Nat) :
    (continuation id (.ofActs (b :: above))).Sound κ := by
  refine .intro ⟨b, above, rfl, hb, fun a ha => (hacts a ha).shape⟩ ?_
  intro v hv
  obtain ⟨a, ha, hpart⟩ | ⟨a, _, hmark⟩ := (mem_parts_ofActs hb).1 hv
  · exact (hacts a ha).parts v hpart
  · exact sound_of_mem_mark hmark

/-- The activations of a sound suspended computation. -/
theorem Sound.acts {id : Nat} {k : Continuation Value} (hsound : (continuation id k).Sound κ) :
    ∃ b above clauses label, k = .ofActs (b :: above) ∧ b.handler = some (clauses, label) ∧
      ∀ a ∈ b :: above, a.Sound κ [.value] := by
  obtain ⟨b, above, rfl, hb, hshape⟩ := hsound.shape
  obtain ⟨⟨clauses, label⟩, hhandler⟩ := Option.isSome_iff_exists.1 hb
  refine ⟨b, above, clauses, label, rfl, hhandler, ?_⟩
  intro a ha
  exact ⟨hshape a ha, fun v hv => hsound.part ((mem_parts_ofActs hb).2 (Or.inl ⟨a, ha, hv⟩))⟩

/-- A sound function with more arguments: the function under it, and all the arguments. -/
theorem Sound.unapply {v : Value} (hsound : v.Sound κ) {args : List Value}
    (hargs : ∀ w ∈ args, w.Sound κ) :
    (v.unapply args).1.Sound κ ∧ (v.unapply args).1.Bare ∧
      ∀ w ∈ (v.unapply args).2, w.Sound κ := by
  cases v with
  | applied id callee bound =>
    obtain ⟨hbare, _⟩ := hsound.shape
    rw [Value.unapply, hbare]
    refine ⟨hsound.part (by simp [parts]), hbare, ?_⟩
    intro w hw
    obtain hw | hw := List.mem_append.1 hw
    · exact hsound.part (by simp [parts, hw])
    · exact hargs w hw
  | _ => exact ⟨hsound, fun _ => rfl, hargs⟩

end Value

namespace Activation

variable {κ : Kind} {a : Activation}

theorem mem_parts_pushAll {v : Value} {vs : List Value} :
    v ∈ (a.pushAll vs).parts ↔ v ∈ a.parts ∨ v ∈ vs := by
  simp only [parts, pushAll, List.mem_append]
  grind

/-- The values that an activation awaits go on its stack. -/
theorem Sound.pushAll {awaited : List Kind} {vs : List Value} (hsound : a.Sound κ awaited)
    (hfits : List.Forall₂ Kind.Fits awaited vs) (hvs : ∀ v ∈ vs, v.Sound κ) :
    (a.pushAll vs).Sound κ [] := by
  obtain ⟨H, last, kinds, htyped, hlast, hip, hoperands⟩ := hsound.shape.typed
  refine ⟨⟨hsound.shape.code, ⟨H, last, kinds ++ awaited, htyped, hlast, ?_, ?_⟩, hsound.shape.locals,
    hsound.shape.env, hsound.shape.clauses⟩, ?_⟩
  · rw [List.append_nil]
    exact hip
  · exact List.rel_append hoperands hfits
  · intro v hv
    obtain hv | hv := mem_parts_pushAll.1 hv
    · exact hsound.parts v hv
    · exact hvs v hv

theorem Sound.push {v : Value} (hsound : a.Sound κ [.value]) (hv : v.Sound κ) :
    (a.pushAll [v]).Sound κ [] :=
  hsound.pushAll (.cons trivial .nil) (by simpa using hv)

theorem Sound.relabel {awaited : List Kind} (hsound : a.Sound κ awaited) (label : Nat) :
    (a.relabel label).Sound κ awaited := by
  refine ⟨⟨hsound.shape.code, hsound.shape.typed, hsound.shape.locals, hsound.shape.env, ?_⟩, ?_⟩
  · intro bound hbound
    obtain ⟨bound', hbound', rfl⟩ := Option.map_eq_some_iff.1 (Option.mem_def.1 hbound)
    exact hsound.shape.clauses bound' hbound'
  · intro v hv
    refine hsound.parts v ?_
    cases hhandler : a.handler <;> simpa [Activation.parts, Activation.relabel, hhandler] using hv

/-- A clause of the handler of a sound activation. -/
theorem Sound.clause {awaited : List Kind} {clauses : List (Effect × Value)} {label : Nat}
    {effect : Effect} {clause : Value} (hsound : a.Sound κ awaited)
    (hhandler : a.handler = some (clauses, label))
    (hfind : Clauses.find? clauses effect = some clause) : κ.Fits clause ∧ clause.Sound κ := by
  rw [Clauses.find?, Option.map_eq_some_iff] at hfind
  obtain ⟨c, hc, rfl⟩ := hfind
  have hmem := List.mem_of_find?_eq_some hc
  refine ⟨hsound.shape.clauses _ hhandler c hmem, hsound.parts c.2 ?_⟩
  simp only [Activation.parts, hhandler, List.mem_append]
  exact Or.inr (by simpa using ⟨c.1, hmem⟩)

theorem size_locals_enter (closure : Value) (code : Code Value) (env : List (Symbol × Value))
    (args : List Value) (handler : Option (List (Effect × Value) × Nat)) :
    (enter closure code env args handler).locals.size = max code.localCount args.length := by
  have hslots : (args.toArray ++ Array.replicate (max code.localCount args.length - args.length)
      Value.none).size = max code.localCount args.length := by
    rw [Array.size_append, List.size_toArray, Array.size_replicate]
    exact Nat.add_sub_cancel' (Nat.le_max_right _ _)
  simp only [enter, Frame.enter]
  cases code.selfName with
  | none => exact hslots
  | some s => rw [Array.size_setIfInBounds, hslots]

theorem mem_locals_enter {closure v : Value} {code : Code Value} {env : List (Symbol × Value)}
    {args : List Value} {handler : Option (List (Effect × Value) × Nat)}
    (hv : v ∈ (enter closure code env args handler).locals) :
    v ∈ args ∨ v = .none ∨ v = closure := by
  have hslots : v ∈ args.toArray ++ Array.replicate (max code.localCount args.length - args.length)
      Value.none → v ∈ args ∨ v = .none ∨ v = closure := by
    simp
    grind
  simp only [enter, Frame.enter] at hv
  cases hself : code.selfName with
  | none =>
    rw [hself] at hv
    exact hslots hv
  | some s =>
    rw [hself] at hv
    obtain hv | rfl := Array.mem_or_eq_of_mem_setIfInBounds hv
    · exact hslots hv
    · exact Or.inr (Or.inr rfl)

/-- The activation of a sound function that is called with sound arguments. -/
theorem sound_enter {id : Nat} {code : Code Value} {env : List (Symbol × Value)}
    {args : List Value} {handler : Option (List (Effect × Value) × Nat)}
    (hclosure : (Value.closure id code env).Sound κ) (hargs : ∀ v ∈ args, v.Sound κ)
    (hclauses : ∀ bound ∈ handler, ∀ c ∈ bound.1, κ.Fits c.2 ∧ c.2.Sound κ) :
    (enter (.closure id code env) code env args handler).Sound κ [] := by
  obtain ⟨hcode, hsupplied⟩ := hclosure.shape
  obtain ⟨H, last, htyped⟩ : ∃ H last, code.WellTyped κ H last := by
    cases hcode with
    | intro htyped _ _ => exact ⟨_, _, htyped⟩
  refine ⟨⟨hcode, ⟨H, last, [], htyped, Nat.zero_le _, htyped.typed.start, .nil⟩, ?_, hsupplied,
    fun bound hbound c hc => (hclauses bound hbound c hc).1⟩, ?_⟩
  · rw [size_locals_enter]
    exact Nat.le_max_left _ _
  · intro v hv
    simp only [parts, List.mem_append] at hv
    obtain ((hv | hv) | hv) | hv := hv
    · exact hclosure.part hv
    · obtain hv | rfl | rfl := mem_locals_enter (Array.mem_toList_iff.1 hv)
      · exact hargs v hv
      · exact Value.every_of_isFlat rfl
      · exact hclosure
    · cases hv
    · obtain ⟨bound, hbound, hv⟩ := List.mem_flatMap.1 hv
      obtain ⟨c, hc, rfl⟩ := List.mem_map.1 hv
      exact (hclauses bound (Option.mem_toList.1 hbound) c hc).2

/-- What a sound activation does next. It returns its only operand, or it executes an instruction
that takes some of its operands and then awaits values in their place, or it jumps. -/
inductive Next (κ : Kind) (a : Activation) : Prop
  | ret {line : Nat} {v : Value} (hat : a.code.At a.ip .ret 0 line) (hoperands : a.operands = [v])
  | straight {op : Op} {operand line : Nat} {takes leaves : List Kind} {ops vs : List Value}
    (hat : a.code.At a.ip op operand line)
    (hstraight : a.code.Straight κ op.narrow operand takes leaves)
    (htail : op = .tailCall → a.code.Returns (a.ip + 2)) (hoperands : a.operands = ops ++ vs) (hfits : List.Forall₂ Kind.Fits takes vs)
    (hnext : { a with ip := a.ip + 1 + op.width, operands := ops }.Sound κ leaves)
  | jump {operand line : Nat} (hat : a.code.At a.ip .jump operand line)
    (htarget : { a with ip := a.ip + operand }.Sound κ [])
  | branch {operand line : Nat} {ops : List Value} {v : Value}
    (hat : a.code.At a.ip .jumpIfFalse operand line) (hoperands : a.operands = ops ++ [v])
    (htarget : { a with ip := a.ip + operand, operands := ops }.Sound κ [])
    (hnext : { a with ip := a.ip + 3, operands := ops }.Sound κ [])

/-- A sound activation that has come to another offset with part of its operands. -/
theorem Sound.moved {awaited leaves below : List Kind} {H : Code.Typing} {last ip : Nat}
    {ops vs : List Value} (hsound : a.Sound κ awaited) (htyped : a.code.WellTyped κ H last)
    (hlast : ip ≤ last) (hip : H ip = some (below ++ leaves)) (hoperands : a.operands = ops ++ vs)
    (hfits : List.Forall₂ Kind.Fits below ops) :
    { a with ip, operands := ops }.Sound κ leaves := by
  refine ⟨⟨hsound.shape.code, ⟨H, last, below, htyped, hlast, hip, hfits⟩, hsound.shape.locals,
    hsound.shape.env, hsound.shape.clauses⟩, ?_⟩
  intro v hv
  refine hsound.parts v ?_
  simp only [Activation.parts, hoperands, List.mem_append] at hv ⊢
  grind

theorem Sound.next (hsound : a.Sound κ []) : a.Next κ := by
  obtain ⟨H, last, kinds, htyped, hlast, hip, hoperands⟩ := hsound.shape.typed
  rw [List.append_nil] at hip
  obtain hend | hlt := Nat.eq_or_lt_of_le hlast
  · obtain ⟨line, hret⟩ := htyped.ret
    rw [hend, htyped.typed.stop] at hip
    cases hip
    obtain ⟨v, _, _, hnil, hv⟩ := List.forall₂_cons_left_iff.1 hoperands
    rw [List.forall₂_nil_left_iff.1 hnil] at hv
    rw [← hend] at hret
    exact .ret hret hv
  · have hchecked := htyped.typed.checked a.ip kinds (Nat.zero_le _) hlt hip
    cases hchecked with
    | @straight op operand line below takes leaves hat hstraight htail hnext hreach =>
      obtain ⟨ops, vs, hops, hvs, hsplit⟩ := forall₂_split hoperands
      exact .straight hat hstraight htail hsplit hvs (hsound.moved htyped hreach hnext hsplit hops)
    | @jump operand line _ _ hat _ htarget hreach _ _ =>
      have hsplit : a.operands = a.operands ++ [] := by simp
      rw [← List.append_nil kinds] at htarget
      exact .jump hat (hsound.moved htyped hreach htarget hsplit hoperands)
    | @branch operand line below hat _ htarget hreach hnext hreach' =>
      obtain ⟨ops, vs, hops, hvs, hsplit⟩ := forall₂_split hoperands
      obtain ⟨v, _, _, hnil, rfl⟩ := List.forall₂_cons_left_iff.1 hvs
      rw [List.forall₂_nil_left_iff.1 hnil] at hsplit
      rw [← List.append_nil below] at htarget hnext
      exact .branch hat hsplit (hsound.moved htyped hreach htarget hsplit hops)
        (hsound.moved htyped hreach' hnext hsplit hops)

end Activation

end Resumable
