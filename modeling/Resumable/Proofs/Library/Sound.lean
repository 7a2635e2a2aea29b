import Resumable.Proofs.Machine.Invariant

/-!
Functions of the library keep the properties that values have all over the shared state, and fail only
in ordinary ways.
-/

namespace Resumable

namespace RuntimeError

/-- Whether a failure is ordinary. -/
def isOrdinary : RuntimeError → Bool
  | undefinedVariable _ | invalidBytecode _ => false
  | located _ e => e.isOrdinary
  | _ => true

theorem ordinary_of_isOrdinary {e : RuntimeError} (hordinary : e.isOrdinary = true) :
    e.Ordinary := by
  induction e with
  | located line e ih => exact ih hordinary
  | undefinedVariable _ | invalidBytecode _ => cases hordinary
  | _ => constructor <;> (intro _ h; cases h)

/-- Whether a failure is ordinary and not for lack of room. -/
def isPlain : RuntimeError → Bool
  | stackOverflow _ => false
  | located _ e => e.isPlain
  | e => e.isOrdinary

theorem isOrdinary_of_isPlain {e : RuntimeError} (hplain : e.isPlain = true) :
    e.isOrdinary = true := by
  induction e with
  | located line e ih => exact ih hplain
  | stackOverflow _ => rfl
  | _ => exact hplain

theorem ordinary_of_isPlain {e : RuntimeError} (hplain : e.isPlain = true) : e.Ordinary :=
  ordinary_of_isOrdinary (isOrdinary_of_isPlain hplain)

end RuntimeError

namespace Library

variable {d : Discipline} {α : Type}

/-- A computation that fails only in plain ways, and whose results have a property. -/
def Gives (P : α → Prop) : Except RuntimeError α → Prop
  | .ok a => P a
  | .error e => e.isPlain = true

theorem Gives.bind {β : Type} {P : α → Prop} {Q : β → Prop} {x : Except RuntimeError α}
    {f : α → Except RuntimeError β} (hx : Gives P x) (hf : ∀ a, P a → Gives Q (f a)) :
    Gives Q (x >>= f) := by
  cases x with
  | ok a => exact hf a hx
  | error e => exact hx

theorem gives_expectInt (function : String) (v : Value) :
    Gives (fun _ => True) (v.expectInt function) := by
  cases v <;> first | exact trivial | rfl

theorem gives_expectStr (function : String) (v : Value) :
    Gives (fun _ => True) (v.expectStr function) := by
  cases v <;> first | exact trivial | rfl

theorem gives_expectNumber (function : String) (v : Value) :
    Gives (fun _ => True) (v.expectNumber function) := by
  cases v <;> first | exact trivial | rfl

theorem gives_expectItems (function : String) {v : Value} (hv : v.Every d) :
    Gives (fun items => ∀ item ∈ items, item.Every d) (v.expectItems function) := by
  cases v with
  | list items => exact Value.every_list_iff.1 hv
  | tuple items => exact Value.every_tuple_iff.1 hv
  | _ => rfl

theorem gives_ints (op : Arithmetic) (a b : Int64) : Gives (fun _ => True) (op.ints a b) := by
  cases op <;> simp only [Arithmetic.ints] <;> (try split) <;> first | exact trivial | rfl

theorem gives_numbers (op : Arithmetic) (a b : Value) :
    Gives (Value.Every d) (op.numbers a b) := by
  unfold Arithmetic.numbers
  split
  next a b =>
    have hints := gives_ints op a b
    cases hop : op.ints a b with
    | ok n => exact Value.every_of_isFlat rfl
    | error e => rwa [hop] at hints
  next => exact Value.every_of_isFlat rfl
  next => exact Value.every_of_isFlat rfl
  next => exact Value.every_of_isFlat rfl
  next => rfl

theorem gives_values (op : Arithmetic) {a b : Value} (ha : a.Every d) (hb : b.Every d) :
    Gives (Value.Every d) (op.values a b) := by
  unfold Arithmetic.values
  split
  next => exact Value.every_of_isFlat rfl
  next a b =>
    refine Value.every_list_iff.2 fun v hv => ?_
    obtain hv | hv := List.mem_append.1 hv
    · exact Value.every_list_iff.1 ha v hv
    · exact Value.every_list_iff.1 hb v hv
  next => exact gives_numbers op a b

theorem gives_onInts (op : Arithmetic) (a b : Value) : Gives (Value.Every d) (op.onInts a b) := by
  refine (gives_expectInt _ a).bind fun a _ => (gives_expectInt _ b).bind fun b _ => ?_
  exact (gives_ints op a b).bind fun n _ => Value.every_of_isFlat rfl

theorem gives_compare (a b : Value) (test : Comparison) :
    Gives (Value.Every d) ((a.compare b).map fun o => .bool (test.holds o)) := by
  unfold Value.compare
  simp only []
  split
  case h_1 | h_5 => exact Value.every_of_isFlat rfl
  case h_6 => rfl
  -- One of the two is a float, so they may have no order.
  all_goals
    split
    · exact Value.every_of_isFlat rfl
    · rfl

theorem gives_negate (v : Value) : Gives (Value.Every d) (negate v) := by
  unfold negate
  split
  next => exact Value.every_of_isFlat rfl
  next => exact Value.every_of_isFlat rfl
  next => rfl

theorem gives_length (v : Value) : Gives (Value.Every d) (length v) := by
  unfold length
  split
  next => exact Value.every_of_isFlat rfl
  next => exact Value.every_of_isFlat rfl
  next => exact Value.every_of_isFlat rfl
  next => exact Value.every_of_isFlat rfl
  next => rfl

theorem gives_checkIndex (index : Int64) (length : Nat) :
    Gives (fun _ => True) (checkIndex index length) := by
  unfold checkIndex
  simp only []
  split
  · exact trivial
  · rfl

/-- An item of a sequence of values with a property has it. -/
theorem every_getD {items : List Value} (hitems : ∀ item ∈ items, item.Every d) (i : Nat) :
    (items[i]?.getD .none).Every d := by
  cases hitem : items[i]? with
  | some item => exact hitems item (List.mem_of_getElem? hitem)
  | none => exact Value.every_of_isFlat rfl

theorem gives_get {v : Value} (hv : v.Every d) (index : Value) :
    Gives (Value.Every d) (get v index) := by
  refine (gives_expectInt _ index).bind fun index _ => ?_
  split
  next items =>
    exact (gives_checkIndex index _).bind fun i _ => every_getD (Value.every_list_iff.1 hv) i
  next items =>
    exact (gives_checkIndex index _).bind fun i _ => every_getD (Value.every_tuple_iff.1 hv) i
  next s =>
    refine (gives_checkIndex index _).bind fun i _ => ?_
    cases s.toList[i]? <;> exact Value.every_of_isFlat rfl
  next => rfl

theorem gives_push {v item : Value} (hv : v.Every d) (hitem : item.Every d) :
    Gives (Value.Every d) (push v item) := by
  refine (gives_expectItems _ hv).bind fun items hitems => Value.every_list_iff.2 ?_
  intro w hw
  obtain hw | hw := List.mem_append.1 hw
  · exact hitems w hw
  · rw [List.mem_singleton] at hw
    rwa [hw]

theorem gives_head {v : Value} (hv : v.Every d) : Gives (Value.Every d) (head v) := by
  refine (gives_expectItems _ hv).bind fun items hitems => ?_
  cases items with
  | nil => rfl
  | cons item items => exact hitems item (.head _)

theorem gives_tail {v : Value} (hv : v.Every d) : Gives (Value.Every d) (tail v) := by
  refine (gives_expectItems _ hv).bind fun items hitems => ?_
  cases items with
  | nil => rfl
  | cons item items => exact Value.every_list_iff.2 fun w hw => hitems w (.tail _ hw)

theorem gives_range (a b : Value) : Gives (Value.Every d) (range a b) := by
  refine (gives_expectInt _ a).bind fun a _ => (gives_expectInt _ b).bind fun b _ => ?_
  refine Value.every_list_iff.2 fun w hw => ?_
  obtain ⟨i, _, rfl⟩ := List.mem_map.1 hw
  exact Value.every_of_isFlat rfl

theorem gives_fieldOf {v : Value} (hv : v.Every d) (name : Value) :
    Gives (Value.Every d) (fieldOf v name) := by
  refine (gives_expectStr _ name).bind fun name _ => ?_
  split
  next fields =>
    split
    next f hfind =>
      exact Value.every_record_iff.1 hv _ (List.mem_map_of_mem (List.mem_of_find?_eq_some hfind))
    next => rfl
  next => rfl

theorem gives_sqrt (v : Value) : Gives (Value.Every d) (sqrt v) :=
  (gives_expectNumber _ v).bind fun _ _ => Value.every_of_isFlat rfl

theorem gives_absolute (v : Value) : Gives (Value.Every d) (absolute v) := by
  unfold absolute
  split
  next => exact Value.every_of_isFlat rfl
  next =>
    exact (gives_expectNumber _ _).bind fun _ _ => Value.every_of_isFlat rfl

theorem gives_rounded (function : String) (round : Number.Dyadic → Int) (v : Value) :
    Gives (Value.Every d) (rounded function round v) := by
  unfold rounded
  split
  next => exact Value.every_of_isFlat rfl
  next =>
    exact (gives_expectNumber _ _).bind fun _ _ => Value.every_of_isFlat rfl

theorem gives_pow (a b : Value) : Gives (Value.Every d) (pow a b) := by
  have hfloats : Gives (Value.Every d) (do
      let base ← a.expectNumber "pow"
      let exponent ← b.expectNumber "pow"
      return .float (base.pow exponent)) :=
    (gives_expectNumber _ a).bind fun _ _ =>
      (gives_expectNumber _ b).bind fun _ _ => Value.every_of_isFlat rfl
  unfold pow
  simp only []
  split
  next =>
    split
    · exact Value.every_of_isFlat rfl
    · exact hfloats
  next => exact hfloats

theorem gives_mapText (function : String) (f : String → String) (v : Value) :
    Gives (Value.Every d) (mapText function f v) :=
  (gives_expectStr _ v).bind fun _ _ => Value.every_of_isFlat rfl

theorem gives_split (v separator : Value) : Gives (Value.Every d) (split v separator) := by
  refine (gives_expectStr _ v).bind fun s _ => (gives_expectStr _ separator).bind fun sep _ => ?_
  split
  · rfl
  · refine Value.every_list_iff.2 fun w hw => ?_
    obtain ⟨s, _, rfl⟩ := List.mem_map.1 hw
    exact Value.every_of_isFlat rfl

theorem gives_contains (v key : Value) : Gives (Value.Every d) (contains v key) :=
  (gives_expectStr _ v).bind fun _ _ =>
    (gives_expectStr _ key).bind fun _ _ => Value.every_of_isFlat rfl

theorem gives_pick (function : String) (keep : Float → Float → Bool) {a b : Value}
    (ha : a.Every d) (hb : b.Every d) : Gives (Value.Every d) (pick function keep a b) := by
  refine (gives_expectNumber _ a).bind fun x _ => (gives_expectNumber _ b).bind fun y _ => ?_
  change (if keep x y = true then a else b).Every d
  split
  · exact ha
  · exact hb

end Library

/-- The values in a reply have a property. Functions ask for calls or for the number of frames only if
they are `hooked`. -/
def Reply.Every (d : Discipline) (hooked : Prop) : Reply → Prop
  | .value v => v.Every d
  | .call _ callee args => hooked ∧ callee.Every d ∧ ∀ v ∈ args, v.Every d
  | .spawn callee => callee.Every d
  | .depth => hooked

/-- No task has failed on the way from one world to another, and no number has been given back. -/
structure World.Onward (w w' : World) : Prop where
  failures : ∀ e, w'.Keeps e → w.Keeps e
  symbols : w.supply.symbols ≤ w'.supply.symbols
  objects : w.supply.objects ≤ w'.supply.objects

theorem World.Onward.refl (w : World) : w.Onward w :=
  ⟨fun _ h => h, Nat.le_refl _, Nat.le_refl _⟩

theorem World.Onward.of_tasks {w w' : World} (htasks : w'.tasks.results = w.tasks.results)
    (hsupply : w.supply.objects ≤ w'.supply.objects)
    (hsymbols : w.supply.symbols ≤ w'.supply.symbols := by exact Nat.le_refl _) : w.Onward w' := by
  refine ⟨?_, hsymbols, hsupply⟩
  unfold World.Keeps
  rw [htasks]
  exact fun _ h => h

namespace Act

variable {d : Discipline} {hooked : Prop} {w : World}

/-- What a function of the library comes to: a reply, or a failure that is plain or that of a task.
Values keep their property. -/
def Safe (d : Discipline) (hooked : Prop) (w : World) :
    EStateM.Result RuntimeError World Reply → Prop
  | .ok reply w' => reply.Every d hooked ∧ w'.Every d ∧ w.Onward w'
  | .error e w' => (e.isPlain = true ∨ w.Keeps e) ∧ w'.Every d ∧ w.Onward w'

theorem safe_error {e : RuntimeError} (hw : w.Every d) (he : e.isPlain = true) :
    Safe d hooked w (.error e w) :=
  ⟨Or.inl he, hw, .refl w⟩

theorem safe_value {v : Value} (hw : w.Every d) (hv : v.Every d) :
    Safe d hooked w (.ok (.value v) w) :=
  ⟨hv, hw, .refl w⟩

theorem safe_ofExcept {result : Except RuntimeError Value} (hw : w.Every d)
    (hresult : Library.Gives (Value.Every d) result) : Safe d hooked w (ofExcept result w) := by
  cases result with
  | ok v => exact safe_value hw hresult
  | error e => exact safe_error hw hresult

theorem safe_makeCell {v : Value} (hw : w.Every d) (hv : v.Every d) :
    Safe d hooked w (makeCell v w) := by
  refine ⟨Value.every_of_isFlat rfl, ⟨hw.globals, ?_, hw.results⟩, .of_tasks rfl (Nat.le_refl _)⟩
  intro v' hv'
  obtain hv' | rfl := Array.mem_push.1 hv'
  · exact hw.cells v' hv'
  · exact hv

theorem safe_contentOf (v : Value) (hw : w.Every d) : Safe d hooked w (contentOf v w) := by
  cases v with
  | cell id =>
    refine safe_value hw ?_
    cases hcell : w.cells[id]? with
    | some v => exact hw.cells v (Array.mem_of_getElem? hcell)
    | none => exact Value.every_of_isFlat rfl
  | _ => exact safe_error hw rfl

theorem safe_setContent (cell : Value) {content : Value} (hw : w.Every d)
    (hcontent : content.Every d) : Safe d hooked w (setContent cell content w) := by
  cases cell with
  | cell id =>
    refine ⟨Value.every_of_isFlat rfl, ⟨hw.globals, ?_, hw.results⟩, .of_tasks rfl (Nat.le_refl _)⟩
    intro v hv
    obtain hv | rfl := Array.mem_or_eq_of_mem_setIfInBounds hv
    · exact hw.cells v hv
    · exact hcontent
  | _ => exact safe_error hw rfl

theorem safe_makeEffect (v : Value) (hw : w.Every d) : Safe d hooked w (makeEffect v w) := by
  cases v with
  | str s =>
    exact ⟨Value.every_of_isFlat rfl, hw.congr rfl rfl rfl, .of_tasks rfl (Nat.le_succ _)⟩
  | _ => exact safe_error hw rfl

theorem safe_printLine (v : Value) (hw : w.Every d) : Safe d hooked w (printLine v w) :=
  ⟨Value.every_of_isFlat rfl, hw.congr rfl rfl rfl, .of_tasks rfl (Nat.le_refl _)⟩

theorem safe_spawnTask {v : Value} (hw : w.Every d) (hv : v.Every d) :
    Safe d hooked w (spawnTask v w) := by
  unfold spawnTask
  cases v.arity? with
  | some _ => exact ⟨hv, hw, .refl w⟩
  | none => exact safe_error hw rfl

/-- A result that is taken was there, and the others stay. -/
theorem take?_subset (tasks : Tasks) (id : Int) :
    (∀ result, (tasks.take? id).1 = some result → (id, result) ∈ tasks.results) ∧
      ∀ r ∈ (tasks.take? id).2.results, r ∈ tasks.results := by
  unfold Tasks.take?
  cases hlookup : tasks.results.lookup id with
  | none => exact ⟨nofun, fun _ hr => hr⟩
  | some result =>
    obtain ⟨before, after, hsplit, _⟩ := List.lookup_eq_some_iff.1 hlookup
    refine ⟨?_, fun _ hr => List.mem_of_mem_filter hr⟩
    intro result' hresult
    cases hresult
    simp [hsplit]

/-- Waiting for a task takes its result before it looks at it. -/
theorem joinTask_run (id : Int64) (w : World) :
    joinTask (.int id) w = (match (w.tasks.take? id.toInt).1 with
      | some (.ok v) => return .value v
      | some (.error e) => throw e
      | none => throw (.taskFailed ("unknown task " ++ toString id)) : Act Reply)
        { w with tasks := (w.tasks.take? id.toInt).2 } :=
  rfl

theorem safe_joinTask (v : Value) (hw : w.Every d) : Safe d hooked w (joinTask v w) := by
  cases v with
  | int id =>
    obtain ⟨htaken, hrest⟩ := take?_subset w.tasks id.toInt
    obtain ⟨w', hw'⟩ : ∃ w', w' = { w with tasks := (w.tasks.take? id.toInt).2 } := ⟨_, rfl⟩
    have hkept : ∀ e, World.Keeps { w with tasks := (w.tasks.take? id.toInt).2 } e → w.Keeps e := by
      rintro e ⟨id', hmem⟩
      exact ⟨id', hrest _ hmem⟩
    have hevery : w'.Every d := by
      rw [hw']
      exact ⟨hw.globals, hw.cells, fun id' v hmem => hw.results id' v (hrest _ hmem)⟩
    have honward : w.Onward w' := by
      rw [hw']
      exact ⟨hkept, Nat.le_refl _, Nat.le_refl _⟩
    rw [joinTask_run, ← hw']
    cases hresult : (w.tasks.take? id.toInt).1 with
    | none => exact ⟨Or.inl rfl, hevery, honward⟩
    | some result =>
      have hmem := htaken result hresult
      cases result with
      | ok v => exact ⟨hw.results _ v hmem, hevery, honward⟩
      | error e => exact ⟨Or.inr ⟨_, hmem⟩, hevery, honward⟩
  | _ => exact safe_error hw rfl

theorem safe_sleepFor (v : Value) (hw : w.Every d) : Safe d hooked w (sleepFor v w) := by
  cases v with
  | int ms =>
    change Safe d hooked w ((if ms < 0 then throw (.typeError "sleep expects ms >= 0")
      else do
        modify fun w => { w with clock := w.clock + ms.toInt.toNat }
        return .value .none : Act Reply) w)
    rw [ite_run]
    split
    · exact safe_error hw rfl
    · exact ⟨Value.every_of_isFlat rfl, hw.congr rfl rfl rfl, .of_tasks rfl (Nat.le_refl _)⟩
  | _ => exact safe_error hw rfl

theorem safe_ofHook (name : String) (h : Hook) {args : List Value} (hw : w.Every d)
    (hhooked : hooked) (hargs : ∀ v ∈ args, v.Every d) : Safe d hooked w (ofHook name h args w) := by
  unfold ofHook
  split
  next => exact ⟨Value.every_tuple_iff.2 hargs, hw, .refl w⟩
  next callee args =>
    exact ⟨⟨hhooked, hargs _ (.head _), fun v hv => hargs v (.tail _ hv)⟩, hw, .refl w⟩
  next callee args =>
    exact ⟨⟨hhooked, hargs _ (.head _), fun v hv => hargs v (.tail _ hv)⟩, hw, .refl w⟩
  next => exact ⟨hhooked, hw, .refl w⟩
  next => exact safe_error hw rfl
  next => exact safe_error hw rfl
  next => exact safe_error hw rfl
  next => exact safe_error hw rfl

end Act

/-- Functions of the machine keep the properties of values. -/
theorem Native.invoke_safe {d : Discipline} {hooked : Prop} {w : World} {f : Native}
    {args : List Value} (name : String) (hw : w.Every d) (hf : ∀ h, f = .hook h → hooked) (hargs : ∀ v ∈ args, v.Every d) :
    Act.Safe d hooked w (f.invoke name args w) := by
  have hone : ∀ v, args = [v] → v.Every d := fun v h => hargs v (by simp [h])
  have htwo : ∀ v v', args = [v, v'] → v.Every d ∧ v'.Every d :=
    fun v v' h => ⟨hargs v (by simp [h]), hargs v' (by simp [h])⟩
  unfold invoke
  split
  next => exact Act.safe_ofExcept hw (Library.gives_onInts _ _ _)
  next => exact Act.safe_ofExcept hw (Library.gives_values _ (htwo _ _ rfl).1 (htwo _ _ rfl).2)
  next => exact Act.safe_value hw (Value.every_of_isFlat rfl)
  next => exact Act.safe_value hw (Value.every_of_isFlat rfl)
  next => exact Act.safe_ofExcept hw (Library.gives_compare _ _ _)
  next => exact Act.safe_ofExcept hw (Library.gives_negate _)
  next => exact Act.safe_value hw (Value.every_of_isFlat rfl)
  next => exact Act.safe_ofExcept hw (Library.gives_length _)
  next => exact Act.safe_ofExcept hw (Library.gives_get (htwo _ _ rfl).1 _)
  next => exact Act.safe_ofExcept hw (Library.gives_push (htwo _ _ rfl).1 (htwo _ _ rfl).2)
  next => exact Act.safe_ofExcept hw (Library.gives_head (hone _ rfl))
  next => exact Act.safe_ofExcept hw (Library.gives_tail (hone _ rfl))
  next => exact Act.safe_ofExcept hw (Library.gives_range _ _)
  next => exact Act.safe_ofExcept hw (Library.gives_fieldOf (htwo _ _ rfl).1 _)
  next => exact Act.safe_value hw (Value.every_of_isFlat rfl)
  next => exact Act.safe_value hw (Value.every_of_isFlat rfl)
  next => exact Act.safe_makeCell hw (hone _ rfl)
  next => exact Act.safe_contentOf _ hw
  next => exact Act.safe_setContent _ hw (htwo _ _ rfl).2
  next => exact Act.safe_makeEffect _ hw
  next => exact Act.safe_error hw rfl
  next => exact Act.safe_printLine _ hw
  next => exact Act.safe_spawnTask hw (hone _ rfl)
  next => exact Act.safe_joinTask _ hw
  next => exact Act.safe_ofExcept hw (Library.gives_sqrt _)
  next => exact Act.safe_ofExcept hw (Library.gives_absolute _)
  next => exact Act.safe_ofExcept hw (Library.gives_rounded _ _ _)
  next => exact Act.safe_ofExcept hw (Library.gives_rounded _ _ _)
  next => exact Act.safe_ofExcept hw (Library.gives_pow _ _)
  next => exact Act.safe_ofExcept hw (Library.gives_pick _ _ (htwo _ _ rfl).1 (htwo _ _ rfl).2)
  next => exact Act.safe_ofExcept hw (Library.gives_pick _ _ (htwo _ _ rfl).1 (htwo _ _ rfl).2)
  next => exact Act.safe_value hw (Value.every_of_isFlat rfl)
  next => exact Act.safe_ofExcept hw (Library.gives_mapText _ _ _)
  next => exact Act.safe_ofExcept hw (Library.gives_mapText _ _ _)
  next => exact Act.safe_ofExcept hw (Library.gives_mapText _ _ _)
  next => exact Act.safe_ofExcept hw (Library.gives_split _ _)
  next => exact Act.safe_ofExcept hw (Library.gives_contains _ _)
  next => exact Act.safe_value hw (Value.every_of_isFlat rfl)
  next => exact Act.safe_sleepFor _ hw
  next h _ =>
    exact Act.safe_ofHook name _ hw (hf _ rfl) hargs
  next => exact Act.safe_error hw rfl

/-- Functions of the machine give no number back. -/
theorem Native.invoke_onward {hooked : Prop} {f : Native} (hf : ∀ h, f = .hook h → hooked) (name : String)
    (args : List Value) (w : World) :
    match f.invoke name args w with
    | .ok _ w' => w.Onward w'
    | .error _ w' => w.Onward w' := by
  have hall : ∀ v : Value, v.Every ⟨fun _ => True, fun _ _ => trivial⟩ :=
    Value.every_of_forall fun _ => trivial
  have hsafe : Act.Safe _ hooked w (f.invoke name args w) := Native.invoke_safe name
    ⟨fun _ _ _ => hall _, fun _ _ => hall _, fun _ _ _ => hall _⟩ hf fun v _ => hall v
  generalize f.invoke name args w = r at hsafe
  cases r with
  | ok reply w' => exact hsafe.2.2
  | error e w' => exact hsafe.2.2

end Resumable
