import Resumable.Proofs.Value.Likeness

/-!
Values without lines. The lines of code serve to tell where something went wrong; taking them away,
from a value and from all that it holds, leaves everything else as it is. Values that are equal
without their lines look the same to programs.
-/

namespace Resumable

mutual

/-- Code without lines, also in its constants. As many zeros stand in their place. -/
def Code.unlined : Code Value → Code Value
  | ⟨name, params, selfName, localCount, captures, bytes, constants, lines⟩ =>
    ⟨name, params, selfName, localCount, captures, bytes, Value.unlinedArray constants,
      lines.map fun _ => 0⟩

/-- A value without the lines of the code that it holds. -/
def Value.unlined : Value → Value
  | .list items => .list (Value.unlinedAll items)
  | .tuple items => .tuple (Value.unlinedAll items)
  | .record fields => .record (Value.unlinedFields fields)
  | .closure id code env => .closure id code.unlined (Value.unlinedFields env)
  | .applied id callee bound => .applied id callee.unlined (Value.unlinedAll bound)
  | .continuation id k => .continuation id k.unlined
  | .handler id clauses => .handler id (Value.unlinedClauses clauses)
  | .code id code => .code id code.unlined
  | v => v

/-- A suspended computation without lines. -/
def Continuation.unlined : Continuation Value → Continuation Value
  | ⟨⟨frames⟩, stack, ⟨handlers⟩⟩ =>
    ⟨⟨Value.unlinedFrames frames⟩, Value.unlinedArray stack, ⟨Value.unlinedHandlers handlers⟩⟩

/-- A frame without lines. -/
def Frame.unlined : Frame Value → Frame Value
  | ⟨code, env, locals, ip, base, boundary⟩ =>
    ⟨code.unlined, Value.unlinedFields env, Value.unlinedArray locals, ip, base, boundary⟩

/-- A handler in force without lines. -/
def Installed.unlined : Installed Value → Installed Value
  | ⟨clauses, depth, height, label⟩ => ⟨Value.unlinedClauses clauses, depth, height, label⟩

/-- Values in an array without lines. -/
def Value.unlinedArray : Array Value → Array Value
  | ⟨vs⟩ => ⟨Value.unlinedAll vs⟩

/-- Values in a list without lines. -/
def Value.unlinedAll : List Value → List Value
  | [] => []
  | v :: vs => v.unlined :: Value.unlinedAll vs

/-- Named values without lines. -/
def Value.unlinedFields : List (Symbol × Value) → List (Symbol × Value)
  | [] => []
  | (s, v) :: fields => (s, v.unlined) :: Value.unlinedFields fields

/-- Clauses without lines. -/
def Value.unlinedClauses : List (Effect × Value) → List (Effect × Value)
  | [] => []
  | (e, v) :: clauses => (e, v.unlined) :: Value.unlinedClauses clauses

/-- Frames without lines. -/
def Value.unlinedFrames : List (Frame Value) → List (Frame Value)
  | [] => []
  | f :: fs => f.unlined :: Value.unlinedFrames fs

/-- Handlers in force without lines. -/
def Value.unlinedHandlers : List (Installed Value) → List (Installed Value)
  | [] => []
  | h :: hs => h.unlined :: Value.unlinedHandlers hs

end

mutual

/-- Once taken away, lines are gone. -/
theorem Code.unlined_unlined (code : Code Value) : code.unlined.unlined = code.unlined := by
  obtain ⟨name, params, selfName, localCount, captures, bytes, constants, lines⟩ := code
  simp only [Code.unlined, Value.unlinedArray_unlined constants, Array.map_map, Function.comp_def]

theorem Value.unlined_unlined (v : Value) : v.unlined.unlined = v.unlined := by
  match v with
  | .list items => simp only [Value.unlined, Value.unlinedAll_unlined items]
  | .tuple items => simp only [Value.unlined, Value.unlinedAll_unlined items]
  | .record fields => simp only [Value.unlined, Value.unlinedFields_unlined fields]
  | .closure id code env =>
    simp only [Value.unlined, code.unlined_unlined, Value.unlinedFields_unlined env]
  | .applied id callee bound =>
    simp only [Value.unlined, callee.unlined_unlined, Value.unlinedAll_unlined bound]
  | .continuation id k => simp only [Value.unlined, k.unlined_unlined]
  | .handler id clauses => simp only [Value.unlined, Value.unlinedClauses_unlined clauses]
  | .code id code => simp only [Value.unlined, code.unlined_unlined]
  | .none | .bool _ | .int _ | .float _ | .str _ | .symbol _ | .native _ _ _ _ | .effect _
  | .cell _ | .label _ => rfl

theorem Continuation.unlined_unlined (k : Continuation Value) : k.unlined.unlined = k.unlined := by
  obtain ⟨⟨frames⟩, stack, ⟨handlers⟩⟩ := k
  simp only [Continuation.unlined, Value.unlinedFrames_unlined frames,
    Value.unlinedArray_unlined stack, Value.unlinedHandlers_unlined handlers]

theorem Frame.unlined_unlined (f : Frame Value) : f.unlined.unlined = f.unlined := by
  obtain ⟨code, env, locals, ip, base, boundary⟩ := f
  simp only [Frame.unlined, code.unlined_unlined, Value.unlinedFields_unlined env,
    Value.unlinedArray_unlined locals]

theorem Installed.unlined_unlined (h : Installed Value) : h.unlined.unlined = h.unlined := by
  obtain ⟨clauses, depth, height, label⟩ := h
  simp only [Installed.unlined, Value.unlinedClauses_unlined clauses]

theorem Value.unlinedArray_unlined (vs : Array Value) :
    Value.unlinedArray (Value.unlinedArray vs) = Value.unlinedArray vs := by
  obtain ⟨vs⟩ := vs
  simp only [Value.unlinedArray, Value.unlinedAll_unlined vs]

theorem Value.unlinedAll_unlined (vs : List Value) :
    Value.unlinedAll (Value.unlinedAll vs) = Value.unlinedAll vs := by
  match vs with
  | [] => rfl
  | v :: vs => simp only [Value.unlinedAll, v.unlined_unlined, Value.unlinedAll_unlined vs]

theorem Value.unlinedFields_unlined (fields : List (Symbol × Value)) :
    Value.unlinedFields (Value.unlinedFields fields) = Value.unlinedFields fields := by
  match fields with
  | [] => rfl
  | (s, v) :: fields =>
    simp only [Value.unlinedFields, v.unlined_unlined, Value.unlinedFields_unlined fields]

theorem Value.unlinedClauses_unlined (clauses : List (Effect × Value)) :
    Value.unlinedClauses (Value.unlinedClauses clauses) = Value.unlinedClauses clauses := by
  match clauses with
  | [] => rfl
  | (e, v) :: clauses =>
    simp only [Value.unlinedClauses, v.unlined_unlined, Value.unlinedClauses_unlined clauses]

theorem Value.unlinedFrames_unlined (fs : List (Frame Value)) :
    Value.unlinedFrames (Value.unlinedFrames fs) = Value.unlinedFrames fs := by
  match fs with
  | [] => rfl
  | f :: fs => simp only [Value.unlinedFrames, f.unlined_unlined, Value.unlinedFrames_unlined fs]

theorem Value.unlinedHandlers_unlined (hs : List (Installed Value)) :
    Value.unlinedHandlers (Value.unlinedHandlers hs) = Value.unlinedHandlers hs := by
  match hs with
  | [] => rfl
  | h :: hs =>
    simp only [Value.unlinedHandlers, h.unlined_unlined, Value.unlinedHandlers_unlined hs]

end

/-- Bindings without lines. -/
def unlinedEnv {α : Type} (env : List (α × Value)) : List (α × Value) :=
  env.map fun b => (b.1, b.2.unlined)

theorem Value.unlinedAll_eq_map (vs : List Value) : Value.unlinedAll vs = vs.map Value.unlined := by
  induction vs with
  | nil => rfl
  | cons v vs ih => rw [Value.unlinedAll, ih, List.map_cons]

theorem Value.unlinedArray_eq_map (vs : Array Value) :
    Value.unlinedArray vs = vs.map Value.unlined := by
  obtain ⟨vs⟩ := vs
  rw [Value.unlinedArray, Value.unlinedAll_eq_map, List.map_toArray]

theorem Value.unlinedFields_eq_map (fields : List (Symbol × Value)) :
    Value.unlinedFields fields = unlinedEnv fields := by
  induction fields with
  | nil => rfl
  | cons f fields ih => exact congrArg (_ :: ·) ih

theorem Value.unlinedClauses_eq_map (clauses : List (Effect × Value)) :
    Value.unlinedClauses clauses = unlinedEnv clauses := by
  induction clauses with
  | nil => rfl
  | cons c clauses ih => exact congrArg (_ :: ·) ih

theorem Value.unlinedFrames_eq_map (fs : List (Frame Value)) :
    Value.unlinedFrames fs = fs.map Frame.unlined := by
  induction fs with
  | nil => rfl
  | cons f fs ih => rw [Value.unlinedFrames, ih, List.map_cons]

theorem Value.unlinedHandlers_eq_map (hs : List (Installed Value)) :
    Value.unlinedHandlers hs = hs.map Installed.unlined := by
  induction hs with
  | nil => rfl
  | cons h hs ih => rw [Value.unlinedHandlers, ih, List.map_cons]

theorem Code.unlined_eq (code : Code Value) :
    code.unlined = { code with
      constants := code.constants.map Value.unlined
      lines := code.lines.map fun _ => 0 } := by
  obtain ⟨name, params, selfName, localCount, captures, bytes, constants, lines⟩ := code
  rw [unlined, Value.unlinedArray_eq_map]

theorem Frame.unlined_eq (f : Frame Value) :
    f.unlined = { f with
      code := f.code.unlined
      env := unlinedEnv f.env
      locals := f.locals.map Value.unlined } := by
  obtain ⟨code, env, locals, ip, base, boundary⟩ := f
  rw [unlined, Value.unlinedFields_eq_map, Value.unlinedArray_eq_map]

theorem Installed.unlined_eq (h : Installed Value) :
    h.unlined = { h with clauses := unlinedEnv h.clauses } := by
  obtain ⟨clauses, depth, height, label⟩ := h
  rw [unlined, Value.unlinedClauses_eq_map]

theorem Continuation.unlined_eq (k : Continuation Value) :
    k.unlined = ⟨k.frames.map Frame.unlined, k.stack.map Value.unlined,
      k.handlers.map Installed.unlined⟩ := by
  obtain ⟨⟨frames⟩, stack, ⟨handlers⟩⟩ := k
  simp only [unlined, Value.unlinedFrames_eq_map, Value.unlinedArray_eq_map,
    Value.unlinedHandlers_eq_map, List.map_toArray]

namespace Value

@[simp]
theorem unlined_list (items : List Value) : (list items).unlined = list (items.map unlined) := by
  rw [unlined, unlinedAll_eq_map]

@[simp]
theorem unlined_tuple (items : List Value) : (tuple items).unlined = tuple (items.map unlined) := by
  rw [unlined, unlinedAll_eq_map]

@[simp]
theorem unlined_record (fields : List (Symbol × Value)) :
    (record fields).unlined = record (unlinedEnv fields) := by
  rw [unlined, unlinedFields_eq_map]

@[simp]
theorem unlined_closure (id : Nat) (code : Code Value) (env : List (Symbol × Value)) :
    (closure id code env).unlined = closure id code.unlined (unlinedEnv env) := by
  rw [unlined, unlinedFields_eq_map]

@[simp]
theorem unlined_applied (id : Nat) (callee : Value) (bound : List Value) :
    (applied id callee bound).unlined = applied id callee.unlined (bound.map unlined) := by
  rw [unlined, unlinedAll_eq_map]

@[simp]
theorem unlined_continuation (id : Nat) (k : Continuation Value) :
    (continuation id k).unlined = continuation id k.unlined := by
  rw [unlined]

@[simp]
theorem unlined_handler (id : Nat) (clauses : List (Effect × Value)) :
    (handler id clauses).unlined = handler id (unlinedEnv clauses) := by
  rw [unlined, unlinedClauses_eq_map]

@[simp]
theorem unlined_code (id : Nat) (c : Code Value) : (code id c).unlined = code id c.unlined := by
  rw [unlined]

end Value

/-- Lists are related item by item to lists with the same images. -/
theorem forall₂_iff_map_eq {α β : Type} (f : α → β) {xs ys : List α} :
    List.Forall₂ (fun x y => f x = f y) xs ys ↔ xs.map f = ys.map f := by
  rw [← List.forall₂_eq_eq_eq, List.forall₂_map_left_iff, List.forall₂_map_right_iff]

theorem env_related_iff {env env' : List (Symbol × Value)} :
    Env.Related (fun v v' => v.unlined = v'.unlined) env env' ↔
      unlinedEnv env = unlinedEnv env' := by
  rw [unlinedEnv, unlinedEnv, ← forall₂_iff_map_eq]
  simp only [Env.Related, Prod.mk.injEq]

namespace Code

variable (code : Code Value)

@[simp]
theorem name_unlined : code.unlined.name = code.name := by
  rw [unlined_eq]

@[simp]
theorem params_unlined : code.unlined.params = code.params := by
  rw [unlined_eq]

@[simp]
theorem selfName_unlined : code.unlined.selfName = code.selfName := by
  rw [unlined_eq]

@[simp]
theorem localCount_unlined : code.unlined.localCount = code.localCount := by
  rw [unlined_eq]

@[simp]
theorem captures_unlined : code.unlined.captures = code.captures := by
  rw [unlined_eq]

@[simp]
theorem bytes_unlined : code.unlined.bytes = code.bytes := by
  rw [unlined_eq]

@[simp]
theorem constants_unlined : code.unlined.constants = code.constants.map Value.unlined := by
  rw [unlined_eq]

end Code

namespace Value

/-- Values that are equal without their lines look the same. -/
theorem alike_of_unlined {v v' : Value} (hsame : v.unlined = v'.unlined) :
    v.Alike Eq (fun v v' => v.unlined = v'.unlined) v' := by
  cases v with
  | list items =>
    cases v' with
    | list items' =>
      simp only [unlined_list, list.injEq] at hsame
      exact .list ((forall₂_iff_map_eq unlined).2 hsame)
    | _ => simp [unlined] at hsame
  | tuple items =>
    cases v' with
    | tuple items' =>
      simp only [unlined_tuple, tuple.injEq] at hsame
      exact .tuple ((forall₂_iff_map_eq unlined).2 hsame)
    | _ => simp [unlined] at hsame
  | record fields =>
    cases v' with
    | record fields' =>
      simp only [unlined_record, record.injEq] at hsame
      exact .record (env_related_iff.2 hsame)
    | _ => simp [unlined] at hsame
  | closure id code env =>
    cases v' with
    | closure id' code' env' =>
      simp only [unlined_closure, closure.injEq] at hsame
      obtain ⟨rfl, hcode, _⟩ := hsame
      exact .closure rfl (by simpa using (congrArg Code.name hcode).symm)
        (by simpa using (congrArg Code.params hcode).symm)
    | _ => simp [unlined] at hsame
  | applied id callee bound =>
    cases v' with
    | applied id' callee' bound' =>
      simp only [unlined_applied, applied.injEq] at hsame
      obtain ⟨rfl, hcallee, hbound⟩ := hsame
      exact .applied rfl hcallee ((forall₂_iff_map_eq unlined).2 hbound)
    | _ => simp [unlined] at hsame
  | continuation id k =>
    cases v' with
    | continuation id' k' =>
      simp only [unlined_continuation, continuation.injEq] at hsame
      obtain ⟨rfl, _⟩ := hsame
      exact .continuation rfl
    | _ => simp [unlined] at hsame
  | handler id clauses =>
    cases v' with
    | handler id' clauses' =>
      simp only [unlined_handler, handler.injEq] at hsame
      obtain ⟨rfl, hclauses⟩ := hsame
      exact .handler rfl (by simpa [unlinedEnv] using (congrArg List.length hclauses).symm)
    | _ => simp [unlined] at hsame
  | code id f =>
    cases v' with
    | code id' f' =>
      simp only [unlined_code, code.injEq] at hsame
      obtain ⟨rfl, hcode⟩ := hsame
      exact .code rfl (by simpa using (congrArg Code.name hcode).symm)
    | _ => simp [unlined] at hsame
  | native id name arity function =>
    cases v' with
    | native => cases hsame; exact .native rfl
    | _ => simp [unlined] at hsame
  | effect e =>
    cases v' with
    | effect => cases hsame; exact .effect ⟨rfl, rfl⟩
    | _ => simp [unlined] at hsame
  | _ => cases v' <;> first | (cases hsame; exact .flat rfl) | simp [unlined] at hsame

end Value

/-- Values that are equal without their lines. -/
def Likeness.unlined : Likeness where
  toCorrespondence := .exact
  rel v v' := v.unlined = v'.unlined
  view := Value.alike_of_unlined
  data := by
    intro v v' hdata _ halike
    cases halike with
    | flat => rfl
    | effect heffect => rw [heffect.eq]
    | list hitems => simpa using (forall₂_iff_map_eq Value.unlined).1 hitems
    | tuple hitems => simpa using (forall₂_iff_map_eq Value.unlined).1 hitems
    | record hfields => simpa using env_related_iff.1 hfields
    | _ => cases hdata
  applied := by
    rintro id _ callee callee' bound bound' rfl hcallee hbound
    simpa using ⟨hcallee, (forall₂_iff_map_eq Value.unlined).1 hbound⟩

end Resumable
