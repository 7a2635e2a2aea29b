import Resumable.Proofs.Machine.Suspension

/-!
Which functions of the machine a move calls, be it in the place of a clause that answers an effect.
-/

namespace Resumable

/-- A value that is called with the given arguments is a function of the machine of the kind `p`, and
has been given all its arguments. -/
def Value.Invokes (p : Native → Bool) (callee : Value) (args : List Value) : Prop :=
  ∃ id name arity function given, callee.unapply args = (.native id name arity function, given) ∧
    given.length = arity ∧ p function = true

theorem Value.Invokes.mono {p q : Native → Bool} (hle : ∀ f, p f = true → q f = true) {callee : Value}
    {args : List Value} (h : callee.Invokes p args) : callee.Invokes q args := by
  obtain ⟨id, name, arity, function, given, hunapply, hlength, hp⟩ := h
  exact ⟨id, name, arity, function, given, hunapply, hlength, hle function hp⟩

namespace Exec

/-- A call is one of a function of the kind `p`. If it raises an effect that a handler answers, the call
of the clause is. -/
inductive Invokes (p : Native → Bool) : Value → List Value → Machine → Prop
  | here {callee : Value} {args : List Value} {m : Machine} (hcallee : callee.Invokes p args) :
    Invokes p callee args m
  | clause {callee clause payload : Value} {args : List Value} {m s s₁ : Machine} {effect : Effect}
    {index : Nat} {h : Installed Value} {k : Continuation Value}
    (happly : apply callee args m = .ok (.raise effect payload) s)
    (hfind : findHandler s.thread.handlers (baseOf s.thread.levels) effect s.thread.handlers.size =
      some (index, h, clause))
    (hcapture : capture index h s = .ok k s₁)
    (hinvokes : Invokes p clause (clauseArgs clause payload (.continuation s₁.world.draw.1 k))
      s₁.drawn) : Invokes p callee args m

variable {m s : Machine} {callee : Value} {args : List Value} {effect : Effect} {payload : Value}

/-- Only an effect is raised. -/
theorem unapply_of_raise (happly : apply callee args m = .ok (.raise effect payload) s) :
    (callee.unapply args).1 = .effect effect := by
  unfold apply at happly
  generalize callee.unapply args = f at happly
  obtain ⟨f, args⟩ := f
  simp only at happly ⊢
  cases f with
  | closure id code env => obtain ⟨_, h⟩ | ⟨_, h⟩ := withArity_eq_ok happly <;> cases h
  | native id name arity function =>
    obtain ⟨_, h⟩ | ⟨_, h⟩ := withArity_eq_ok happly
    · cases h
    · obtain ⟨reply, _, _, h⟩ := bind_eq_ok.1 h
      cases reply <;> cases h
  | effect e =>
    match args, happly with
    | [], happly =>
      obtain ⟨_, h⟩ | ⟨hfull, _⟩ := withArity_eq_ok happly
      · cases h
      · cases hfull
    | [_], happly =>
      cases happly
      rfl
    | _ :: _ :: _, happly =>
      obtain ⟨_, h⟩ | ⟨hfull, _⟩ := withArity_eq_ok happly
      · cases h
      · cases hfull
  | continuation id k =>
    match args, happly with
    | [], happly => obtain ⟨_, h⟩ | ⟨_, h⟩ := withArity_eq_ok happly <;> cases h
    | [_], happly => cases happly
    | _ :: _ :: _, happly => obtain ⟨_, h⟩ | ⟨_, h⟩ := withArity_eq_ok happly <;> cases h
  | _ => cases happly

/-- Functions of the program do not raise an effect as soon as they are called. -/
theorem apply_closure_ne_raise {id : Nat} {f : Code Value} {env : List (Symbol × Value)} :
    apply (.closure id f env) args m ≠ .ok (.raise effect payload) s := by
  intro happly
  cases unapply_of_raise happly

end Exec

namespace Machine

/-- The next move of a machine calls a function of the machine of the kind `p`: the call that it makes
does, or the instruction that it executes is a call that does. -/
inductive Invokes (p : Native → Bool) (m : Machine) : Prop
  | made {level : Level} {levels : List Level} {callee : Value} {args : List Value}
    (hlevels : m.thread.levels = level :: levels) (hphase : level.phase = .made callee args)
    (hinvokes : Exec.Invokes p callee args (m.setPhase .opening))
  | instruction {level : Level} {levels : List Level} {i : Fetched} {callee : Value}
    {args : List Value} {m₁ m₂ m₃ : Machine} (hlevels : m.thread.levels = level :: levels)
    (hphase : level.phase = .running) (hfetch : Exec.fetch m = .ok i m₁)
    (hop : i.op = .call ∨ i.op = .tailCall) (hcallee : Exec.pop m₁ = .ok callee m₂)
    (hargs : Exec.popMany i.operand m₂ = .ok args m₃) (hinvokes : Exec.Invokes p callee args m₃)

variable {p : Native → Bool} {m s : Machine} {callee : Value} {args : List Value}

/-- Whether all clauses that are in force are functions of the program. -/
def clausesAreClosures (m : Machine) : Bool :=
  m.thread.handlers.all fun h => h.clauses.all fun c =>
    match c.2 with
    | .closure .. => true
    | _ => false

theorem closure_of_clausesAreClosures (hclosures : s.clausesAreClosures = true) {j : Nat}
    {h : Installed Value} {effect : Effect} {clause : Value} (hentry : s.thread.handlers[j]? = some h)
    (hclause : Clauses.find? h.clauses effect = some clause) :
    ∃ id f env, clause = .closure id f env := by
  obtain ⟨c, hfind, rfl⟩ := Option.map_eq_some_iff.1 hclause
  rw [clausesAreClosures, Array.all_eq_true_iff_forall_mem] at hclosures
  have hfunction := List.all_eq_true.1 (hclosures h (Array.mem_of_getElem? hentry)) c
    (List.mem_of_find?_eq_some hfind)
  split at hfunction
  next id f env hclosure => exact ⟨id, f, env, hclosure⟩
  next => cases hfunction

/-- Whether a call comes to none of a function of the kind `p`. For an effect it is enough if all clauses
are functions of the program. -/
def sparesCall (p : Native → Bool) (callee : Value) (args : List Value) (m : Machine) : Bool :=
  match (callee.unapply args).1 with
  | .native _ _ _ function => !p function
  | .effect _ => m.clausesAreClosures
  | _ => true

theorem not_invokes_of_sparesCall (hspares : m.sparesCall p callee args = true) :
    ¬ Exec.Invokes p callee args m := by
  intro hinvokes
  cases hinvokes with
  | here hcallee =>
    obtain ⟨id, name, arity, function, given, hunapply, _, hp⟩ := hcallee
    simp only [sparesCall, hunapply, hp] at hspares
    cases hspares
  | clause happly hfind _ hinvokes =>
    obtain ⟨w, rfl⟩ := Exec.apply_worldOnly callee args m _ _ happly
    simp only [sparesCall, Exec.unapply_of_raise happly] at hspares
    obtain ⟨hentry, _, hclause⟩ := findHandler_eq_some hfind
    obtain ⟨id, f, env, rfl⟩ := closure_of_clausesAreClosures hspares hentry hclause
    cases hinvokes with
    | here hcallee =>
      obtain ⟨_, _, _, _, _, hunapply, _⟩ := hcallee
      cases hunapply
    | clause happly => exact Exec.apply_closure_ne_raise happly

/-- Whether the next move makes no call, or one that comes to none of a function of the kind `p`. -/
def sparesCalls (p : Native → Bool) (m : Machine) : Bool :=
  match m.thread.levels with
  | [] => true
  | level :: _ =>
    match level.phase with
    | .made callee args => (m.setPhase .opening).sparesCall p callee args
    | .opening => true
    | .running =>
      match Exec.fetch m with
      | .ok i m₁ =>
        match Exec.pop m₁ with
        | .ok callee m₂ =>
          match Exec.popMany i.operand m₂ with
          | .ok args m₃ => (i.op != .call && i.op != .tailCall) || m₃.sparesCall p callee args
          | .error _ _ => true
        | .error _ _ => true
      | .error _ _ => true

theorem not_invokes_of_sparesCalls (hspares : m.sparesCalls p = true) : ¬ m.Invokes p := by
  intro hinvokes
  cases hinvokes with
  | made hlevels hphase hinvokes =>
    simp only [sparesCalls, hlevels, hphase] at hspares
    exact not_invokes_of_sparesCall hspares hinvokes
  | @instruction level levels i _ _ _ _ _ hlevels hphase hfetch hop hcallee hargs hinvokes =>
    have hcall : (i.op != .call && i.op != .tailCall) = false := by
      obtain hop | hop := hop <;> simp [hop]
    simp only [sparesCalls, hlevels, hphase, hfetch, hcallee, hargs, hcall, Bool.false_or] at hspares
    exact not_invokes_of_sparesCall hspares hinvokes

end Machine

end Resumable
