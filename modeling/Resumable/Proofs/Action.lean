import Mathlib.Tactic.Common

/-!
Running actions that work on a state and may fail, step by step.
-/

namespace Resumable

variable {ε σ α β : Type}

theorem bind_eq_ok {x : EStateM ε σ α} {f : α → EStateM ε σ β} {s s' : σ} {b : β} :
    (x >>= f) s = .ok b s' ↔ ∃ a s₁, x s = .ok a s₁ ∧ f a s₁ = .ok b s' := by
  change (match x s with | .ok a s => f a s | .error e s => .error e s) = .ok b s' ↔ _
  cases hx : x s with
  | ok a s₁ => simp
  | error e s₁ => simp

/-- What follows an action that succeeds is run on the state that it leaves. -/
theorem bind_of_ok {x : EStateM ε σ α} {f : α → EStateM ε σ β} {s s₁ : σ} {a : α}
    (hx : x s = .ok a s₁) : (x >>= f) s = f a s₁ := by
  change (match x s with | .ok a s => f a s | .error e s => .error e s) = _
  rw [hx]

/-- Nothing follows an action that fails. -/
theorem bind_of_error {x : EStateM ε σ α} {f : α → EStateM ε σ β} {s s₁ : σ} {e : ε}
    (hx : x s = .error e s₁) : (x >>= f) s = .error e s₁ := by
  change (match x s with | .ok a s => f a s | .error e s => .error e s) = _
  rw [hx]

@[simp]
theorem get_run (s : σ) : (get : EStateM ε σ σ) s = .ok s s :=
  rfl

@[simp]
theorem modify_run (f : σ → σ) (s : σ) : (modify f : EStateM ε σ Unit) s = .ok () (f s) :=
  rfl

@[simp]
theorem modifyGet_run (f : σ → α × σ) (s : σ) :
    (modifyGet f : EStateM ε σ α) s = .ok (f s).1 (f s).2 :=
  rfl

@[simp]
theorem pure_run (a : α) (s : σ) : (pure a : EStateM ε σ α) s = .ok a s :=
  rfl

@[simp]
theorem throw_run (e : ε) (s : σ) : (throw e : EStateM ε σ α) s = .error e s :=
  rfl

@[simp]
theorem bind_get_run (f : σ → EStateM ε σ β) (s : σ) :
    ((get : EStateM ε σ σ) >>= f) s = f s s :=
  rfl

/-- A choice between actions is made before they run. -/
theorem ite_run (c : Prop) [Decidable c] (x y : EStateM ε σ α) (s : σ) :
    (if c then x else y) s = if c then x s else y s := by
  split <;> rfl

/-- Two actions have ended alike: both with values, or both with errors, and these are related, as
are the states that they leave. -/
inductive EndAlike (E : ε → ε → Prop) (S : σ → σ → Prop) (R : α → β → Prop) :
    EStateM.Result ε σ α → EStateM.Result ε σ β → Prop
  | ok {a : α} {b : β} {s s' : σ} (hvalue : R a b) (hstate : S s s') :
    EndAlike E S R (.ok a s) (.ok b s')
  | error {e e' : ε} {s s' : σ} (herror : E e e') (hstate : S s s') :
    EndAlike E S R (.error e s) (.error e' s')

/-- Two actions end alike on all related states. -/
def ActAlike (E : ε → ε → Prop) (S : σ → σ → Prop) (R : α → β → Prop) (x : EStateM ε σ α)
    (y : EStateM ε σ β) : Prop :=
  ∀ s s' : σ, S s s' → EndAlike E S R (x s) (y s')

section ActAlike

variable {γ δ : Type} {E : ε → ε → Prop} {S : σ → σ → Prop} {R : α → β → Prop} {Q : γ → δ → Prop}

theorem actAlike_pure {a : α} {b : β} (hvalue : R a b) :
    ActAlike E S R (pure a : EStateM ε σ α) (pure b : EStateM ε σ β) :=
  fun _ _ hstate => .ok hvalue hstate

theorem actAlike_throw {e e' : ε} (herror : E e e') :
    ActAlike E S R (throw e : EStateM ε σ α) (throw e' : EStateM ε σ β) :=
  fun _ _ hstate => .error herror hstate

theorem actAlike_get : ActAlike E S S (get : EStateM ε σ σ) get :=
  fun _ _ hstate => .ok hstate hstate

theorem actAlike_modify {f g : σ → σ} (hstep : ∀ {s s'}, S s s' → S (f s) (g s')) :
    ActAlike E S (fun _ _ => True) (modify f : EStateM ε σ Unit) (modify g) :=
  fun _ _ hstate => .ok trivial (hstep hstate)

theorem actAlike_modifyGet {f : σ → α × σ} {g : σ → β × σ}
    (hstep : ∀ {s s'}, S s s' → R (f s).1 (g s').1 ∧ S (f s).2 (g s').2) :
    ActAlike E S R (modifyGet f : EStateM ε σ α) (modifyGet g) :=
  fun _ _ hstate => .ok (hstep hstate).1 (hstep hstate).2

/-- What follows actions that end alike ends alike if it does so for related values. -/
theorem ActAlike.bind {x : EStateM ε σ α} {y : EStateM ε σ β} {f : α → EStateM ε σ γ}
    {g : β → EStateM ε σ δ} (hfirst : ActAlike E S R x y)
    (hrest : ∀ {a b}, R a b → ActAlike E S Q (f a) (g b)) :
    ActAlike E S Q (x >>= f) (y >>= g) := by
  intro s s' hstate
  have hends := hfirst s s' hstate
  cases hx : x s with
  | ok a s₁ =>
    cases hy : y s' with
    | ok b s₁' =>
      rw [hx, hy] at hends
      cases hends with
      | ok hvalue hstate => rw [bind_of_ok hx, bind_of_ok hy]; exact hrest hvalue s₁ s₁' hstate
    | error e s₁' => rw [hx, hy] at hends; cases hends
  | error e s₁ =>
    cases hy : y s' with
    | ok b s₁' => rw [hx, hy] at hends; cases hends
    | error e' s₁' =>
      rw [hx, hy] at hends
      cases hends with
      | error herror hstate => rw [bind_of_error hx, bind_of_error hy]; exact .error herror hstate

end ActAlike

end Resumable
