import Resumable.Proofs.Library.Sound

/-!
Functions of the library have nothing to do with global variables, and only one of them with tasks:
the one that waits for a task. The others do the same whatever these are, and leave them alone.
-/

namespace Resumable

/-- The shared state with the global variables and tasks of another. -/
def World.within (w outer : World) : World :=
  { w with globals := outer.globals, tasks := outer.tasks }

/-- A result that leaves the global variables and tasks of another shared state. -/
def resultWithin {ε α : Type} (outer : World) : EStateM.Result ε World α → EStateM.Result ε World α
  | .ok a w => .ok a (w.within outer)
  | .error e w => .error e (w.within outer)

namespace Act

/-- An action that does the same whatever the global variables and tasks are. -/
def Local {α : Type} (action : Act α) : Prop :=
  ∀ w outer : World, action (w.within outer) = resultWithin outer (action w)

theorem local_ofExcept (result : Except RuntimeError Value) : Local (ofExcept result) := by
  cases result <;> exact fun _ _ => rfl

theorem local_contentOf (v : Value) : Local (contentOf v) := by
  cases v <;> exact fun _ _ => rfl

theorem local_setContent (cell content : Value) : Local (setContent cell content) := by
  cases cell <;> exact fun _ _ => rfl

theorem local_makeEffect (v : Value) : Local (makeEffect v) := by
  unfold makeEffect
  cases v.expectStr "new_effect" <;> exact fun _ _ => rfl

theorem local_spawnTask (v : Value) : Local (spawnTask v) := by
  unfold spawnTask
  cases v.arity? <;> exact fun _ _ => rfl

theorem local_sleepFor (v : Value) : Local (sleepFor v) := by
  unfold sleepFor
  cases v.expectInt "sleep" with
  | error e => exact fun _ _ => rfl
  | ok ms =>
    simp only []
    split <;> exact fun _ _ => rfl

theorem local_ofHook (name : String) (h : Hook) (args : List Value) :
    Local (ofHook name h args) := by
  cases h <;> cases args <;> exact fun _ _ => rfl

end Act

/-- A function that does not wait for a task does the same whatever the global variables and tasks
are. -/
theorem Native.invoke_local {f : Native} (hf : f ≠ .join) (name : String) (args : List Value) :
    Act.Local (f.invoke name args) := by
  unfold invoke
  split
  all_goals first
    | exact absurd rfl hf
    | exact fun _ _ => rfl
    | exact Act.local_ofExcept _
    | exact Act.local_contentOf _
    | exact Act.local_setContent _ _
    | exact Act.local_makeEffect _
    | exact Act.local_spawnTask _
    | exact Act.local_sleepFor _
    | exact Act.local_ofHook _ _ _

end Resumable
