import Resumable.Proofs.Engine.Hosted
import Resumable.Proofs.Machine.Depth

/-!
The limit on frames holds on an engine and its forks, whatever is run on them, and whatever functions
of an embedding do while it runs.
-/

namespace Resumable

namespace Machine

/-- The machines that a machine comes to, move by move, while functions of an embedding act in between:
they change the shared state and the values on the stack, they call values, and they fail. -/
inductive Serves (m : Machine) : Machine → Prop
  | refl : Serves m m
  | move {m' m'' : Machine} (hbefore : Serves m m') (hmove : m'.advance = .more m'') : Serves m m''
  | act {m' : Machine} (hbefore : Serves m m') (world : World) (stack : Array Value) :
    Serves m { m' with world, thread := { m'.thread with stack } }
  | call {m' m'' : Machine} {callee : Value} {args : List Value} {line : Nat} {purpose : Purpose}
    (hbefore : Serves m m') (hcall : Exec.beginCall callee args line purpose m' = .ok () m'') :
    Serves m m''
  | fail {m' m'' : Machine} {line : Nat} {e : RuntimeError} (hbefore : Serves m m')
    (hfail : m'.stop line (.error e) = .more m'') : Serves m m''

theorem Serves.after {m m' : Machine} (hserves : m.Serves m') (n : Nat) : m.Serves (m'.after n) := by
  induction n generalizing m' with
  | zero => exact hserves
  | succ n ih =>
    unfold Machine.after
    split
    next hmove => exact ih (hserves.move hmove)
    next => exact hserves

theorem Serves.withinLimit {limits : Limits} {m m' : Machine} (hserves : m.Serves m')
    (hm : m.WithinLimit limits) : m'.WithinLimit limits := by
  induction hserves with
  | refl => exact hm
  | move _ hmove ih =>
    have hadvance := advance_withinLimit ih
    rw [hmove] at hadvance
    exact hadvance
  | act _ world stack ih => exact ih.withThread ih.thread
  | @call m' m'' callee args line purpose _ hcall ih =>
    have hbegun := Exec.KeepsLimit.beginCall callee args line purpose m' ih
    rw [hcall] at hbegun
    exact hbegun.1
  | @fail m' m'' line e _ hfail ih =>
    have hstopped := stop_withinLimit ih line (.error e)
    rw [hfail] at hstopped
    exact hstopped

end Machine

namespace Engine

/-- A machine that runs any code on an engine, or calls any value with any arguments. -/
inductive Begins (e : Engine) : Machine → Prop
  | interpret (code : Code Value) : Begins e (e.started code)
  | call (callee : Value) (args : List Value) : Begins e (.begin e.world e.thread callee args)

/-- Engines over one world: one that has been created with the given limits, and forks of it and of
each other. An embedding changes the world and the names that an engine knows, and runs any code and
calls any values on them, with whatever outcome. -/
inductive Family (limits : Limits) : List Engine → Prop
  | create (clock : Nat) : Family limits [create limits clock]
  | fork {es : List Engine} {e : Engine} (hes : Family limits es) (he : e ∈ es) :
    Family limits (es ++ [e.fork])
  | change {before after : List Engine} {e : Engine} (hes : Family limits (before ++ e :: after))
    (names : Names) (world : World) :
    Family limits ((before ++ { e with names } :: after).map fun e => { e with world })
  | run {before after : List Engine} {e : Engine} {start m m' : Machine} {outcome : Outcome}
    (hes : Family limits (before ++ e :: after)) (hbegins : e.Begins start)
    (hserves : start.Serves m) (hended : m.advance = .ended outcome m') :
    Family limits ((before ++ { e with thread := m'.thread } :: after).map fun e =>
      { e with world := m'.world })

/-- A property of threads that the engines of a family keep. -/
theorem forall_of_mem_replaced {P : Thread → Prop} {before after : List Engine} {e : Engine}
    {t : Thread} {f : Engine → Engine} (hold : ∀ x ∈ before ++ e :: after, P x.thread) (ht : P t)
    {e' : Engine} (he' : e'.thread = t) (hf : ∀ x, (f x).thread = x.thread) :
    ∀ x ∈ (before ++ e' :: after).map f, P x.thread := by
  intro x hx
  obtain ⟨y, hy, rfl⟩ := List.mem_map.1 hx
  rw [hf]
  obtain hy | hy := List.mem_append.1 hy
  · exact hold y (List.mem_append_left _ hy)
  · obtain rfl | hy := List.mem_cons.1 hy
    · exact he' ▸ ht
    · exact hold y (List.mem_append_right _ (.tail _ hy))

theorem Begins.withinLimit {limits : Limits} {e : Engine} {start : Machine} (hbegins : e.Begins start)
    (he : e.thread.WithinLimit limits) : start.WithinLimit limits := by
  have hthread : ∀ (t : Thread), t.limits = e.thread.limits → t.frames = e.thread.frames →
      t.WithinLimit limits := by
    intro t hlimits hframes
    exact ⟨hlimits.trans he.1, hframes ▸ he.2⟩
  cases hbegins with
  | interpret code =>
    intro t ht
    obtain rfl | ht := List.mem_cons.1 ht
    · exact hthread _ rfl rfl
    · cases ht
  | call callee args =>
    intro t ht
    obtain rfl | ht := List.mem_cons.1 ht
    · exact hthread _ rfl rfl
    · cases ht

theorem create_thread (limits : Limits) (clock : Nat) :
    (create limits clock).thread = { limits } := by
  have hinstalls : Installs (fun e => e.thread = { limits }) fun _ => True :=
    { draw := fun _ h => h
      intern := fun _ _ h => h
      define := fun _ _ _ h _ => h
      native := fun _ _ _ => trivial
      simple := fun _ _ => trivial
      record := fun _ _ => trivial }
  exact hinstalls.create limits clock rfl

theorem Family.threads {limits : Limits} {es : List Engine} (hes : Family limits es) :
    ∀ e ∈ es, e.thread.WithinLimit limits := by
  induction hes with
  | create clock =>
    intro e he
    have hthread : e.thread = { limits } := by
      rw [List.mem_singleton.1 he, create_thread]
    rw [hthread]
    exact ⟨rfl, Nat.zero_le _⟩
  | fork _ he ih =>
    intro e' he'
    obtain he' | he' := List.mem_append.1 he'
    · exact ih e' he'
    · obtain rfl := List.mem_singleton.1 he'
      exact ⟨(ih _ he).1, Nat.zero_le _⟩
  | @change before after e _ names world ih =>
    exact forall_of_mem_replaced ih (ih e (by simp)) rfl fun _ => rfl
  | @run before after e start m m' outcome _ hbegins hserves hended ih =>
    have hm := hserves.withinLimit (hbegins.withinLimit (ih e (by simp)))
    have hm' := Machine.advance_withinLimit hm
    rw [hended] at hm'
    exact forall_of_mem_replaced ih hm'.thread rfl fun _ => rfl

end Engine

end Resumable
