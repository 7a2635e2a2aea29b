import Mathlib.Logic.Function.Iterate
import Resumable.Proofs.Machine.Positions
import Resumable.Proofs.Machine.Transfer

/-!
Partial applications. A callable value stands for a function and some of its first arguments, and it
does not matter in which portions the others are given.
-/

namespace Resumable

namespace Value

/-- The name under which a function refuses too many arguments. -/
def calledName : Value → String
  | closure _ f _ => (f.name.map Symbol.name).getD "<lambda>"
  | native _ name _ _ => name
  | effect e => e.name
  | continuation _ _ => "continuation"
  | _ => ""

/-- A callable value stands for the function `u` with the arguments `bound`, and takes `n` more. -/
structure Takes (v u : Value) (bound : List Value) (n : Nat) : Prop where
  unapply : ∀ args, v.unapply args = (u, bound ++ args)
  arity : u.arity? = some (bound.length + n)

variable {v u : Value} {bound args : List Value} {n : Nat}

theorem Takes.bare (htakes : v.Takes u bound n) : u.Bare := by
  have hne : ∀ id c b, u ≠ .applied id c b := by
    intro id c b
    have hnot := Exec.unapply_ne_applied v [] id c b
    rwa [htakes.unapply] at hnot
  intro args
  cases u with
  | applied id c b => exact absurd rfl (hne id c b)
  | _ => rfl

/-- A function with some of its arguments takes the others. -/
theorem Takes.applied (htakes : v.Takes u bound n) (hfew : args.length ≤ n) (id : Nat) :
    (Value.applied id u (bound ++ args)).Takes u (bound ++ args) (n - args.length) := by
  refine ⟨fun more => ?_, ?_⟩
  · rw [Value.unapply, htakes.bare]
  · rw [htakes.arity, List.length_append]
    congr 1
    omega

theorem Takes.arity_applied (htakes : v.Takes u bound n) (id : Nat) :
    (Value.applied id u (bound ++ args)).arity? = some (n - args.length) := by
  rw [Value.arity?, htakes.arity, Option.getD_some, List.length_append]
  congr 1
  omega

/-- What a value that takes arguments stands for. -/
theorem exists_takes {v : Value} {n : Nat} (harity : v.arity? = some n) (hn : 1 ≤ n) :
    ∃ u bound, v.Takes u bound n := by
  cases v with
  | applied id callee given =>
    rw [arity?, Option.some.injEq] at harity
    obtain ⟨k, hk⟩ : ∃ k, callee.arity? = some k := by
      cases hnone : callee.arity? with
      | none =>
        rw [hnone, Option.getD_none] at harity
        omega
      | some k => exact ⟨k, rfl⟩
    rw [hk, Option.getD_some] at harity
    obtain ⟨u, bound, htakes⟩ := exists_takes hk (by omega)
    refine ⟨u, bound ++ given, fun args => ?_, ?_⟩
    · rw [unapply, htakes.unapply, List.append_assoc]
    · rw [htakes.arity, List.length_append]
      congr 1
      omega
  | _ => exact ⟨_, [], fun args => rfl, by simpa using harity⟩

/-- What a callable value in a sound machine stands for. -/
theorem Sound.takes {κ : Kind} (hsound : v.Sound κ) (harity : v.arity? = some n) :
    ∃ u bound, v.Takes u bound n := by
  cases v with
  | applied id callee given =>
    obtain ⟨hbare, k, hk, hless⟩ := hsound.shape
    simp only [Value.arity?, hk, Option.getD_some, Option.some.injEq] at harity
    refine ⟨callee, given, fun args => ?_, ?_⟩
    · rw [Value.unapply, hbare]
    · rw [hk]
      congr 1
      omega
  | _ => exact ⟨_, [], fun args => rfl, by simpa using harity⟩

end Value

namespace Exec

/-- What a function does with all the arguments that it takes. -/
def enterWith : Value → List Value → Exec Transfer
  | .closure id f env, args => return .enter (.closure id f env) f env args
  | .native _ name _ function, args => do
    match ← act (function.invoke name args) with
    | .value v => return .returned v
    | reply => return .requested reply
  | .effect e, [payload] => return .raise e payload
  | .continuation _ k, [v] => return .resume k v
  | _, _ => throw .corrupt

variable {v u : Value} {bound args : List Value} {n : Nat} {m : Machine}

/-- A function that has no arguments yet is applied to some. -/
theorem apply_bare {k : Nat} (hbare : u.Bare) (harity : u.arity? = some k) :
    apply u args m =
      if args.length < k then .ok (.returned (.applied m.world.draw.1 u args)) m.drawn
      else if k < args.length then
        .error (.error (.arityMismatch u.calledName k args.length)) m
      else enterWith u args m := by
  have hwith : ∀ full, withArity u u.calledName k args full m =
      if args.length < k then .ok (.returned (.applied m.world.draw.1 u args)) m.drawn
      else if k < args.length then
        .error (.error (.arityMismatch u.calledName k args.length)) m
      else full m := by
    intro full
    rw [withArity, ite_run, ite_run]
    rfl
  have hone : ∀ full, k = 1 → (∀ arg, args ≠ [arg]) →
      withArity u u.calledName k args full m =
      if args.length < k then .ok (.returned (.applied m.world.draw.1 u args)) m.drawn
      else if k < args.length then
        .error (.error (.arityMismatch u.calledName k args.length)) m
      else enterWith u args m := by
    rintro full rfl hne
    rw [hwith]
    obtain _ | ⟨arg, _ | ⟨second, args⟩⟩ := args
    · rfl
    · exact absurd rfl (hne arg)
    · rfl
  rw [apply, hbare]
  cases u with
  | closure id f env =>
    cases harity
    exact hwith _
  | native id name arity function =>
    cases harity
    exact hwith _
  | effect e =>
    cases harity
    obtain _ | ⟨payload, _ | ⟨second, args⟩⟩ := args
    · exact hone _ rfl (by simp)
    · rfl
    · exact hone _ rfl (by simp)
  | continuation id c =>
    cases harity
    obtain _ | ⟨v, _ | ⟨second, args⟩⟩ := args
    · exact hone _ rfl (by simp)
    · rfl
    · exact hone _ rfl (by simp)
  | applied id callee given =>
    exact absurd (congrArg Prod.fst (hbare [])) (unapply_ne_applied _ [] id callee given)
  | _ => cases harity

/-- Applying a callable value is applying its function. -/
theorem apply_eq_of_takes (htakes : v.Takes u bound n) (args : List Value) :
    apply v args = apply u (bound ++ args) := by
  have hunapply : v.unapply args = (u, bound ++ args) := htakes.unapply args
  rw [apply_unapply (by rw [hunapply]; exact htakes.bare), hunapply]

/-- A callable value is applied: too few arguments are kept with those that it has, as many as it takes
are given to its function behind those that it has, and more are refused. -/
theorem apply_takes (htakes : v.Takes u bound n) (args : List Value) (m : Machine) :
    apply v args m =
      if args.length < n then .ok (.returned (.applied m.world.draw.1 u (bound ++ args))) m.drawn
      else if n < args.length then
        .error (.error (.arityMismatch u.calledName (bound.length + n)
          (bound.length + args.length))) m
      else enterWith u (bound ++ args) m := by
  rw [apply_eq_of_takes htakes, apply_bare htakes.bare htakes.arity, List.length_append]
  simp only [Nat.add_lt_add_iff_left]

/-- Some of the arguments of a function, and the call that gives them to it. -/
structure Portion where
  args : List Value
  line : Nat
  tail : Bool

/-- Calls a value with the first portion of arguments, the outcome with the next, and so on. -/
def callInTurn (last : Portion) (v : Value) : List Portion → Exec Unit
  | [] => call v last.args last.line last.tail
  | portion :: portions => do
    call v portion.args portion.line portion.tail
    callInTurn last (← pop) portions

/-- What has just been put on the stack is taken from there. -/
theorem pop_push (v : Value) (m : Machine) :
    pop { m with thread := m.thread.push v } = .ok v m := by
  simp only [pop, bind_get_run, Thread.push, Array.back?_push]
  rw [bind_of_ok (modifyThread_run _ _), pure_run]
  simp

/-- A call with too few arguments puts a partial application on the stack, which the next call takes
from there. -/
theorem call_few {β : Type} (htakes : v.Takes u bound n) (hfew : args.length < n) (line : Nat)
    (tail : Bool) (next : Value → Exec β) :
    (do call v args line tail; next (← pop)) m =
      next (.applied m.world.draw.1 u (bound ++ args)) m.drawn := by
  have happly := apply_takes htakes args m
  rw [if_pos hfew] at happly
  have hcall : call v args line tail m = .ok () { m.drawn with
      thread := m.drawn.thread.push (.applied m.world.draw.1 u (bound ++ args)) } := by
    rw [call, bind_of_ok happly]
    rfl
  rw [bind_of_ok hcall, bind_of_ok (pop_push _ _)]

/-- Calls in turn do the same as one call with all the arguments, but for the identities of the partial
applications on the way. -/
theorem callInTurn_eq (last : Portion) {portions : List Portion} (htakes : v.Takes u bound n)
    (hfew : ∀ given, given <+: portions → given ≠ [] →
      (given.flatMap Portion.args).length < n) :
    callInTurn last v portions m =
      call v (portions.flatMap Portion.args ++ last.args) last.line last.tail
        (Machine.drawn^[portions.length] m) := by
  induction portions generalizing v bound n m with
  | nil => rfl
  | cons portion portions ih =>
    have hfirst : portion.args.length < n := by
      simpa using hfew [portion] ⟨portions, rfl⟩ (by simp)
    have happlied := htakes.applied (Nat.le_of_lt hfirst) m.world.draw.1
    have hrest := ih (m := m.drawn) happlied fun given hprefix hne => by
      have hlength := hfew (portion :: given) (List.prefix_cons_inj portion |>.2 hprefix) (by simp)
      rw [List.flatMap_cons, List.length_append] at hlength
      omega
    rw [callInTurn, call_few htakes hfirst, hrest, List.length_cons, Function.iterate_succ_apply,
      List.flatMap_cons, call, call, apply_eq_of_takes happlied, apply_eq_of_takes htakes]
    simp only [List.append_assoc]

end Exec

end Resumable
