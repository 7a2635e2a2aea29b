import Resumable.Proofs.Engine.Suspension
import Resumable.Proofs.Machine.Partial

/-!
In runs of compiled programs the number of arguments that a callable value reports decides what a call
of it does, and arguments can be given in portions.
-/

namespace Resumable

namespace Machine

/-- A callable value that a run has come to hold stands for a function that is no partial application,
and some of its arguments. Given fewer arguments than it reports to take, it gives a partial
application that takes the others; nothing else happens. Given as many, it enters the function, with
the arguments that it had in front. Given more, it complains with all that the function takes and has
got. So to call it with portions of arguments in turn, none but the last of which completes them, is
to call it with all of them at once. -/
theorem Reachable.applies_in_portions {m : Machine} {root v : Value} {n : Nat} (hm : m.Reachable)
    (hholds : m.Holds root) (hwithin : v.Within root) (harity : v.arity? = some n) :
    ∃ u bound, v.unapply [] = (u, bound) ∧ (∀ id callee given, u ≠ .applied id callee given) ∧
      u.arity? = some (bound.length + n) ∧
      (∀ (s : Machine) (args : List Value),
        (args.length < n → ∃ p, Exec.apply v args s = .ok (.returned p) s.drawn ∧
          p = .applied s.world.draw.1 u (bound ++ args) ∧ p.arity? = some (n - args.length)) ∧
        (args.length = n → Exec.apply v args s = Exec.enterWith u (bound ++ args) s) ∧
        (n < args.length → Exec.apply v args s =
          .error (.error (.arityMismatch u.calledName (bound.length + n)
            (bound.length + args.length))) s)) ∧
      ∀ (s : Machine) (portions : List Exec.Portion) (last : Exec.Portion),
        (∀ given, given <+: portions → given ≠ [] →
          (given.flatMap Exec.Portion.args).length < n) →
        Exec.callInTurn last v portions s =
          Exec.call v (portions.flatMap Exec.Portion.args ++ last.args) last.line last.tail
            (Machine.drawn^[portions.length] s) := by
  obtain ⟨κ, hsound⟩ := hm.sound
  obtain ⟨u, bound, htakes⟩ := ((hsound.holds hholds).within hwithin).takes harity
  have hunapply : v.unapply [] = (u, bound) := by
    rw [htakes.unapply, List.append_nil]
  refine ⟨u, bound, hunapply, ?_, htakes.arity, ?_, ?_⟩
  · intro id callee given
    have hne := Exec.unapply_ne_applied v [] id callee given
    rwa [hunapply] at hne
  · intro s args
    have happly := Exec.apply_takes htakes args s
    refine ⟨fun hfew => ?_, fun hall => ?_, fun hmany => ?_⟩
    · rw [if_pos hfew] at happly
      exact ⟨_, happly, rfl, htakes.arity_applied _⟩
    · rw [happly, if_neg (by omega), if_neg (by omega)]
    · rw [happly, if_neg (by omega), if_pos hmany]
  · intro s portions last hfew
    exact Exec.callInTurn_eq last htakes hfew

/-- A program that gives a function its arguments one by one. -/
def oneByOne : String :=
  "var add3 = |a, b, c| a + b + c; add3(1)(2)(3)"

/-- The partial applications in the running thread that take two more arguments. -/
def partials (m : Machine) : List Value :=
  m.thread.parts.filter fun v =>
    match v with
    | .applied _ _ _ => v.arity? == some 2
    | _ => false

theorem holds_of_mem_partials {m : Machine} {v : Value} (hv : v ∈ m.partials) :
    m.Holds v ∧ v.arity? = some 2 := by
  obtain ⟨hpart, hpartial⟩ := List.mem_filter.1 hv
  refine ⟨Or.inr ⟨m.thread, List.mem_cons_self, hpart⟩, ?_⟩
  split at hpartial
  next => exact eq_of_beq hpartial
  next => cases hpartial

/-- In a program compiled from source a function of three parameters has got its first argument, and
gets the other two one by one. -/
theorem gets_arguments_one_by_one :
    ∃ (m : Machine) (v : Value), m.Reachable ∧ m.Holds v ∧ v.Within v ∧ v.arity? = some 2 ∧
      ∀ x y : Value,
        (∀ given, given <+: [⟨[x], 1, false⟩] → given ≠ [] →
          (given.flatMap Exec.Portion.args).length < 2) ∧
        Exec.callInTurn ⟨[y], 1, true⟩ v [⟨[x], 1, false⟩] m =
          Exec.call v [x, y] 1 true m.drawn := by
  obtain ⟨code, hcompile, hpartial⟩ := Except.exists_of_any
    (x := ((Engine.create {} 0).compileSource {} oneByOne).1)
    (f := fun code => !((((Engine.create {} 0).compileSource {} oneByOne).2.started code).after
      11).partials.isEmpty) (by decide +kernel)
  have hreachable : (((((Engine.create {} 0).compileSource {} oneByOne).2.started code)).after
      11).Reachable :=
    .hosted ((Engine.Hosted.create {} 0).compileSource {} oneByOne)
      (.interpret (Engine.fromSource_of_compileSource hcompile)) (Machine.Reaches.refl.after 11)
  obtain ⟨v, hv⟩ := List.exists_mem_of_ne_nil _ (by simpa using hpartial)
  obtain ⟨hholds, harity⟩ := holds_of_mem_partials hv
  obtain ⟨u, bound, -, -, -, -, hportions⟩ :=
    hreachable.applies_in_portions hholds .refl harity
  refine ⟨_, v, hreachable, hholds, .refl, harity, fun x y => ?_⟩
  have hfew : ∀ given, given <+: [(⟨[x], 1, false⟩ : Exec.Portion)] → given ≠ [] →
      (given.flatMap Exec.Portion.args).length < 2 := by
    intro given hprefix hne
    obtain ⟨rest, hsplit⟩ := hprefix
    obtain ⟨rfl, _⟩ | ⟨rfl, _⟩ := List.append_eq_singleton_iff.1 hsplit
    · exact absurd rfl hne
    · simp
  exact ⟨hfew, hportions _ [⟨[x], 1, false⟩] ⟨[y], 1, true⟩ hfew⟩

end Machine

end Resumable
