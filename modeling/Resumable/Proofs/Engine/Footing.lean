import Resumable.Proofs.Engine.Hosted
import Resumable.Proofs.Engine.Safety
import Resumable.Proofs.Machine.Footing

/-!
In a run all frames start below the limit on values for as long as no continuation has been resumed.
After that they need not.
-/

namespace Resumable

namespace Machine

/-- A machine that is about to run a program that compiles, or to call a value in an embedding. -/
inductive Begun : Machine → Prop
  | hosted {e : Engine} {seen : List Value} {m : Machine} (he : e.Hosted seen)
    (hstarts : e.Starts seen m) : Begun m
  | used {e : Engine} {code : Code Value} (he : e.Used) (hcode : code.Compiled) :
    Begun (e.started code)

/-- A thread that rests has no frames. -/
theorem low_of_rests {t t' : Thread} (ht : t.Rests) (hframes : t'.frames = t.frames) : t'.Low := by
  intro i f hget
  rw [hframes, ht.shows] at hget
  cases hget

theorem Begun.low {m : Machine} (hm : m.Begun) : m.Low := by
  have hsingle : ∀ m' : Machine, m'.waiting = [] → m'.thread.Low → m'.Low := by
    intro m' hwaiting hlow t ht
    rw [threads, hwaiting] at ht
    rw [List.mem_singleton.1 ht]
    exact hlow
  cases hm with
  | hosted he hstarts =>
    cases hstarts with
    | interpret => exact hsingle _ rfl (low_of_rests he.sound.1.thread rfl)
    | call => exact hsingle _ rfl (low_of_rests he.sound.1.thread rfl)
  | used he => exact hsingle _ rfl (low_of_rests he.sound.thread rfl)

/-- Between any two moves of a run all frames start below the limit on values, whether a call, a tail
call or the installation of a handler has entered them, unless the run has resumed a continuation.
Whatever has happened before, only a move that resumes a continuation adds frames that start at the
limit or above. -/
theorem Begun.frames_low {m m' : Machine} (hm : m.Begun) (hreaches : m.Reaches m') :
    (m'.Low ∨ ∃ m₁, m.Reaches m₁ ∧ m₁.Resumes ∧ m₁.Reaches m') ∧
      (m'.Resumes ∨ m'.Follows m'.advance.machine) := by
  refine ⟨hreaches.low_or_resumed hm.low, ?_⟩
  by_cases hresumes : m'.Resumes
  · exact Or.inl hresumes
  · exact Or.inr (advance_follows hresumes)

/-- The machine that is about to run a source text on an engine, if the text compiles. -/
def startedSource (e : Engine) (source : String) : Option Machine :=
  ((e.compileSource {} source).1.toOption).map (e.compileSource {} source).2.started

theorem begun_of_startedSource {e : Engine} {seen : List Value} {source : String} {m : Machine}
    (he : e.Hosted seen) (hm : startedSource e source = some m) : m.Begun := by
  obtain ⟨code, hcode, hstarted⟩ := Option.map_eq_some_iff.1 hm
  have hcompile : (e.compileSource {} source).1 = .ok code := by
    cases hresult : (e.compileSource {} source).1 with
    | ok code' =>
      rw [hresult] at hcode
      rw [Option.some.inj hcode]
    | error =>
      rw [hresult] at hcode
      cases hcode
  rw [← hstarted]
  exact .hosted (he.compileSource {} source)
    (.interpret (Engine.fromSource_of_compileSource hcompile))

/-- A call in the function of a handled body, with room for six values on the stack. -/
theorem frames_low_in_handler :
    ∃ m m' : Machine, m.Begun ∧ m.Reaches m' ∧ m'.thread.frames.size = 3 ∧
      m'.thread.limits.maxStack = 6 ∧
      (m'.Low ∨ ∃ m₁, m.Reaches m₁ ∧ m₁.Resumes ∧ m₁.Reaches m') ∧
      (m'.Resumes ∨ m'.Follows m'.advance.machine) := by
  have htest : (startedSource (.create { maxStack := 6 } 0)
      "var f = |x| 1 + x; handle [1, 2, f(3)] with \x7b \x7d").any (fun m =>
        (m.after 14).thread.frames.size == 3 && (m.after 14).thread.limits.maxStack == 6) = true := by
    decide +kernel
  obtain ⟨m, hm, hstate⟩ := (Option.any_eq_true _ _).1 htest
  rw [Bool.and_eq_true, beq_iff_eq, beq_iff_eq] at hstate
  have hbegun := begun_of_startedSource (.create { maxStack := 6 } 0) hm
  have hreaches := Reaches.refl.after 14 (m := m)
  exact ⟨m, m.after 14, hbegun, hreaches, hstate.1, hstate.2, hbegun.frames_low hreaches⟩

/-- A continuation that is resumed above seven values on a stack with room for six: its frame starts
above the limit. -/
theorem resumed_above_limit :
    ∃ m m' : Machine, m.Begun ∧ m.Reaches m' ∧ ¬ m'.Low := by
  have htest : (startedSource (.create { maxStack := 6 } 0) ("effect E; var k = handle E(0) with \x7b E(x, r) => r \x7d; " ++
      "[1, 2, 3, 4, 5, 6, k(7)]")).any (fun m =>
        (m.after 42).thread.frames[1]?.any fun f =>
          decide ((m.after 42).thread.limits.maxStack ≤ f.base)) = true := by
    decide +kernel
  obtain ⟨m, hm, hstate⟩ := (Option.any_eq_true _ _).1 htest
  obtain ⟨f, hget, hbase⟩ := (Option.any_eq_true _ _).1 hstate
  refine ⟨m, m.after 42, begun_of_startedSource (.create { maxStack := 6 } 0) hm, Reaches.refl.after 42, fun hlow => ?_⟩
  have hlt := hlow _ (.head _) 1 f hget
  have hle := of_decide_eq_true hbase
  omega

end Machine

end Resumable
