import Resumable.Proofs.Engine.Hosted
import Resumable.Proofs.Engine.Safety
import Resumable.Proofs.Machine.Suspension

/-!
Continuations are exact. Wherever an effect is raised in a run, the handler that answers it cuts the
thread in two, and the upper part can be put on any thread at any time without a change.
-/

namespace Resumable

namespace Machine

/-- Machines between two moves of a run: of a program compiled from source or of a call in an
embedding, or of any program that compiles. -/
inductive Reachable : Machine → Prop
  | hosted {e : Engine} {seen : List Value} {m m' : Machine} (he : e.Hosted seen)
    (hstarts : e.Starts seen m) (hreaches : m.Reaches m') : Reachable m'
  | used {e : Engine} {code : Code Value} {m : Machine} (he : e.Used) (hcode : code.Compiled)
    (hreaches : (e.started code).Reaches m) : Reachable m

theorem Reachable.sound {m : Machine} (hm : m.Reachable) : ∃ κ, m.Sound κ := by
  cases hm with
  | hosted he hstarts hreaches => exact ⟨.clause, (he.starts hstarts).reaches hreaches⟩
  | used he hcode hreaches =>
    obtain ⟨o, names, supply, program, hcompile⟩ := hcode
    obtain ⟨hsound, hcaptures⟩ := Program.sound_of_compile hcompile
    exact ⟨.value, (he.sound.started hsound hcaptures).reaches hreaches⟩

/-- A suspended computation that is exactly the part of the running thread of `s` from handler `j` on.
Cutting it off leaves what is below. Put on any thread, unless there would be too many frames, it
stands there as it did in `s`, with the value that it is given; where it was cut off, this gives back
the thread of `s`. Cut off again, with whatever values on top, it is as it was. Each time it has a new
label. -/
structure Suspends (s : Machine) (j : Nat) (h : Installed Value) (k : Continuation Value) : Prop where
  cut : Exec.capture j h s = .ok k { s with thread := s.thread.below j h }
  resumed : ∀ (t : Machine) (v : Value), Exec.resume k v t =
    if t.thread.limits.maxDepth < t.thread.frames.size + (s.thread.frames.size - h.depth) then
      .error (.error (.stackOverflow
        ("maximum recursion depth " ++ toString t.thread.limits.maxDepth ++ " exceeded"))) t
    else
      .ok () { t with thread :=
        (t.thread.labelDrawn.followedBy s.thread j h (t.thread.lastLabel + 1)).push v }
  restored : ∀ v : Value, Exec.resume k v { s with thread := s.thread.below j h } =
    if s.thread.limits.maxDepth < s.thread.frames.size then
      .error (.error (.stackOverflow
        ("maximum recursion depth " ++ toString s.thread.limits.maxDepth ++ " exceeded")))
        { s with thread := s.thread.below j h }
    else
      .ok () { s with thread :=
        (s.thread.labelDrawn.relabeled j h (s.thread.lastLabel + 1)).push v }
  recaptured : ∀ (t : Machine) (label : Nat) (vs : Array Value),
    Exec.capture t.thread.handlers.size
        { h with depth := t.thread.frames.size, height := t.thread.stack.size, label }
        { t with thread := { t.thread.followedBy s.thread j h label with
          stack := (t.thread.followedBy s.thread j h label).stack ++ vs } } =
      .ok { k.relabeled label with stack := k.stack ++ vs } t

theorem suspends_of_stands {s : Machine} {j : Nat} {h : Installed Value}
    (hstands : s.thread.Stands j h) :
    s.Suspends j h ((s.thread.partAbove j h).relative h.depth h.height) := by
  have hresumed : ∀ (t : Machine) (v : Value),
      Exec.resume ((s.thread.partAbove j h).relative h.depth h.height) v t =
      if t.thread.limits.maxDepth < t.thread.frames.size + (s.thread.frames.size - h.depth) then
        .error (.error (.stackOverflow
          ("maximum recursion depth " ++ toString t.thread.limits.maxDepth ++ " exceeded"))) t
      else
        .ok () { t with thread :=
          (t.thread.labelDrawn.followedBy s.thread j h (t.thread.lastLabel + 1)).push v } := by
    intro t v
    have hsize : ((s.thread.partAbove j h).relative h.depth h.height).frames.size =
        s.thread.frames.size - h.depth := by
      simp [Continuation.relative, Thread.partAbove]
    rw [Exec.resume_run, hsize, hstands.extend_relative]
  refine ⟨Exec.capture_of_stands hstands, hresumed, ?_, ?_⟩
  · intro v
    have hdepth := hstands.part_fits.1
    have hsize : (s.thread.below j h).frames.size + (s.thread.frames.size - h.depth) =
        s.thread.frames.size := by
      simp [Thread.below]
      omega
    have hdrawn : s.thread.labelDrawn.Stands j h :=
      ⟨hstands.entry, hstands.boundary, hstands.label, hstands.frames, hstands.handlers⟩
    rw [hresumed, hsize, ← hdrawn.below_followedBy (s.thread.lastLabel + 1)]
    rfl
  · intro t label vs
    have hcapture := @Exec.capture_extend ((s.thread.partAbove j h).relative h.depth h.height) h t label
      vs
    rw [hstands.extend_relative] at hcapture
    exact hcapture

/-- In every run, an effect that is raised where a handler answers it suspends the computation from
that handler on, exactly, and calls the clause on what is left. -/
theorem Reachable.suspends {m s : Machine} {effect : Effect} {payload clause : Value} {j : Nat}
    {h : Installed Value} (hm : m.Reachable) (hraises : m.Raises s effect payload)
    (hanswers : s.thread.Answers effect j h clause) :
    ∃ k line, s.Suspends j h k ∧
      m.advance = .ofCall line
        (Exec.call clause (Exec.clauseArgs clause payload (.continuation s.world.draw.1 k)) line false
          { s with world := s.world.draw.2, thread := s.thread.below j h }) := by
  obtain ⟨κ, hsound⟩ := hm.sound
  have hstands := hraises.stands hsound hanswers
  obtain ⟨line, hadvance⟩ := hraises.advance hsound
  refine ⟨_, line, suspends_of_stands hstands, ?_⟩
  rw [hadvance, Exec.raise_of_answers hanswers hstands]

/-- A program that raises an effect in the body of a handler that has no clause for it. -/
def nestedHandlers : String :=
  "effect A; effect B; " ++
    "handle 1 + (handle A(2) with \x7b B(x, k) => x \x7d) with \x7b A(x, k) => k(x) \x7d"

/-- An effect raised in the body of an inner handler that has no clause for it, in a program compiled
from source. -/
theorem suspends_outer_handler :
    ∃ (m s : Machine) (effect : Effect) (payload clause : Value) (h : Installed Value),
      m.Reachable ∧ m.Raises s effect payload ∧ s.thread.Answers effect 0 h clause ∧
      s.thread.handlers.size = 2 ∧ s.thread.frames.size = 3 ∧
      ∃ k line, s.Suspends 0 h k ∧
        m.advance = .ofCall line
          (Exec.call clause (Exec.clauseArgs clause payload (.continuation s.world.draw.1 k)) line
            false { s with world := s.world.draw.2, thread := s.thread.below 0 h }) := by
  obtain ⟨code, hcompile, hraising⟩ := Except.exists_of_any
    (x := ((Engine.create {} 0).compileSource {} nestedHandlers).1)
    (f := fun code =>
      ((((Engine.create {} 0).compileSource {} nestedHandlers).2.started code).after 35).raising?.any
        fun r => r.1.thread.handlers.size == 2 && r.1.thread.frames.size == 3 &&
          (findHandler r.1.thread.handlers (Exec.baseOf r.1.thread.levels) r.2.1
            r.1.thread.handlers.size).any fun found => found.1 == 0) (by decide +kernel)
  have hreachable : (((((Engine.create {} 0).compileSource {} nestedHandlers).2.started code)).after
      35).Reachable :=
    .hosted ((Engine.Hosted.create {} 0).compileSource {} nestedHandlers)
      (.interpret (Engine.fromSource_of_compileSource hcompile)) (Machine.Reaches.refl.after 35)
  generalize (((Engine.create {} 0).compileSource {} nestedHandlers).2.started code).after 35 = m
    at hraising hreachable
  cases hm : m.raising? with
  | none =>
    rw [hm] at hraising
    cases hraising
  | some r =>
    obtain ⟨s, effect, payload⟩ := r
    rw [hm, Option.any_some, Bool.and_eq_true, Bool.and_eq_true, beq_iff_eq, beq_iff_eq] at hraising
    obtain ⟨⟨hhandlers, hframes⟩, hfound⟩ := hraising
    cases hfind : findHandler s.thread.handlers (Exec.baseOf s.thread.levels) effect
        s.thread.handlers.size with
    | none =>
      rw [hfind] at hfound
      cases hfound
    | some found =>
      obtain ⟨index, h, clause⟩ := found
      rw [hfind, Option.any_some, beq_iff_eq] at hfound
      obtain rfl : index = 0 := hfound
      have hraises := raises_of_raising? hm
      have hanswers := answers_of_findHandler hfind
      exact ⟨m, s, effect, payload, clause, h, hreachable, hraises, hanswers, hhandlers, hframes,
        hreachable.suspends hraises hanswers⟩

end Machine

end Resumable
