import Resumable.Proofs.Engine.Suspension
import Resumable.Proofs.Machine.Fetch

/-!
What runs is what a listing of the code shows.
-/

namespace Resumable

namespace Machine

/-- Fetching does what decoding says, for any code. The frame on top fetches an instruction exactly if
one can be decoded where it goes on: it has the operation and the operand of that one, zero if there
is none, and the frame goes on as many bytes further as the instruction is long. Otherwise the code is
found to be malformed and nothing changes. In a run of compiled programs all frames, those of
suspended computations included, are at offsets that a listing of their code shows, so that whatever
is fetched is in the listing. -/
theorem fetches_what_is_listed :
    (∀ (m : Machine) (f : Frame Value), m.thread.frames.back? = some f → f.ip < f.code.size →
      (∀ i, f.code.decodeAt f.ip = .ok i →
        Exec.fetch m = .ok ⟨i.op, i.operand?.getD 0, f.ip, f.code.lineAt f.ip⟩
          { m with thread := m.thread.at (f.ip + i.length) }) ∧
      ∀ e, f.code.decodeAt f.ip = .error e →
        ∃ detail, Exec.fetch m = .error (.error (.invalidBytecode detail)) m) ∧
    (∀ m : Machine, m.Reachable → ∀ f, m.HasFrame f →
      ∃ is, f.code.instructions = .ok is ∧ ∃ i ∈ is, i.offset = f.ip) ∧
    ∀ m : Machine, m.Reachable → ∀ f, m.thread.frames.back? = some f →
      ∃ is, f.code.instructions = .ok is ∧ ∃ i ∈ is, ∃ m', i.offset = f.ip ∧
        Exec.fetch m = .ok ⟨i.op, i.operand?.getD 0, i.offset, f.code.lineAt i.offset⟩ m' := by
  have hlisted : ∀ m : Machine, m.Reachable → ∀ f, m.HasFrame f → f.OnTrack := by
    intro m hm f hf
    obtain ⟨κ, hsound⟩ := hm.sound
    exact hsound.onTrack hf
  refine ⟨?_, hlisted, ?_⟩
  · intro m f hframe _
    exact ⟨fun i hdecode => Exec.fetch_of_decodeAt hframe hdecode,
      fun e hdecode => Exec.fetch_of_not_decodeAt hframe hdecode⟩
  · intro m hm f hframe
    obtain ⟨is, hinstructions, i, hmem, hoffset⟩ :=
      hlisted m hm f (Or.inl ⟨m.thread, List.mem_cons_self, Array.mem_of_back? hframe⟩)
    have hdecode := Code.decodeAt_of_mem_instructions hinstructions hmem
    rw [hoffset] at hdecode
    have hfetch := Exec.fetch_of_decodeAt hframe hdecode
    rw [← hoffset] at hfetch
    exact ⟨is, hinstructions, i, hmem, _, hoffset, hfetch⟩

/-- The suspended computations of at least two frames that a machine holds. -/
def suspensions (m : Machine) : List (Continuation Value) :=
  m.thread.parts.filterMap fun v =>
    match v with
    | .continuation _ k => if 2 ≤ k.frames.size then some k else none
    | _ => none

theorem holds_of_mem_suspensions {m : Machine} {k : Continuation Value} (hk : k ∈ m.suspensions) :
    2 ≤ k.frames.size ∧ ∃ id, m.Holds (.continuation id k) := by
  obtain ⟨v, hv, hsome⟩ := List.mem_filterMap.1 hk
  split at hsome
  next id k' =>
    split at hsome
    next hsize =>
      cases hsome
      exact ⟨hsize, id, Or.inr ⟨m.thread, List.mem_cons_self, hv⟩⟩
    next => cases hsome
  next => cases hsome

/-- In a program compiled from source a computation of two frames has been suspended, and the second
one is at an offset that is listed. -/
theorem listed_when_suspended :
    ∃ (m : Machine) (k : Continuation Value) (f : Frame Value), m.Reachable ∧ m.HasFrame f ∧
      k ∈ m.suspensions ∧ k.frames[1]? = some f ∧
      ∃ is, f.code.instructions = .ok is ∧ ∃ i ∈ is, i.offset = f.ip := by
  obtain ⟨code, hcompile, hsuspended⟩ := Except.exists_of_any
    (x := ((Engine.create {} 0).compileSource {} nestedHandlers).1)
    (f := fun code => !((((Engine.create {} 0).compileSource {} nestedHandlers).2.started code).after
      38).suspensions.isEmpty) (by decide +kernel)
  have hreachable : (((((Engine.create {} 0).compileSource {} nestedHandlers).2.started code)).after
      38).Reachable :=
    .hosted ((Engine.Hosted.create {} 0).compileSource {} nestedHandlers)
      (.interpret (Engine.fromSource_of_compileSource hcompile)) (Machine.Reaches.refl.after 38)
  obtain ⟨k, hk⟩ := List.exists_mem_of_ne_nil _ (by simpa using hsuspended)
  obtain ⟨hsize, id, hholds⟩ := holds_of_mem_suspensions hk
  have hframe := Array.getElem?_eq_getElem (show 1 < k.frames.size by omega)
  have hf : HasFrame _ k.frames[1] := Or.inr ⟨_, id, k, hholds, .refl, Array.getElem_mem _⟩
  exact ⟨_, k, _, hreachable, hf, hk, hframe, fetches_what_is_listed.2.1 _ hreachable _ hf⟩

end Machine

end Resumable
