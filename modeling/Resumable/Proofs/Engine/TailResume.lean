import Resumable.Proofs.Engine.Depth
import Resumable.Proofs.Engine.Safety
import Resumable.Proofs.Machine.TailResume

/-!
In runs of programs compiled from source, to resume in tail position costs nothing. There is one
exception: a function of an embedding may call a suspended computation, which then starts with a
boundary. A clause that takes the place of this boundary is the first activation of that call, and stays.
-/

namespace Resumable

namespace Engine

/-- The machines of a run in an embedding are sound, and within the limits of the engine. -/
theorem Hosted.steady {e : Engine} {seen : List Value} {start m : Machine} (he : e.Hosted seen)
    (hstarts : e.Starts seen start) (hreaches : start.Reaches m) : m.Steady e.thread.limits := by
  have hrest := he.sound.1.thread.shows
  have hempty : e.thread.WithinLimit e.thread.limits := by
    refine ⟨rfl, ?_⟩
    rw [hrest]
    exact Nat.zero_le _
  have hstart : start.WithinLimit e.thread.limits := by
    cases hstarts with
    | interpret => exact (Begins.interpret _).withinLimit hempty
    | call => exact (Begins.call _ _).withinLimit hempty
  induction hreaches with
  | refl => exact ⟨he.starts hstarts, hstart⟩
  | next _ hmove ih => exact ih.advance hmove

/-- Where no function of an embedding calls back, the handler that answers an effect is never that of
the first activation of the call in progress. -/
theorem Used.base_lt {e : Engine} {code : Code Value} {m s : Machine} {effect : Effect}
    {payload clause : Value} {j : Nat} {h : Installed Value} (he : e.Used) (hcode : code.Compiled)
    (hreaches : (e.started code).Reaches m) (hraises : m.Raises s effect payload)
    (hanswers : s.thread.Answers effect j h clause) : Exec.baseOf s.thread.levels < h.depth := by
  obtain ⟨o, names, supply, program, hcompile⟩ := hcode
  obtain ⟨hsound, hcaptures⟩ := Program.sound_of_compile hcompile
  exact hraises.base_lt ((he.sound.started hsound hcaptures).reaches hreaches) nofun hanswers

/-- In every run, whenever an effect is raised and the clause that answers it resumes in tail position,
the thread is then what it was at the raise, up to labels, with the value on top, unless the handler is
that of the first activation of the call in progress. So a computation that raises any number of effects
that are answered in this way, one after another, needs no more frames and no more values than if there
were only one. -/
theorem Hosted.resumes_in_tail {e : Engine} {seen : List Value} {start m : Machine}
    (he : e.Hosted seen) (hstarts : e.Starts seen start) (hreaches : start.Reaches m) :
    (∀ (s m₁ m₂ : Machine) (h : Installed Value) (k : Continuation Value) (v : Value),
      m.Suspending s h k m₁ → Exec.baseOf s.thread.levels < h.depth →
      Machine.Works m.waiting.length h.depth m₁ m₂ → m₂.TailResumes k v →
      m₂.waiting.length = m.waiting.length → m₂.thread.frames.size = h.depth + 1 →
      ∃ m', m₂.advance = .more m' ∧ m'.thread.unlabeled = (s.thread.push v).unlabeled) ∧
    ∀ (frames values n : Nat) (s m' : Machine), Machine.Rounds frames values n m s m' →
      Machine.Passes (Machine.Within (s.thread.frames.size + frames)
        (s.thread.stack.size + 1 + values)) m m' := by
  have hm := he.steady hstarts hreaches
  exact ⟨fun s m₁ m₂ h k v hsuspends hbase hworks hresumes hwaiting htop =>
      hm.resumed_in_tail hsuspends hbase hworks hresumes hwaiting htop,
    fun frames values n s m' hrounds => hrounds.passes hm⟩

/-- A program that raises an effect twice, to be resumed at once both times. -/
def resumedTwice : String :=
  "effect A; handle \x7b A(1); A(2) \x7d with \x7b A(x, k) => k(x) \x7d"

/-- The program above, where it raises the effect for the first time. -/
theorem resumes_in_tail_twice :
    ∃ (code : Code Value) (m s m₁ m₂ m' : Machine) (h : Installed Value) (k : Continuation Value)
      (v : Value), ((create {} 0).compileSource {} resumedTwice).1 = .ok code ∧
      (((create {} 0).compileSource {} resumedTwice).2.started code).Reaches m ∧
      m.Suspending s h k m₁ ∧ Exec.baseOf s.thread.levels < h.depth ∧
      Machine.Works m.waiting.length h.depth m₁ m₂ ∧ m₂.TailResumes k v ∧
      m₂.advance = .more m' ∧ m'.thread.unlabeled = (s.thread.push v).unlabeled := by
  obtain ⟨code, hcompile, htests⟩ := Except.exists_of_any
    (x := ((create {} 0).compileSource {} resumedTwice).1)
    (f := fun code =>
      let m := (((create {} 0).compileSource {} resumedTwice).2.started code).after 19
      m.suspension?.any fun (s, h, clause, m₁) => decide (clause.ResumesAtOnce 1) &&
        decide (m₁.Pends m.waiting.length h.depth) &&
        decide (Exec.baseOf s.thread.levels < h.depth)) (by decide +kernel)
  obtain ⟨⟨s, h, clause, m₁⟩, hsuspension, htests⟩ := (Option.any_eq_true _ _).1 htests
  simp only [Bool.and_eq_true, decide_eq_true_eq] at htests
  obtain ⟨⟨honce, hpends⟩, hbase⟩ := htests
  have he : Hosted ((create {} 0).compileSource {} resumedTwice).2 [] :=
    (Hosted.create {} 0).compileSource {} resumedTwice
  have hstarts : Starts ((create {} 0).compileSource {} resumedTwice).2 [] _ :=
    .interpret (fromSource_of_compileSource hcompile)
  have hreaches :
      (((create {} 0).compileSource {} resumedTwice).2.started code).Reaches _ :=
    Machine.Reaches.refl.after 19
  obtain ⟨k, v, m₂, hsuspends, hworks, hresumes, hwaiting, htop⟩ :=
    (he.steady hstarts hreaches).suspends_at_once hsuspension honce hpends
  obtain ⟨m', hmove, hsame⟩ := (Hosted.resumes_in_tail he hstarts hreaches).1 s m₁ m₂ h k v hsuspends
    hbase hworks hresumes hwaiting htop
  exact ⟨code, _, s, m₁, m₂, m', h, k, v, hcompile, hreaches, hsuspends, hbase, hworks, hresumes,
    hmove, hsame⟩

/-- A program that calls what it has suspended, through a function that calls back, to raise another
effect in the frame that this call starts with. -/
def resumedFromOutside : String :=
  "effect A; effect B; var k = handle \x7b A(0); var a = depth(); B(1); depth() - a \x7d " ++
    "with \x7b A(x, k) => k, B(x, k) => k(x) \x7d; cb(k, 9)"

/-- The program above, where it raises the second effect: the clause resumes in tail position, and yet
there is one frame more than before. -/
theorem resumes_in_tail_from_outside :
    let e := ((create {} 0).defineNative ⟨"cb", 2, .hook .callBack⟩).defineNative
      ⟨"depth", 0, .hook .depth⟩
    ∃ (code : Code Value) (m s m₁ m₂ m' : Machine) (h : Installed Value) (k : Continuation Value)
      (v : Value), (e.compileSource {} resumedFromOutside).1 = .ok code ∧
      ((e.compileSource {} resumedFromOutside).2.started code).Reaches m ∧
      m.Suspending s h k m₁ ∧ Machine.Works m.waiting.length h.depth m₁ m₂ ∧ m₂.TailResumes k v ∧
      m₂.waiting.length = m.waiting.length ∧ m₂.thread.frames.size = h.depth + 1 ∧
      m₂.advance = .more m' ∧ m'.thread.frames.size = s.thread.frames.size + 1 ∧
      m'.thread.unlabeled ≠ (s.thread.push v).unlabeled := by
  intro e
  obtain ⟨code, hcompile, htests⟩ := Except.exists_of_any
    (x := (e.compileSource {} resumedFromOutside).1)
    (f := fun code =>
      let m := ((e.compileSource {} resumedFromOutside).2.started code).after 59
      m.suspension?.any fun (s, h, clause, m₁) => decide (clause.ResumesAtOnce 1) &&
        decide (m₁.Pends m.waiting.length h.depth) &&
        decide (Exec.baseOf s.thread.levels = h.depth) &&
        decide (s.thread.frames.size < s.thread.limits.maxDepth)) (by decide +kernel)
  obtain ⟨⟨s, h, clause, m₁⟩, hsuspension, htests⟩ := (Option.any_eq_true _ _).1 htests
  simp only [Bool.and_eq_true, decide_eq_true_eq] at htests
  obtain ⟨⟨⟨honce, hpends⟩, hbase⟩, hroom⟩ := htests
  have he : Hosted (e.compileSource {} resumedFromOutside).2 [] :=
    (((Hosted.create {} 0).defineNative _).defineNative _).compileSource {} resumedFromOutside
  have hstarts : Starts (e.compileSource {} resumedFromOutside).2 [] _ :=
    .interpret (fromSource_of_compileSource hcompile)
  have hreaches : ((e.compileSource {} resumedFromOutside).2.started code).Reaches _ :=
    Machine.Reaches.refl.after 59
  have hm := he.steady hstarts hreaches
  obtain ⟨k, v, m₂, hsuspends, hworks, hresumes, hwaiting, htop⟩ :=
    hm.suspends_at_once hsuspension honce hpends
  obtain ⟨m', hmove, hmore⟩ :=
    hm.resumed_at_base hsuspends hbase hworks hresumes hwaiting htop hroom
  refine ⟨code, _, s, m₁, m₂, m', h, k, v, hcompile, hreaches, hsuspends, hworks, hresumes, hwaiting,
    htop, hmove, hmore, fun hsame => ?_⟩
  have hframes := congrArg (fun t => t.frames.size) hsame
  simp only [Thread.unlabeled, Thread.push] at hframes
  omega

end Engine

end Resumable
