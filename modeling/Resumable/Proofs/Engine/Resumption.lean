import Resumable.Proofs.Engine.CallSite
import Resumable.Proofs.Engine.Sealed
import Resumable.Proofs.Machine.Resumption

/-!
A suspended computation does the same whether a program calls it or the embedding does, as long as there
is room. There is one exception: if a clause returns at once where the embedding's call has no frame
left, its value is stranded, and the call fails. The program gets the value.
-/

namespace Resumable

theorem boundsOf_of_start {acts ground : List Activation} (hstarts : ground <+: acts)
    (hbounds : boundsOf acts = []) : boundsOf ground = [] := by
  obtain ⟨rest, rfl⟩ := hstarts
  rw [boundsOf_append] at hbounds
  exact (List.append_eq_nil_iff.1 hbounds).1

/-- A thread without handlers shows activations without handlers. -/
theorem Thread.boundsOf_eq {t : Thread} {acts : List Activation} {extra : List Value}
    (hshows : t = t.showing acts extra) (hhandlers : t.handlers = #[]) : boundsOf acts = [] := by
  rw [hshows, Thread.showing_handlers] at hhandlers
  rw [← List.length_eq_zero_iff, ← length_handlersFrom 0 0 acts]
  exact congrArg Array.size hhandlers

namespace Machine

variable {hidden : Bool} {ground : List Activation} {m m' : Machine}

theorem Parallel.world (hm : m.Parallel hidden ground m') :
    m.world.Related (twinning .value hidden) m'.world := by
  cases hm with
  | running hm _ _ _ => exact hm.world
  | waiting _ hm => exact hm.world

/-- How a computation ends that has been under way for some moves. -/
theorem Concludes.of_after {i j : Nat} (h : (m.after i).Concludes hidden ground (m'.after j)) :
    m.Concludes hidden ground m' := by
  cases h with
  | returned hended hshows hv hworld =>
    rw [← after_add] at hended hshows hworld
    exact .returned hended hshows hv hworld
  | failed hended hended' hworld =>
    rw [← after_add] at hended hended'
    exact .failed hended hended' hworld
  | stranded hstranded hended hshows hv hworld =>
    rw [← after_add] at hstranded hended hshows hworld
    exact .stranded hstranded hended hshows hv hworld

/-- A program that makes a call outside of all tasks has one call in progress. -/
theorem Together.single_of_calling {level : Level} {levels : List Level} {i : Fetched} {callee : Value}
    {args : List Value} {x : Machine} (hm : Together .value hidden .task [] [] m m)
    (hwaiting : m.waiting = []) (hlevels : m.thread.levels = level :: levels)
    (hphase : level.phase = .running) (hcalling : m.Calling i callee args x) :
    m.Single ∧ ∃ pre a a', m = m.showing (pre ++ [a]) [] ∧
      a.Twins .value Eq (Value.Twins .value hidden) [] a' := by
  obtain ⟨_, G, htasks, hrun⟩ := hm
  rw [hwaiting] at htasks
  cases htasks
  obtain @⟨level₁, level₁', levels₁, levels₁', low, low', mid, mid', extra, extra', hcalls, _, hunder,
    hunderway, hshows, _⟩ := hrun
  cases hlevels.symm.trans hcalls
  cases hunder with
  | inner hκ => cases hκ
  | first hfirst habove =>
    generalize hrunning : level.phase = phase, level₁'.phase = phase' at hunderway
    cases hunderway with
    | made => cases hphase.symm.trans hrunning
    | given => cases hphase.symm.trans hrunning
    | stranded =>
      obtain ⟨_, _, hfetch, _⟩ := hcalling.operands
      rw [eq_showing hshows] at hfetch
      cases hfetch
    | @entered _ pre pre' a a' _ _ ha =>
      exact ⟨⟨hwaiting, level, hlevels, hphase, habove.depth, hfirst.1⟩, pre, a, a',
        eq_showing hshows, ha⟩

/-- Whether the next move finds no room. -/
def findsNoRoomNext (m : Machine) : Bool :=
  match m.thread.levels with
  | [] => false
  | level :: _ =>
    match level.phase with
    | .made callee args => findsNoRoom (Exec.call callee args 0 false (m.setPhase .opening))
    | .opening => findsNoRoom (Exec.pop m)
    | .running =>
      match Exec.fetch m with
      | .ok i m => findsNoRoom (Exec.execute i m)
      | .error (.error (.stackOverflow _)) _ => true
      | .error _ _ => false

/-- Whether a machine comes to an end within some moves and finds room for all of them. -/
def endsWithin : (fuel : Nat) → Machine → Bool
  | 0, _ => false
  | fuel + 1, m => !m.findsNoRoomNext &&
    match m.advance with
    | .more m => m.endsWithin fuel
    | .ended _ _ => true

theorem Overflowing.findsNoRoomNext (hover : m.Overflowing) : m.findsNoRoomNext = true := by
  obtain ⟨level, levels, hlevels⟩ : ∃ level levels, m.thread.levels = level :: levels := by
    obtain ⟨_, _, hstops⟩ := hover
    cases hstops with
    | call hlevels => exact ⟨_, _, hlevels⟩
    | settle hlevels => exact ⟨_, _, hlevels⟩
    | fetch hlevels => exact ⟨_, _, hlevels⟩
    | execute hlevels => exact ⟨_, _, hlevels⟩
  unfold Machine.findsNoRoomNext
  obtain ⟨detail, x, ⟨callee, args, hphase, hstop⟩ | ⟨hphase, hstop⟩ | ⟨hphase, hstop⟩⟩ :=
    hover.inv hlevels
  · simp only [hlevels, hphase, hstop, findsNoRoom]
  · simp only [hlevels, hphase, hstop, findsNoRoom]
  · obtain hstop | ⟨i, m₁, hfetch, hstop⟩ := hstop
    · simp only [hlevels, hphase, hstop]
    · simp only [hlevels, hphase, hfetch, hstop, findsNoRoom]

/-- A machine that comes to an end and finds room for all moves on the way always finds room. -/
theorem not_overflowing_of_endsWithin {fuel : Nat} (hends : m.endsWithin fuel = true) (n : Nat) :
    ¬ (m.after n).Overflowing := by
  induction fuel generalizing m n with
  | zero => cases hends
  | succ fuel ih =>
    rw [endsWithin, Bool.and_eq_true, Bool.not_eq_true'] at hends
    have hroom : ¬ m.Overflowing := by
      intro hover
      rw [hover.findsNoRoomNext] at hends
      cases hends.1
    cases n with
    | zero => exact hroom
    | succ n =>
      rw [after]
      cases hmove : m.advance with
      | more m₁ =>
        rw [hmove] at hends
        exact ih hends.2 n
      | ended => exact hroom

end Machine

namespace Engine

variable {e : Engine} {seen : List Value} {start m s : Machine} {level : Level} {levels : List Level}
  {i : Fetched} {id : Nat} {k : Continuation Value} {v : Value} {t : Thread}

/-- A program calls a suspended computation with a value, outside of all handlers, and the embedding
calls it with the same value on a thread at rest, over the same shared state. As long as both find room,
either both calls go on for ever, side by side, or both come to an end: the embedding's call returns the
value that the program gets, or both fail alike, or the value is stranded in the embedding's call. -/
theorem Guarded.resumes_alike (he : e.Guarded .value seen) (hlaunches : e.Launches .value seen start)
    (hreaches : start.Reaches m) (hwaiting : m.waiting = []) (hhandlers : m.thread.handlers = #[])
    (hlevels : m.thread.levels = level :: levels) (hphase : level.phase = .running)
    (hcalling : m.Calling i (.continuation id k) [v] s) (ht : t.Rests)
    (hfree : ∀ n, ¬ ((Machine.begin m.world t (.continuation id k) [v]).after n).Overflowing ∧
      ¬ (m.after n).Overflowing) :
    (∀ n, ((Machine.begin m.world t (.continuation id k) [v]).after (2 + n)).world.Related
        (twinning .value true) (m.after (1 + n)).world ∧
      (∃ x, ((Machine.begin m.world t (.continuation id k) [v]).after (2 + n)).advance = .more x) ∧
      ∃ x, (m.after (1 + n)).advance = .more x) ∨
    ∃ acts ground, s = s.showing acts [] ∧ ground <+: acts ∧ ground ≠ [] ∧
      (Machine.begin m.world t (.continuation id k) [v]).Concludes true ground m := by
  have htogether := (he.launches (Or.inl rfl) hlaunches).reaches (Or.inl rfl) hreaches
  obtain ⟨hsingle, pre, a, a', hshows, ha⟩ :=
    htogether.single_of_calling hwaiting hlevels hphase hcalling
  have hbounds := Thread.boundsOf_eq (congrArg Machine.thread hshows) hhandlers
  have hcalling' := hcalling
  rw [hshows] at hcalling'
  obtain ⟨b, b', callee', args', rfl, _, hsame, _, hcallee, hargs, _⟩ :=
    hcalling'.twins (ρ := .exact true) ha m pre
  have hbounds' : boundsOf (pre ++ [b]) = [] := by
    rw [boundsOf_append, boundsOf_cons] at hbounds ⊢
    rw [hsame]
    exact hbounds
  have hk := hcallee.self
  obtain ⟨v', _, hv, _⟩ := List.forall₂_cons_left_iff.1 hargs
  have hv := hv.self
  obtain ⟨c, above, c', above', hacts, hacts', hc, htwins⟩ := hk.unfold.inner
  obtain ⟨hfirst, hrest⟩ := List.forall₂_cons.1 htwins
  obtain ⟨n, label, hn, hworld, hafter⟩ := Machine.begin_resumes ht hacts hc (hfree 0).1
  obtain ⟨ground, label', hne, hstarts, hafter'⟩ := Machine.call_resumes hsingle hcalling rfl hacts'
    (hfirst.isSome_handler.trans hc) (hfree 0).2
  have hapart : n.Apart true m.relabeled := by
    refine ⟨?_, hn, hsingle⟩
    rw [hworld]
    exact htogether.world
  have hparallel : (n.showing ([] ++ c.relabel label :: above) [v]).Parallel true ground
      (m.relabeled.showing (ground ++ c'.relabel label' :: above') [v]) :=
    hapart.parallel_of_given .nil (.cons (hfirst.relabel label label') hrest) (List.cons_ne_nil _ _) hv
  rw [← hafter, ← hafter'] at hparallel
  have hhides : Hides .value { world := m.world, thread := t } := ⟨htogether.world, ht⟩
  have hbegin := hhides.begin hk (List.forall_mem_singleton.2 hv)
  have hfree' : ∀ j, ¬ (((Machine.begin m.world t (.continuation id k) [v]).after 2).after j).Overflowing ∧
      ¬ ((m.after 1).after j).Overflowing ∧
      ¬ (((Machine.begin m.world t (.continuation id k) [v]).after 2).after j).Invokes
        (Pairing.exact true).tells := by
    intro j
    have hreached := hbegin.reaches (Or.inl rfl) (Machine.Reaches.refl.after (2 + j))
    have htells := hreached.not_tells Kind.noConfusion fun _ => ⟨rfl, rfl⟩
    rw [← Machine.after_add, ← Machine.after_add]
    exact ⟨(hfree (2 + j)).1, (hfree (1 + j)).2, htells⟩
  obtain hon | hconcludes :=
    hparallel.concludes (boundsOf_of_start hstarts hbounds') hne hfree'
  · refine Or.inl fun j => ?_
    obtain ⟨hj, hmove, hmove'⟩ := hon j
    rw [Machine.after_add, Machine.after_add]
    exact ⟨hj.world, hmove, hmove'⟩
  · exact Or.inr ⟨pre ++ [b], ground, rfl, hstarts, hne, hconcludes.of_after⟩

/-- A program that calls a computation which has been suspended in the body of a handler. -/
def resumeOutside : Program :=
  [.declare 1 "e" (.callOf 1 "new_effect" [.str 1 "e"]),
    .declare 1 "k" (.handled 1 [(.name 1 "e", .lambda 1 none ["p", "k"] (.name 1 "k"))]
      (.callOf 1 "neg" [.callOf 1 "e" [.int 1 0]])),
    .callOf 2 "k" [.int 2 5]]

/-- Whether a machine is about to call a suspended computation outside of all handlers, and whether both
this and the call by an embedding come to an end within some moves. -/
def resumesWithin (fuel : Nat) (m : Machine) : Bool :=
  m.waiting.isEmpty && m.thread.handlers.isEmpty &&
    match m.thread.levels with
    | { phase := .running, .. } :: _ =>
      match Exec.fetch m with
      | .ok i m₁ => (i.op == .call || i.op == .tailCall) &&
        match Exec.pop m₁ with
        | .ok (.continuation id k) m₂ =>
          match Exec.popMany i.operand m₂ with
          | .ok [v] _ => m.endsWithin fuel &&
            (Machine.begin m.world {} (.continuation id k) [v]).endsWithin fuel
          | _ => false
        | _ => false
      | _ => false
    | _ => false

/-- A computation that is called by a program and by an embedding. -/
theorem resumes_alike_outside :
    ∃ (m s : Machine) (i : Fetched) (id : Nat) (k : Continuation Value) (v : Value),
      m.Calling i (.continuation id k) [v] s ∧
      ((∀ n, ((Machine.begin m.world {} (.continuation id k) [v]).after (2 + n)).world.Related
          (twinning .value true) (m.after (1 + n)).world ∧
        (∃ x, ((Machine.begin m.world {} (.continuation id k) [v]).after (2 + n)).advance = .more x) ∧
        ∃ x, (m.after (1 + n)).advance = .more x) ∨
      ∃ acts ground, s = s.showing acts [] ∧ ground <+: acts ∧ ground ≠ [] ∧
        (Machine.begin m.world {} (.continuation id k) [v]).Concludes true ground m) := by
  obtain ⟨code, hcompile, htests⟩ := Except.exists_of_any
    (f := fun code => resumesWithin 8 ((((create {} 0).compile {} resumeOutside).2.started code).after 23))
    (x := ((create {} 0).compile {} resumeOutside).1) (by decide +kernel)
  have hguarded : Guarded .value ((create {} 0).compile {} resumeOutside).2 [] :=
    (Guarded.create {} 0).compile {} resumeOutside
  have hcode : code.Accepted .value := compiled_of_compile hcompile
  have hreaches := Machine.Reaches.refl.after 23
    (m := ((create {} 0).compile {} resumeOutside).2.started code)
  generalize (((create {} 0).compile {} resumeOutside).2.started code).after 23 = m at htests hreaches
  rw [resumesWithin, Bool.and_eq_true, Bool.and_eq_true, List.isEmpty_iff, Array.isEmpty_iff] at htests
  obtain ⟨⟨hwaiting, hhandlers⟩, htests⟩ := htests
  split at htests
  next hlevels =>
    split at htests
    next i m₁ hfetch =>
      rw [Bool.and_eq_true, Bool.or_eq_true, beq_iff_eq, beq_iff_eq] at htests
      obtain ⟨hop, htests⟩ := htests
      split at htests
      next id k m₂ hcallee =>
        split at htests
        next v s hargs =>
          rw [Bool.and_eq_true] at htests
          have hcalling : m.Calling i (.continuation id k) [v] s := ⟨hop, m₁, m₂, hfetch, hcallee, hargs⟩
          refine ⟨m, s, i, id, k, v, hcalling, ?_⟩
          exact hguarded.resumes_alike (.interpret hcode) hreaches hwaiting hhandlers hlevels rfl hcalling
            ⟨rfl, rfl⟩ fun n => ⟨Machine.not_overflowing_of_endsWithin htests.2 n,
              Machine.not_overflowing_of_endsWithin htests.1 n⟩
        next => cases htests
      next => cases htests
    next => cases htests
  next => cases htests

/-- A program whose value is a suspended computation. When it goes on, it raises another effect, and the
clause for that is a function of the machine, which returns at once. -/
def clauseAtOnce : Program :=
  [.declare 1 "a" (.callOf 1 "new_effect" [.str 1 "a"]),
    .declare 1 "b" (.callOf 1 "new_effect" [.str 1 "b"]),
    .handled 1 [(.name 1 "a", .lambda 1 none ["p", "k"] (.name 1 "k")), (.name 1 "b", .name 1 "neg")]
      (.callOf 1 "b" [.callOf 1 "a" [.int 1 0]])]

/-- Whether the value of a program strands a value when an embedding calls it. -/
def strandsValue (e : Engine) (code : Code Value) : Bool :=
  match e.interpret 40 code with
  | some (.returned k, e) =>
    match e.call 40 k [.int 5] with
    | some (.failed (.invalidBytecode _), _) => true
    | _ => false
  | _ => false

example : ((create {} 0).compile {} clauseAtOnce).1.toOption.any
    (strandsValue ((create {} 0).compile {} clauseAtOnce).2) = true := by
  decide +kernel

end Engine

end Resumable
