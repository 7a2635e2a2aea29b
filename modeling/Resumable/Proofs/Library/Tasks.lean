import Mathlib.Algebra.Order.Ring.Int
import Mathlib.Logic.Function.Basic
import Resumable.Proofs.Library.Sound

/-!
Tasks that several machines start and wait for, each at its own pace. To start a task takes a machine
two steps: it draws a number, and later it keeps the result under that number. Steps of other machines
may come in between, also ones that ask for a number before its result is there. Whatever the order,
a result is handed out once at most, and to a machine that asks for the number of its task.
-/

namespace Resumable

/-- The shared state, and for each machine the number that it has drawn for a task whose result is
not kept yet. -/
structure Tasking where
  world : World
  drawn : Nat → Option Int

/-- What has happened. A task is started when its result is kept, and then its number is told. One
who waits for a task may find its result. -/
inductive TaskEvent where
  | acted
  | drew (machine : Nat)
  | started (machine : Nat) (id : Int64) (result : Except RuntimeError Value)
  | joined (machine : Nat) (id : Int64) (found : Option (Except RuntimeError Value))
    (outcome : Except RuntimeError Reply)

namespace TaskEvent

/-- The number that a machine has been told for its task. -/
def told? : TaskEvent → Option Int64
  | started _ id _ => some id
  | _ => none

/-- The number of the task whose result has been found. -/
def took? : TaskEvent → Option Int64
  | joined _ id (some _) _ => some id
  | _ => none

end TaskEvent

/-- What waiting for a task comes to, and what it leaves. -/
def World.join (w : World) (id : Int64) : Except RuntimeError Reply × World :=
  match Act.joinTask (.int id) w with
  | .ok reply w => (.ok reply, w)
  | .error e w => (.error e, w)

namespace Tasking

/-- One step of one machine. What it does apart from tasks is left open. -/
inductive Step (t : Tasking) : TaskEvent → Tasking → Prop
  | act (world : World) (htasks : world.tasks = t.world.tasks) : Step t .acted { t with world }
  | draw (machine : Nat) (hfree : t.drawn machine = none) :
    Step t (.drew machine)
      { world := { t.world with tasks := t.world.tasks.draw.2 }
        drawn := Function.update t.drawn machine (some t.world.tasks.draw.1) }
  | start (machine : Nat) {id : Int} (hdrawn : t.drawn machine = some id)
    (result : Except RuntimeError Value) :
    Step t (.started machine (Int64.ofInt id) result)
      { world := { t.world with tasks := t.world.tasks.store id result }
        drawn := Function.update t.drawn machine none }
  | join (machine : Nat) (hfree : t.drawn machine = none) (id : Int64) :
    Step t (.joined machine id (t.world.tasks.take? id.toInt).1 (t.world.join id).1)
      { t with world := (t.world.join id).2 }

/-- Steps of the machines in any order. What has happened is listed with the latest first. -/
inductive Course (first : Tasking) : List TaskEvent → Tasking → Prop
  | start : Course first [] first
  | step {events : List TaskEvent} {event : TaskEvent} {t t' : Tasking}
    (hcourse : Course first events t) (hstep : t.Step event t') : Course first (event :: events) t'

/-- No task has been started yet, and no machine is about to start one. -/
structure Fresh (t : Tasking) : Prop where
  tasks : t.world.tasks = {}
  drawn : ∀ machine, t.drawn machine = none

end Tasking

/-- The numbers that machines have been told, the latest first. -/
def toldIn (events : List TaskEvent) : List Int64 :=
  events.filterMap TaskEvent.told?

/-- The numbers of the tasks whose results have been found, the latest first. -/
def takenIn (events : List TaskEvent) : List Int64 :=
  events.filterMap TaskEvent.took?

variable {events : List TaskEvent} {id : Int64} {result : Except RuntimeError Value}

theorem mem_toldIn {machine : Nat} (hstarted : .started machine id result ∈ events) :
    id ∈ toldIn events :=
  List.mem_filterMap.2 ⟨_, hstarted, rfl⟩

namespace Tasks

variable {tasks : Tasks}

theorem mem_of_lookup {n : Int} (hlookup : tasks.results.lookup n = some result) :
    (n, result) ∈ tasks.results := by
  obtain ⟨before, after, hsplit, _⟩ := List.lookup_eq_some_iff.1 hlookup
  rw [hsplit]
  exact List.mem_append_right _ (.head _)

theorem lookup_of_mem {n : Int} (hkeys : (tasks.results.map Prod.fst).Nodup)
    (hmem : (n, result) ∈ tasks.results) : tasks.results.lookup n = some result := by
  obtain ⟨count, results⟩ := tasks
  simp only at hkeys hmem ⊢
  induction results with
  | nil => cases hmem
  | cons entry results ih =>
    obtain ⟨other, result'⟩ := entry
    rw [List.map_cons, List.nodup_cons] at hkeys
    obtain hsame | hrest := List.mem_cons.1 hmem
    · cases hsame
      exact List.lookup_cons_self
    · have hother : (n == other) = false := by
        refine beq_eq_false_iff_ne.2 ?_
        rintro rfl
        exact hkeys.1 (List.mem_map.2 ⟨(n, result), hrest, rfl⟩)
      rw [List.lookup_cons, hother]
      exact ih hkeys.2 hrest

/-- One result less is there after one has been taken. -/
theorem pending_erase {n : Int} (hkeys : (tasks.results.map Prod.fst).Nodup)
    (hmem : (n, result) ∈ tasks.results) :
    (tasks.results.filter fun r => r.1 != n).length + 1 = tasks.pending := by
  have hone : tasks.results.countP (fun r => r.1 == n) = 1 := by
    have hcount : (tasks.results.map Prod.fst).count n = 1 :=
      hkeys.count.trans (if_pos (List.mem_map.2 ⟨_, hmem, rfl⟩))
    rwa [List.count, List.countP_map] at hcount
  have hsplit := List.length_eq_countP_add_countP (fun r => r.1 == n) (l := tasks.results)
  rw [← List.countP_eq_length_filter, pending, hsplit, hone, Nat.add_comm]
  simp only [bne, Bool.not_eq_true, Bool.decide_eq_false]

end Tasks

/-- Who waits for a task whose result is there gets it, and it is gone. -/
theorem World.join_of_some {w : World} (hfound : (w.tasks.take? id.toInt).1 = some result) :
    w.join id = (result.map .value, { w with tasks := (w.tasks.take? id.toInt).2 }) := by
  rw [join, Act.joinTask_run, hfound]
  cases result <;> rfl

/-- Who waits for a task whose result is not there fails and changes nothing. -/
theorem World.join_of_none {w : World} (hfound : (w.tasks.take? id.toInt).1 = none) :
    w.join id = (.error (.taskFailed ("unknown task " ++ toString id)), w) := by
  have hsame : (w.tasks.take? id.toInt).2 = w.tasks := by
    unfold Tasks.take? at hfound ⊢
    cases hlookup : w.tasks.results.lookup id.toInt with
    | none => rfl
    | some result => simp [hlookup] at hfound
  rw [join, Act.joinTask_run, hfound, hsame]
  rfl

namespace Tasking

/-- What has happened shows what is there: which numbers are out, and which results are kept. -/
structure Matches (t : Tasking) (events : List TaskEvent) : Prop where
  drawn : ∀ {machine n}, t.drawn machine = some n → 0 < n ∧ n ≤ t.world.tasks.count
  apart : ∀ {machine machine' n}, t.drawn machine = some n → t.drawn machine' = some n →
    machine = machine'
  untold : ∀ {machine n}, t.drawn machine = some n → Int64.ofInt n ∉ toldIn events
  told : ∀ {id}, id ∈ toldIn events → 0 < id.toInt ∧ id.toInt ≤ t.world.tasks.count
  told_nodup : (toldIn events).Nodup
  taken : ∀ {id}, id ∈ takenIn events → id ∈ toldIn events
  taken_nodup : (takenIn events).Nodup
  keys : (t.world.tasks.results.map Prod.fst).Nodup
  kept : ∀ {n result}, (n, result) ∈ t.world.tasks.results ↔
    ∃ machine id, id.toInt = n ∧ .started machine id result ∈ events ∧ id ∉ takenIn events
  pending : t.world.tasks.pending + (takenIn events).length = (toldIn events).length

variable {first t t' : Tasking} {event : TaskEvent} {machine : Nat}

theorem Fresh.matches (hfresh : t.Fresh) : t.Matches [] := by
  have htasks := hfresh.tasks
  refine ⟨?_, ?_, ?_, nofun, List.nodup_nil, nofun, List.nodup_nil, ?_, ?_, ?_⟩
  · intro machine n hdrawn
    rw [hfresh.drawn] at hdrawn
    cases hdrawn
  · intro machine machine' n hdrawn
    rw [hfresh.drawn] at hdrawn
    cases hdrawn
  · intro machine n hdrawn
    rw [hfresh.drawn] at hdrawn
    cases hdrawn
  · rw [htasks]
    exact List.nodup_nil
  · intro n result
    rw [htasks]
    simp
  · rw [htasks]
    rfl

/-- A result is found if it has been kept and not been taken. -/
theorem Matches.found_iff (hmatches : t.Matches events) :
    (t.world.tasks.take? id.toInt).1 = some result ↔
      (∃ machine, .started machine id result ∈ events) ∧ id ∉ takenIn events := by
  have htake : (t.world.tasks.take? id.toInt).1 = t.world.tasks.results.lookup id.toInt := by
    unfold Tasks.take?
    cases t.world.tasks.results.lookup id.toInt <;> rfl
  rw [htake]
  constructor
  · intro hlookup
    obtain ⟨machine, id', hid, hstarted, hkept⟩ :=
      hmatches.kept.1 (Tasks.mem_of_lookup hlookup)
    obtain rfl := Int64.toInt_inj.1 hid
    exact ⟨⟨machine, hstarted⟩, hkept⟩
  · rintro ⟨⟨machine, hstarted⟩, hkept⟩
    exact Tasks.lookup_of_mem hmatches.keys
      (hmatches.kept.2 ⟨machine, id, rfl, hstarted, hkept⟩)

theorem Step.count_le (hstep : t.Step event t') :
    t.world.tasks.count ≤ t'.world.tasks.count := by
  cases hstep with
  | act world htasks => exact Nat.le_of_eq (congrArg Tasks.count htasks).symm
  | draw machine hfree => exact Nat.le_succ _
  | start machine hdrawn result => exact Nat.le_refl _
  | join machine hfree id =>
    cases hfound : (t.world.tasks.take? id.toInt).1 with
    | none => exact Nat.le_of_eq (by rw [World.join_of_none hfound])
    | some result =>
      rw [World.join_of_some hfound]
      unfold Tasks.take?
      cases t.world.tasks.results.lookup id.toInt <;> exact Nat.le_refl _

theorem Matches.act (hmatches : t.Matches events) {world : World}
    (htasks : world.tasks = t.world.tasks) : { t with world }.Matches (.acted :: events) := by
  obtain ⟨hdrawn, hapart, huntold, htold, hnodup, htaken, hnodup', hkeys, hkept, hpending⟩ :=
    hmatches
  simp only [← htasks] at hdrawn htold hkeys hkept hpending
  refine ⟨hdrawn, hapart, huntold, htold, hnodup, htaken, hnodup', hkeys, ?_, hpending⟩
  intro n result
  simpa using! hkept

/-- A number that has been drawn is a machine integer as long as there are not too many. -/
theorem toInt_ofInt {n : Int} (hpos : 0 < n) (hlt : n < 2 ^ 63) : (Int64.ofInt n).toInt = n :=
  Int64.toInt_ofInt_of_le (by omega) hlt

theorem Matches.draw (hmatches : t.Matches events) (machine : Nat)
    (hfew : t.world.tasks.count + 1 < 2 ^ 63) :
    Matches
      { world := { t.world with tasks := t.world.tasks.draw.2 }
        drawn := Function.update t.drawn machine (some t.world.tasks.draw.1) }
      (.drew machine :: events) := by
  have hnew : ∀ {other n}, t.drawn other = some n → n ≠ t.world.tasks.draw.1 := by
    intro other n hdrawn
    have hle := (hmatches.drawn hdrawn).2
    simp only [Tasks.draw]
    omega
  refine ⟨?_, ?_, ?_, ?_, hmatches.told_nodup, hmatches.taken, hmatches.taken_nodup, hmatches.keys,
    ?_, hmatches.pending⟩
  · intro other n hdrawn
    simp only [Tasks.draw, Function.update_apply] at hdrawn ⊢
    split at hdrawn
    · cases hdrawn
      omega
    · have hbound := hmatches.drawn hdrawn
      omega
  · intro other other' n hdrawn hdrawn'
    simp only [Function.update_apply] at hdrawn hdrawn'
    split at hdrawn <;> split at hdrawn'
    next hother hother' => exact hother.trans hother'.symm
    next => cases hdrawn; exact absurd rfl (hnew hdrawn')
    next => cases hdrawn'; exact absurd rfl (hnew hdrawn)
    next => exact hmatches.apart hdrawn hdrawn'
  · intro other n hdrawn htold
    simp only [Function.update_apply] at hdrawn
    split at hdrawn
    · cases hdrawn
      have hle := (hmatches.told htold).2
      rw [Tasks.draw, toInt_ofInt (by omega) (by omega)] at hle
      omega
    · exact hmatches.untold hdrawn htold
  · intro id htold
    have hbound := hmatches.told htold
    simp only [Tasks.draw]
    omega
  · intro n result
    simpa using! hmatches.kept

theorem Matches.start (hmatches : t.Matches events) {n : Int} (hdrawn : t.drawn machine = some n)
    (result : Except RuntimeError Value) (hfew : t.world.tasks.count < 2 ^ 63) :
    Matches
      { world := { t.world with tasks := t.world.tasks.store n result }
        drawn := Function.update t.drawn machine none }
      (.started machine (Int64.ofInt n) result :: events) := by
  obtain ⟨hpos, hle⟩ := hmatches.drawn hdrawn
  have hn : (Int64.ofInt n).toInt = n := toInt_ofInt hpos (by omega)
  have huntold := hmatches.untold hdrawn
  have hremain : ∀ {other k}, Function.update t.drawn machine none other = some k →
      other ≠ machine ∧ t.drawn other = some k := by
    intro other k hother
    rw [Function.update_apply] at hother
    split at hother
    · cases hother
    next hne => exact ⟨hne, hother⟩
  refine ⟨?_, ?_, ?_, ?_, List.nodup_cons.2 ⟨huntold, hmatches.told_nodup⟩, ?_,
    hmatches.taken_nodup, List.nodup_cons.2 ⟨?_, hmatches.keys⟩, ?_, ?_⟩
  · intro other k hother
    exact hmatches.drawn (hremain hother).2
  · intro other other' k hother hother'
    exact hmatches.apart (hremain hother).2 (hremain hother').2
  · intro other k hother htold
    obtain ⟨hne, hother⟩ := hremain hother
    obtain hsame | htold := List.mem_cons.1 htold
    · obtain ⟨hkpos, hkle⟩ := hmatches.drawn hother
      have hk : (Int64.ofInt k).toInt = k := toInt_ofInt hkpos (by omega)
      have hkn : k = n := by rw [← hk, hsame, hn]
      exact hne (hmatches.apart hother (hkn ▸ hdrawn))
    · exact hmatches.untold hother htold
  · intro id htold
    obtain rfl | htold := List.mem_cons.1 htold
    · rw [hn]
      exact ⟨hpos, hle⟩
    · exact hmatches.told htold
  · intro id htaken
    exact .tail _ (hmatches.taken htaken)
  · intro hmem
    obtain ⟨⟨k, result'⟩, hkept, hk⟩ := List.mem_map.1 hmem
    obtain ⟨_, id, hid, hstarted, _⟩ := hmatches.kept.1 hkept
    have hsame : Int64.ofInt n = id := Int64.toInt_inj.1 (hn.trans (hid.trans hk).symm)
    exact huntold (hsame ▸ mem_toldIn hstarted)
  · intro k result'
    have hfree : Int64.ofInt n ∉ takenIn events := fun h => huntold (hmatches.taken h)
    simp only [Tasks.store, List.mem_cons, Prod.mk.injEq, hmatches.kept]
    constructor
    · rintro (⟨rfl, rfl⟩ | ⟨other, id, hid, hstarted, hfree'⟩)
      · exact ⟨machine, _, hn, Or.inl rfl, hfree⟩
      · exact ⟨other, id, hid, Or.inr hstarted, hfree'⟩
    · rintro ⟨other, id, hid, hstarted | hstarted, hfree'⟩
      · cases hstarted
        exact Or.inl ⟨hid.symm.trans hn, rfl⟩
      · exact Or.inr ⟨other, id, hid, hstarted, hfree'⟩
  · have hpending := hmatches.pending
    change t.world.tasks.pending + 1 + (takenIn events).length = (toldIn events).length + 1
    omega

theorem Matches.join_none (hmatches : t.Matches events)
    (outcome : Except RuntimeError Reply) :
    t.Matches (.joined machine id none outcome :: events) := by
  obtain ⟨hdrawn, hapart, huntold, htold, hnodup, htaken, hnodup', hkeys, hkept, hpending⟩ :=
    hmatches
  refine ⟨hdrawn, hapart, huntold, htold, hnodup, htaken, hnodup', hkeys, ?_, hpending⟩
  intro n result
  simpa using! hkept

theorem Matches.join_some (hmatches : t.Matches events)
    (hfound : (t.world.tasks.take? id.toInt).1 = some result)
    (outcome : Except RuntimeError Reply) :
    Matches { t with world := { t.world with tasks := (t.world.tasks.take? id.toInt).2 } }
      (.joined machine id (some result) outcome :: events) := by
  obtain ⟨⟨other, hstarted⟩, hfree⟩ := hmatches.found_iff.1 hfound
  have htold := mem_toldIn hstarted
  have hmem : (id.toInt, result) ∈ t.world.tasks.results :=
    hmatches.kept.2 ⟨other, id, rfl, hstarted, hfree⟩
  have htake : (t.world.tasks.take? id.toInt).2 =
      { t.world.tasks with results := t.world.tasks.results.filter fun r => r.1 != id.toInt } := by
    rw [Tasks.take?, Tasks.lookup_of_mem hmatches.keys hmem]
  rw [htake]
  refine ⟨hmatches.drawn, hmatches.apart, hmatches.untold, hmatches.told, hmatches.told_nodup, ?_,
    List.nodup_cons.2 ⟨hfree, hmatches.taken_nodup⟩, ?_, ?_, ?_⟩
  · intro id' htaken
    obtain rfl | htaken := List.mem_cons.1 htaken
    · exact htold
    · exact hmatches.taken htaken
  · exact hmatches.keys.sublist (List.filter_sublist.map _)
  · intro n result'
    simp only [List.mem_filter, bne_iff_ne, hmatches.kept]
    constructor
    · rintro ⟨⟨other', id', rfl, hstarted', hfree'⟩, hne⟩
      refine ⟨other', id', rfl, .tail _ hstarted', ?_⟩
      intro htaken
      obtain rfl | htaken := List.mem_cons.1 htaken
      · exact hne rfl
      · exact hfree' htaken
    · rintro ⟨other', id', rfl, hstarted', hfree'⟩
      obtain ⟨hne, hfree'⟩ := List.ne_and_not_mem_of_not_mem_cons hfree'
      obtain hsame | hstarted' := List.mem_cons.1 hstarted'
      · cases hsame
      · exact ⟨⟨other', id', rfl, hstarted', hfree'⟩, fun hsame => hne (Int64.toInt_inj.1 hsame)⟩
  · have hpending := hmatches.pending
    have hless := Tasks.pending_erase hmatches.keys hmem
    change (t.world.tasks.results.filter fun r => r.1 != id.toInt).length +
      ((takenIn events).length + 1) = (toldIn events).length
    omega

/-- A step keeps what is there in agreement with what has happened. -/
theorem Matches.step (hmatches : t.Matches events) (hstep : t.Step event t')
    (hfew : t'.world.tasks.count < 2 ^ 63) : t'.Matches (event :: events) := by
  cases hstep with
  | act world htasks => exact hmatches.act htasks
  | draw machine hfree => exact hmatches.draw machine hfew
  | start machine hdrawn result => exact hmatches.start hdrawn result hfew
  | join machine hfree id =>
    cases hfound : (t.world.tasks.take? id.toInt).1 with
    | none =>
      rw [World.join_of_none hfound]
      exact hmatches.join_none _
    | some result =>
      rw [World.join_of_some hfound]
      exact hmatches.join_some hfound _

/-- From a fresh start, what is there agrees with what has happened, in whatever order. -/
theorem Course.matches (hfresh : first.Fresh) (hcourse : first.Course events t)
    (hfew : t.world.tasks.count < 2 ^ 63) : t.Matches events := by
  induction hcourse with
  | start => exact hfresh.matches
  | step hcourse hstep ih =>
    exact (ih (Nat.lt_of_le_of_lt hstep.count_le hfew)).step hstep hfew

/-- Each result is delivered once at most, and to one who waits for its task. Let machines that
share their tasks take steps in any order, with fewer than 2^63 tasks. The numbers that they are
told are positive and all different. No result is found twice, and the results that are there are
those that have been kept less those that have been found. Whoever waits for a number finds a result
just if a task with this number has been started and its result has not been found yet; the result
is that of the task, value or failure. Otherwise the waiting fails and changes nothing. -/
theorem delivered_once (hfresh : first.Fresh) (hcourse : first.Course events t)
    (hfew : t.world.tasks.count < 2 ^ 63) :
    (toldIn events).Nodup ∧ (∀ id ∈ toldIn events, 0 < id) ∧ (takenIn events).Nodup ∧
    t.world.tasks.pending = (toldIn events).length - (takenIn events).length ∧
    ∀ {machine id found outcome t'}, t.Step (.joined machine id found outcome) t' →
      (∀ result, found = some result ↔
        (∃ machine, .started machine id result ∈ events) ∧ id ∉ takenIn events) ∧
      (∀ result, found = some result → outcome = result.map .value) ∧
      (found = none →
        outcome = .error (.taskFailed ("unknown task " ++ toString id)) ∧ t' = t) := by
  have hmatches := hcourse.matches hfresh hfew
  refine ⟨hmatches.told_nodup, ?_, hmatches.taken_nodup, ?_, ?_⟩
  · intro id htold
    exact Int64.lt_iff_toInt_lt.2 (hmatches.told htold).1
  · have hpending := hmatches.pending
    omega
  · intro machine id found outcome t' hstep
    cases hstep with
    | join hfree =>
      refine ⟨fun result => hmatches.found_iff, ?_, ?_⟩
      · intro result hfound
        rw [World.join_of_some hfound]
      · intro hfound
        rw [World.join_of_none hfound]
        exact ⟨rfl, rfl⟩

/-- Two machines draw in turn, and the one that drew later is the first to start its task. A third
machine that waits for that task gets its failure. -/
theorem delivered_once_interleaved :
    ∃ t : Tasking, Course ⟨{}, fun _ => none⟩
        [.started 1 2 (.error .divisionByZero), .drew 1, .drew 0] t ∧
      (t.world.join 2).1 = .error .divisionByZero := by
  have hcourse : Course ⟨{}, fun _ => none⟩
      [.started 1 (Int64.ofInt 2) (.error .divisionByZero), .drew 1, .drew 0] _ :=
    ((Course.start.step (.draw 0 rfl)).step (.draw 1 rfl)).step
      (@Step.start _ 1 2 rfl (.error .divisionByZero))
  obtain ⟨_, _, _, _, hjoin⟩ := delivered_once ⟨rfl, fun _ => rfl⟩ hcourse (by decide)
  obtain ⟨hfound, houtcome, _⟩ := hjoin (.join 2 rfl 2)
  exact ⟨_, hcourse, houtcome _ ((hfound _).2 ⟨⟨1, .head _⟩, nofun⟩)⟩

end Tasking

end Resumable
