import Mathlib.Data.List.Induction
import Resumable.Proofs.Machine.Depth
import Resumable.Proofs.Machine.Twin

/-!
Calls in two threads whose uppermost activations are twins. What lies below, `low` in one thread and
`low'` in the other, is out of sight: no handler down there answers an effect. So both calls do the
same, unless one of them finds no room for a frame, or a function is called that depends on what need
not correspond, such as the number of frames.
-/

namespace Resumable

/-- What becomes of a call that a function has asked for, made on top of `depth` frames. -/
def CallMode.purpose (depth : Nat) : CallMode → Purpose
  | .pass => .pass
  | .catch => .catch depth

namespace Machine

/-- The machine with one more call in progress, which is about to be made. -/
def calling (m : Machine) (callee : Value) (args : List Value) (line : Nat) (purpose : Purpose) :
    Machine :=
  { m with thread := { m.thread with levels :=
    { depth := m.thread.frames.size
      height := m.thread.stack.size
      handlers := m.thread.handlers.size
      phase := .made callee args
      line
      purpose } :: m.thread.levels } }

/-- The outermost call of a task. -/
def taskLevel (callee : Value) : Level :=
  { depth := 0, height := 0, handlers := 0, phase := .made callee [], line := 0, purpose := .finish }

/-- The machine with a new task, for which its thread waits. -/
def spawning (m : Machine) (callee : Value) : Machine :=
  { world := { m.world with tasks := m.world.tasks.draw.2 }
    thread := { limits := m.thread.limits, levels := [taskLevel callee] }
    waiting := (m.world.tasks.draw.1, m.thread) :: m.waiting }

/-- Two machines with related shared states, and with the same calls in progress and waiting threads
as two others. -/
structure Beside (L : Likeness) (s s' m m' : Machine) : Prop where
  world : m.world.Related L m'.world
  waiting : m.waiting = s.waiting
  waiting' : m'.waiting = s'.waiting
  levels : m.thread.levels = s.thread.levels
  levels' : m'.thread.levels = s'.thread.levels

namespace Beside

variable {L : Likeness} {s s' m m' : Machine}

theorem showing (hm : Beside L s s' m m') (acts acts' : List Activation) (extra extra' : List Value) :
    Beside L s s' (m.showing acts extra) (m'.showing acts' extra') :=
  ⟨hm.world, hm.waiting, hm.waiting', hm.levels, hm.levels'⟩

theorem withWorld (hm : Beside L s s' m m') {w w' : World} (hw : w.Related L w') :
    Beside L s s' { m with world := w } { m' with world := w' } :=
  ⟨hw, hm.waiting, hm.waiting', hm.levels, hm.levels'⟩

theorem relabeled (hm : Beside L s s' m m') : Beside L s s' m.relabeled m'.relabeled :=
  ⟨hm.world, hm.waiting, hm.waiting', hm.levels, hm.levels'⟩

end Beside

end Machine

/-- The activations `low` reach up to the innermost call at least, and none of their handlers is in
its sight. -/
structure Unseen (levels : List Level) (low : List Activation) : Prop where
  base : Exec.baseOf levels ≤ low.length
  none : ∀ effect, findHandler (handlersFrom 0 0 low).toArray (Exec.baseOf levels) effect
    (handlersFrom 0 0 low).length = none

namespace Exec

/-- An action has found no room. -/
def Overflows {α : Type} (r : EStateM.Result Stop Machine α) : Prop :=
  ∃ detail m, r = .error (.error (.stackOverflow detail)) m

/-- A call goes on with a suspended computation. -/
def Resumes (callee : Value) (args : List Value) (m : Machine) : Prop :=
  ∃ k v s, apply callee args m = .ok (.resume k v) s

/-- The call of the clause that answers an effect is one of a function of the kind `p`. -/
def RaiseInvokes (p : Native → Bool) (effect : Effect) (payload : Value) (m : Machine) : Prop :=
  ∃ index h clause k s, findHandler m.thread.handlers (baseOf m.thread.levels) effect
      m.thread.handlers.size = some (index, h, clause) ∧ capture index h m = .ok k s ∧
    Invokes p clause (clauseArgs clause payload (.continuation s.world.draw.1 k)) s.drawn

/-- What two actions with the value `x` come to that started with the activations `start` above those
out of sight: twins have been given a value or have been entered, or both actions have asked for the
same call or task, or they have failed alike. They part only if one of them has found no room or
`tells`: a function has been called that depends on what need not correspond. -/
inductive Concur {α : Type} (κ : Kind) (ρ : Pairing) (s s' : Machine)
    (low low' start : List Activation) (tells : Prop) (x : α) :
    EStateM.Result Stop Machine α → EStateM.Result Stop Machine α → Prop
  | given {m m' : Machine} {mid mid' : List Activation} {v v' : Value}
    (hm : Machine.Beside (twinning κ ρ) s s' m m')
    (hmid : List.Forall₂ (Activation.Twins κ ρ.ids (Value.Twins κ ρ) [.value]) mid mid')
    (hsolid : κ = .clause → mid = [] → start = []) (hv : v.Twins κ ρ v') :
    Concur κ ρ s s' low low' start tells x (.ok x (m.showing (low ++ mid) [v]))
      (.ok x (m'.showing (low' ++ mid') [v']))
  | entered {m m' : Machine} {mid mid' : List Activation} {a a' : Activation}
    (hm : Machine.Beside (twinning κ ρ) s s' m m')
    (hmid : List.Forall₂ (Activation.Twins κ ρ.ids (Value.Twins κ ρ) [.value]) mid mid')
    (ha : a.Twins κ ρ.ids (Value.Twins κ ρ) [] a') :
    Concur κ ρ s s' low low' start tells x (.ok x (m.showing (low ++ (mid ++ [a])) []))
      (.ok x (m'.showing (low' ++ (mid' ++ [a'])) []))
  | called {m m' : Machine} {mid mid' : List Activation} {callee callee' : Value}
    {args args' : List Value} {line : Nat} (mode : CallMode)
    (hm : Machine.Beside (twinning κ ρ) s s' m m')
    (hmid : List.Forall₂ (Activation.Twins κ ρ.ids (Value.Twins κ ρ) [.value]) mid mid')
    (hbefore : mid <+: start) (hsolid : κ = .clause → mid = [] → start = []) (hκ : κ = .clause)
    (hcallee : callee.Twins κ ρ callee') (hargs : List.Forall₂ (Value.Twins κ ρ) args args') :
    Concur κ ρ s s' low low' start tells x
      (.ok x ((m.showing (low ++ mid) []).calling callee args line
        (mode.purpose (low ++ mid).length)))
      (.ok x ((m'.showing (low' ++ mid') []).calling callee' args' line
        (mode.purpose (low' ++ mid').length)))
  | spawned {m m' : Machine} {mid mid' : List Activation} {callee callee' : Value}
    (hm : Machine.Beside (twinning κ ρ) s s' m m')
    (hmid : List.Forall₂ (Activation.Twins κ ρ.ids (Value.Twins κ ρ) [.value]) mid mid')
    (hbefore : mid <+: start) (hsolid : κ = .clause → mid = [] → start = []) (hwhole : ρ.whole = true)
    (hcallee : callee.Twins κ ρ callee') :
    Concur κ ρ s s' low low' start tells x (.ok x ((m.showing (low ++ mid) []).spawning callee))
      (.ok x ((m'.showing (low' ++ mid') []).spawning callee'))
  | failed {m m' : Machine} {e : RuntimeError}
    (hm : Machine.Beside (twinning κ ρ) s s' m m') (hextends : m.thread.Extends low)
    (hextends' : m'.thread.Extends low') :
    Concur κ ρ s s' low low' start tells x (.error (.error e) m) (.error (.error e) m')
  | parted {r r' : EStateM.Result Stop Machine α} (hne : ρ.whole = true → r ≠ r')
    (hcause : Overflows r ∨ Overflows r' ∨ tells) : Concur κ ρ s s' low low' start tells x r r'

end Exec

theorem findHandler_append {xs ys : List (Installed Value)} {base n : Nat} {effect : Effect}
    (hn : n ≤ xs.length) :
    findHandler (xs ++ ys).toArray base effect n = findHandler xs.toArray base effect n := by
  induction n with
  | zero => rfl
  | succ n ih =>
    rw [findHandler, findHandler, List.getElem?_toArray, List.getElem?_toArray,
      List.getElem?_append_left hn, ih (Nat.le_of_succ_le hn)]

/-- The search for a handler looks at the last activation first. -/
theorem findHandler_concat (acts : List Activation) (a : Activation) {base : Nat}
    (hbase : base ≤ acts.length) (effect : Effect) :
    findHandler (handlersFrom 0 0 (acts ++ [a])).toArray base effect
        (handlersFrom 0 0 (acts ++ [a])).length =
      match a.handler.bind fun bound => (Clauses.find? bound.1 effect).map fun c => (bound, c) with
      | some (bound, clause) => some ((handlersFrom 0 0 acts).length,
        ⟨bound.1, acts.length, heightOf acts, bound.2⟩, clause)
      | none => findHandler (handlersFrom 0 0 acts).toArray base effect
        (handlersFrom 0 0 acts).length := by
  have hsplit : handlersFrom 0 0 (acts ++ [a]) =
      handlersFrom 0 0 acts ++ a.installed acts.length (heightOf acts) := by simp
  rw [hsplit]
  cases hhandler : a.handler with
  | none => simp [Activation.installed, hhandler]
  | some bound =>
    obtain ⟨clauses, label⟩ := bound
    rw [Activation.installed_eq hhandler, List.length_append, List.length_singleton, findHandler,
      List.getElem?_toArray, List.getElem?_append_right (Nat.le_refl _), Nat.sub_self]
    simp only [List.getElem?_cons_zero, if_neg (Nat.not_lt.2 hbase), Option.bind_some]
    rw [findHandler_append (Nat.le_refl _)]
    cases Clauses.find? clauses effect <;> rfl

/-- A handler that is found in two threads: twin activations bound it, and its clauses are twins. -/
structure FoundAt (κ : Kind) (ids : Nat → Nat → Prop) (R : Value → Value → Prop) (low low' mid mid' : List Activation)
    (found found' : Nat × Installed Value × Value) : Prop where
  split : ∃ pre pre' b b' above above' clauses clauses' label label',
    mid = pre ++ b :: above ∧ mid' = pre' ++ b' :: above' ∧
    List.Forall₂ (Activation.Twins κ ids R [.value]) pre pre' ∧ b.Twins κ ids R [.value] b' ∧
    List.Forall₂ (Activation.Twins κ ids R [.value]) above above' ∧
    b.handler = some (clauses, label) ∧ b'.handler = some (clauses', label') ∧
    found.1 = (handlersFrom 0 0 (low ++ pre)).length ∧
    found.2.1 = ⟨clauses, (low ++ pre).length, heightOf (low ++ pre), label⟩ ∧
    found'.1 = (handlersFrom 0 0 (low' ++ pre')).length ∧
    found'.2.1 = ⟨clauses', (low' ++ pre').length, heightOf (low' ++ pre'), label'⟩
  clause : R found.2.2 found'.2.2
  fits : κ.Fits found.2.2

/-- Above activations that are out of sight, the same handler is found in two threads. -/
theorem findHandler_twins {κ : Kind} {ρ : Correspondence} {R : Value → Value → Prop} {levels levels' : List Level}
    {low low' mid mid' : List Activation} (hlow : Unseen levels low) (hlow' : Unseen levels' low')
    (hmid : List.Forall₂ (Activation.Twins κ ρ.ids R [.value]) mid mid')
    {effect effect' : Effect} (heffect : effect.Matches ρ.ids effect') :
    Option.Rel (FoundAt κ ρ.ids R low low' mid mid')
      (findHandler (handlersFrom 0 0 (low ++ mid)).toArray (Exec.baseOf levels) effect
        (handlersFrom 0 0 (low ++ mid)).length)
      (findHandler (handlersFrom 0 0 (low' ++ mid')).toArray (Exec.baseOf levels') effect'
        (handlersFrom 0 0 (low' ++ mid')).length) := by
  induction mid using List.reverseRecOn generalizing mid' with
  | nil =>
    cases hmid
    rw [List.append_nil, List.append_nil, hlow.none, hlow'.none]
    exact .none
  | append_singleton mid a ih =>
    obtain ⟨mid', a', rfl, hmid, ha⟩ := forall₂_concat_left hmid
    have hbase : Exec.baseOf levels ≤ (low ++ mid).length := by
      have := hlow.base
      rw [List.length_append]
      omega
    have hbase' : Exec.baseOf levels' ≤ (low' ++ mid').length := by
      have := hlow'.base
      rw [List.length_append]
      omega
    rw [← List.append_assoc, ← List.append_assoc, findHandler_concat _ a hbase,
      findHandler_concat _ a' hbase']
    have hbelow : Option.Rel (FoundAt κ ρ.ids R low low' (mid ++ [a]) (mid' ++ [a']))
        (findHandler (handlersFrom 0 0 (low ++ mid)).toArray (Exec.baseOf levels) effect
          (handlersFrom 0 0 (low ++ mid)).length)
        (findHandler (handlersFrom 0 0 (low' ++ mid')).toArray (Exec.baseOf levels') effect'
          (handlersFrom 0 0 (low' ++ mid')).length) := by
      have hfound := ih hmid
      generalize findHandler _ (Exec.baseOf levels) effect _ = found at hfound
      generalize findHandler _ (Exec.baseOf levels') effect' _ = found' at hfound
      cases hfound with
      | none => exact .none
      | some hfound =>
        obtain ⟨⟨pre, pre', b, b', above, above', clauses, clauses', label, label', rfl, rfl, hpre, hb,
          habove, hplaces⟩, hclause, hfits⟩ := hfound
        exact .some ⟨⟨pre, pre', b, b', above ++ [a], above' ++ [a'], clauses, clauses', label, label',
          by simp, by simp, hpre, hb, List.rel_append habove (.cons ha .nil), hplaces⟩, hclause, hfits⟩
    have hhandler := ha.handler
    cases hbound : a.handler with
    | none =>
      rw [hbound] at hhandler
      generalize hbound' : a'.handler = bound' at hhandler
      cases hhandler
      exact hbelow
    | some bound =>
      rw [hbound] at hhandler
      generalize hbound' : a'.handler = bound' at hhandler
      cases hhandler with
      | @some _ bound' hclauses =>
      obtain ⟨clauses, label⟩ := bound
      obtain ⟨clauses', label'⟩ := bound'
      have hfind := ClausesRelated.find? hclauses heffect
      simp only [Option.bind_some]
      generalize Clauses.find? clauses effect = clause at hfind
      generalize Clauses.find? clauses' effect' = clause' at hfind
      cases hfind with
      | none => exact hbelow
      | some hclause =>
        exact .some ⟨⟨mid, mid', a, a', [], [], clauses, clauses', label, label', rfl, rfl, hmid, ha,
          .nil, hbound, hbound', rfl, rfl, rfl, rfl⟩, hclause.1, hclause.2⟩

namespace Exec

variable {κ : Kind} {ρ : Pairing} {s s' m m' : Machine} {low low' start mid mid' : List Activation}
  {tells : Prop} {args args' : List Value}

/-- The result of an action with another value. -/
def withValue {β : Type} (b : β) : EStateM.Result Stop Machine Unit → EStateM.Result Stop Machine β
  | .ok _ m => .ok b m
  | .error stop m => .error stop m

theorem andThen_run {β : Type} (x : Exec Unit) (b : β) (m : Machine) :
    (do x; return b : Exec β) m = withValue b (x m) := by
  cases hx : x m with
  | ok u n => exact bind_of_ok hx
  | error stop n => exact bind_of_error hx

theorem withValue_inj {β : Type} {b : β} {r r' : EStateM.Result Stop Machine Unit}
    (h : withValue b r = withValue b r') : r = r' := by
  cases r <;> cases r' <;> cases h <;> rfl

/-- The arguments of clauses that look the same. -/
theorem clauseArgs_related {L : Likeness} {clause clause' payload payload' k k' : Value}
    (hclause : L.rel clause clause') (hpayload : L.rel payload payload') (hk : L.rel k k') :
    List.Forall₂ L.rel (clauseArgs clause payload k) (clauseArgs clause' payload' k') := by
  unfold clauseArgs
  rw [Likeness.arity?_eq hclause]
  split
  · exact .cons hpayload .nil
  · exact .cons hpayload (.cons hk .nil)

namespace Concur

/-- Actions whose value does not matter. -/
theorem andThen {β : Type} {x x' : Exec Unit} (b : β)
    (h : Concur κ ρ s s' low low' start tells () (x m) (x' m')) :
    Concur κ ρ s s' low low' start tells b ((do x; return b : Exec β) m)
      ((do x'; return b : Exec β) m') := by
  rw [andThen_run, andThen_run]
  generalize x m = r at h
  generalize x' m' = r' at h
  cases h with
  | given hm hmid hsolid hv => exact .given hm hmid hsolid hv
  | entered hm hmid ha => exact .entered hm hmid ha
  | called mode hm hmid hbefore hsolid hκ hcallee hargs =>
    exact .called mode hm hmid hbefore hsolid hκ hcallee hargs
  | spawned hm hmid hbefore hsolid hwhole hcallee =>
    exact .spawned hm hmid hbefore hsolid hwhole hcallee
  | failed hm hextends hextends' => exact .failed hm hextends hextends'
  | parted hne hcause =>
    refine .parted (fun hwhole heq => hne hwhole (withValue_inj heq)) (hcause.imp ?_ (Or.imp_left ?_))
    · rintro ⟨detail, n, rfl⟩
      exact ⟨detail, n, rfl⟩
    · rintro ⟨detail, n, rfl⟩
      exact ⟨detail, n, rfl⟩

/-- Both actions have found no room. -/
theorem refused {α : Type} {x : α} {detail detail' : String}
    (hm : Machine.Beside (twinning κ ρ) s s' m m') (hextends : m.thread.Extends low)
    (hextends' : m'.thread.Extends low') :
    Concur κ ρ s s' low low' start tells x (.error (.error (.stackOverflow detail)) m)
      (.error (.error (.stackOverflow detail')) m') := by
  by_cases hsame : detail = detail'
  · subst hsame
    exact .failed hm hextends hextends'
  · refine .parted ?_ (Or.inl ⟨detail, m, rfl⟩)
    intro _ heq
    cases heq
    exact hsame rfl

/-- The first of two actions has found no room. -/
theorem left {α : Type} {x y : α} {detail : String} {n n' : Machine} :
    Concur κ ρ s s' low low' start tells x (.error (.error (.stackOverflow detail)) n)
      (.ok y n') :=
  .parted (fun _ => nofun) (Or.inl ⟨detail, n, rfl⟩)

theorem right {α : Type} {x y : α} {detail : String} {n n' : Machine} :
    Concur κ ρ s s' low low' start tells x (.ok y n)
      (.error (.error (.stackOverflow detail)) n') :=
  .parted (fun _ => nofun) (Or.inr (Or.inl ⟨detail, n', rfl⟩))

/-- Both actions fail, whatever twins there are. -/
theorem failure {α : Type} {x : α} (hm : Machine.Beside (twinning κ ρ) s s' m m')
    (mid mid' : List Activation) (e : RuntimeError) :
    Concur κ ρ s s' low low' start tells x (.error (.error e) (m.showing (low ++ mid) []))
      (.error (.error e) (m'.showing (low' ++ mid') [])) :=
  .failed (hm.showing _ _ [] []) (m.thread.extends_showing low mid [])
    (m'.thread.extends_showing low' mid' [])

/-- Values that are put on the stack. -/
theorem push {v v' : Value} (hm : Machine.Beside (twinning κ ρ) s s' m m')
    (hmid : List.Forall₂ (Activation.Twins κ ρ.ids (Value.Twins κ ρ) [.value]) mid mid')
    (hsolid : κ = .clause → mid = [] → start = []) (hv : v.Twins κ ρ v') :
    Concur κ ρ s s' low low' start tells () (Exec.push v (m.showing (low ++ mid) []))
      (Exec.push v' (m'.showing (low' ++ mid') [])) := by
  rw [Exec.push_showing, Exec.push_showing]
  exact .given hm hmid hsolid hv

/-- A function that is called gets an activation on top. -/
theorem pushFrame {id id' : Nat} {f : Code Value} {env env' : List (Symbol × Value)}
    (hm : Machine.Beside (twinning κ ρ) s s' m m')
    (hmid : List.Forall₂ (Activation.Twins κ ρ.ids (Value.Twins κ ρ) [.value]) mid mid')
    (hclosure : (Value.closure id f env).Twins κ ρ (.closure id' f env'))
    (hargs : List.Forall₂ (Value.Twins κ ρ) args args') :
    Concur κ ρ s s' low low' start tells ()
      (Exec.pushFrame (.closure id f env) f env args false (m.showing (low ++ mid) []))
      (Exec.pushFrame (.closure id' f env') f env' args' false (m'.showing (low' ++ mid') [])) := by
  obtain ⟨_, detail, herror⟩ | ⟨_, hok⟩ :=
    Exec.pushFrame_showing m (low ++ mid) (.closure id f env) f env args <;>
  obtain ⟨_, detail', herror'⟩ | ⟨_, hok'⟩ :=
    Exec.pushFrame_showing m' (low' ++ mid') (.closure id' f env') f env' args'
  · rw [herror, herror']
    exact refused (hm.showing _ _ _ _) (m.thread.extends_showing low mid [])
      (m'.thread.extends_showing low' mid' [])
  · rw [herror, hok']
    exact left
  · rw [hok, herror']
    exact right
  · rw [hok, hok', List.append_assoc, List.append_assoc]
    exact .entered hm hmid (Activation.twins_enter hclosure hargs .none)

/-- A suspended computation goes on. -/
theorem resume {id id' : Nat} {k k' : Continuation Value} {v v' : Value}
    (hm : Machine.Beside (twinning κ ρ) s s' m m')
    (hmid : List.Forall₂ (Activation.Twins κ ρ.ids (Value.Twins κ ρ) [.value]) mid mid')
    (hk : (Value.continuation id k).Twins κ ρ (.continuation id' k')) (hv : v.Twins κ ρ v') :
    Concur κ ρ s s' low low' start tells () (Exec.resume k v (m.showing (low ++ mid) []))
      (Exec.resume k' v' (m'.showing (low' ++ mid') [])) := by
  obtain ⟨b, above, b', above', rfl, rfl, hb, hacts⟩ := hk.unfold.inner
  obtain ⟨hfirst, hrest⟩ := List.forall₂_cons.1 hacts
  obtain ⟨⟨clauses', label'⟩, hb'⟩ := Option.isSome_iff_exists.1 (hfirst.isSome_handler.trans hb)
  obtain ⟨⟨clauses, label⟩, hb⟩ := Option.isSome_iff_exists.1 hb
  obtain ⟨_, detail, herror⟩ | ⟨_, hok⟩ :=
    Exec.resume_showing m (low ++ mid) above b clauses label hb v <;>
  obtain ⟨_, detail', herror'⟩ | ⟨_, hok'⟩ :=
    Exec.resume_showing m' (low' ++ mid') above' b' clauses' label' hb' v'
  · rw [herror, herror']
    exact refused (hm.showing _ _ _ _) (m.thread.extends_showing low mid [])
      (m'.thread.extends_showing low' mid' [])
  · rw [herror, hok']
    exact left
  · rw [hok, herror']
    exact right
  · rw [hok, hok', List.append_assoc, List.append_assoc]
    exact .given hm.relabeled (List.rel_append hmid (.cons (hfirst.relabel _ _) hrest)) (by simp) hv

/-- The values on top of two stacks are the same if the machines are. -/
theorem showing_ne {acts acts' : List Activation} {v v' : Value} (hne : v ≠ v') :
    m.showing acts [v] ≠ m'.showing acts' [v'] := by
  intro heq
  have hstack := congrArg (fun m : Machine => m.thread.stack.toList) heq
  simp only [Machine.showing_thread, Thread.showing_stack] at hstack
  obtain ⟨_, hlast⟩ := List.append_inj' hstack rfl
  exact hne (List.singleton_inj.1 hlast)

/-- What a function of the machine has asked for. -/
theorem grant {reply reply' : Reply} (hm : Machine.Beside (twinning κ ρ) s s' m m')
    (hmid : List.Forall₂ (Activation.Twins κ ρ.ids (Value.Twins κ ρ) [.value]) mid mid')
    (hbefore : mid <+: start) (hsolid : κ = .clause → mid = [] → start = [])
    (hreply : reply.Related (twinning κ ρ) reply') (hplain : κ ≠ .clause → reply.Plain)
    (htells : reply = .depth → tells) (hspawn : ∀ task, reply = .spawn task → ρ.whole = true)
    (line : Nat) :
    Concur κ ρ s s' low low' start tells () (Exec.grant line reply (m.showing (low ++ mid) []))
      (Exec.grant line reply' (m'.showing (low' ++ mid') [])) := by
  cases hreply with
  | value hv => exact push hm hmid hsolid hv
  | spawn hcallee => exact .spawned hm hmid hbefore hsolid (hspawn _ rfl) hcallee
  | @call mode callee callee' args args' hcallee hargs =>
    have hκ : κ = .clause := by
      by_contra hκ
      exact hplain hκ
    have hrun : ∀ (m : Machine) (acts : List Activation) (callee : Value) (args : List Value),
        Exec.grant line (.call mode callee args) (m.showing acts []) =
          .ok () ((m.showing acts []).calling callee args line (mode.purpose acts.length)) := by
      intro m acts callee args
      cases mode with
      | pass => rfl
      | «catch» =>
        have hsize : (m.showing acts []).thread.frames.size = acts.length := by simp
        rw [CallMode.purpose, ← hsize]
        rfl
    rw [hrun, hrun]
    exact .called mode hm hmid hbefore hsolid hκ hcallee hargs
  | depth =>
    have hrun : ∀ (m : Machine) (acts : List Activation), Exec.grant line .depth (m.showing acts []) =
        .ok () (m.showing acts [.int (Int64.ofNat acts.length)]) := by
      intro m acts
      have hsize : (m.showing acts []).thread.frames.size = acts.length := by simp
      rw [← hsize]
      exact Exec.push_showing m acts [] _
    rw [hrun, hrun]
    by_cases hsame : Int64.ofNat (low ++ mid).length = Int64.ofNat (low' ++ mid').length
    · rw [hsame]
      exact .given hm hmid hsolid ((twinning κ ρ).flat rfl)
    · refine .parted ?_ (Or.inr (Or.inr (htells rfl)))
      intro _ heq
      exact showing_ne (fun h => hsame (Value.int.inj h)) (EStateM.Result.ok.inj heq).2

/-- What is known of what a call comes to: only functions of an embedding, which there are none unless
clauses are functions of two parameters, ask for calls or about the thread, and functions that depend
on what need not correspond have been told. -/
structure Permitted (κ : Kind) (ρ : Pairing) (tells : Prop) (t : Transfer) : Prop where
  plain : κ ≠ .clause → ∀ reply, t = .requested reply → reply.Plain
  depth : t = .requested .depth → tells
  spawn : ∀ task, t = .requested (.spawn task) → ρ.whole = true

/-- What calls come to. -/
theorem transfer {t t' : Transfer} (hm : Machine.Beside (twinning κ ρ) s s' m m')
    (hmid : List.Forall₂ (Activation.Twins κ ρ.ids (Value.Twins κ ρ) [.value]) mid mid')
    (ht : t.Related (twinning κ ρ) t') (hbefore : mid <+: start)
    (hsolid : κ = .clause → mid = [] → start = [] ∨ ∃ c f env args, t = .enter c f env args)
    (hpermitted : Permitted κ ρ tells t) (line : Nat)
    {raise raise' : Effect → Value → Exec Unit}
    (hraise : ∀ effect effect' payload payload', t = .raise effect payload →
      effect.Matches ρ.ids effect' → Value.Twins κ ρ payload payload' →
      Concur κ ρ s s' low low' start tells () (raise effect payload (m.showing (low ++ mid) []))
        (raise' effect' payload' (m'.showing (low' ++ mid') []))) :
    Concur κ ρ s s' low low' start tells ()
      (Exec.transferWith raise line false t (m.showing (low ++ mid) []))
      (Exec.transferWith raise' line false t' (m'.showing (low' ++ mid') [])) := by
  cases ht with
  | returned hv =>
    refine push hm hmid (fun hκ hnil => (hsolid hκ hnil).resolve_right ?_) hv
    rintro ⟨_, _, _, _, h⟩
    cases h
  | requested hreply =>
    refine grant hm hmid hbefore (fun hκ hnil => (hsolid hκ hnil).resolve_right ?_) hreply
      (fun hκ => hpermitted.plain hκ _ rfl) (fun h => hpermitted.depth (congrArg _ h))
      (fun task h => hpermitted.spawn task (congrArg _ h)) line
    rintro ⟨_, _, _, _, h⟩
    cases h
  | enter hclosure hargs =>
    obtain ⟨_, _, heq, _⟩ := Value.Twins.closure_inv hclosure
    cases heq
    exact pushFrame hm hmid hclosure hargs
  | raise heffect hpayload => exact hraise _ _ _ _ rfl heffect hpayload
  | resume hk hv =>
    simp only [Exec.transferWith]
    rw [bind_of_ok (Exec.dropFinished_false _), bind_of_ok (Exec.dropFinished_false _)]
    exact resume hm hmid hk hv

/-- Calls, given what is done with what they come to. -/
theorem applied {callee callee' : Value} (hm : Machine.Beside (twinning κ ρ) s s' m m')
    (hcallee : callee.Twins κ ρ callee') (hargs : List.Forall₂ (Value.Twins κ ρ) args args')
    (htells : callee.Invokes ρ.tells args → tells) {next next' : Transfer → Exec Unit}
    (hnext : ∀ (n n' : Machine) t t', Machine.Beside (twinning κ ρ) s s' n n' →
      t.Related (twinning κ ρ) t' →
      Exec.apply callee args (m.showing (low ++ mid) []) = .ok t (n.showing (low ++ mid) []) →
      Permitted κ ρ tells t →
      Concur κ ρ s s' low low' start tells () (next t (n.showing (low ++ mid) []))
        (next' t' (n'.showing (low' ++ mid') []))) :
    Concur κ ρ s s' low low' start tells ()
      ((Exec.apply callee args >>= next) (m.showing (low ++ mid) []))
      ((Exec.apply callee' args' >>= next') (m'.showing (low' ++ mid') [])) := by
  by_cases htimed : ρ.whole = true ∨ ¬ callee.Invokes Native.isTimed args
  swap
  · obtain ⟨hwhole, hinvokes⟩ := not_or.1 htimed
    refine .parted (fun h => absurd h hwhole) (Or.inr (Or.inr (htells ?_)))
    exact (not_not.1 hinvokes).mono fun f => Correspondence.tells_of_isTimed (Bool.eq_false_iff.2 hwhole)
  have hagree : Exec.Agree (twinning κ ρ) (m.showing (low ++ mid) [])
      (m'.showing (low' ++ mid') []) (Exec.apply callee args (m.showing (low ++ mid) []))
      (Exec.apply callee' args' (m'.showing (low' ++ mid') [])) :=
    Exec.apply_agree htimed hm.world hcallee hargs
  have hbare := (Likeness.unapply_related (L := twinning κ ρ) hcallee hargs).1
  generalize hr : Exec.apply callee args (m.showing (low ++ mid) []) = r at hagree
  generalize hr' : Exec.apply callee' args' (m'.showing (low' ++ mid') []) = r' at hagree
  cases hagree with
  | ok ht hw =>
    rw [bind_of_ok hr, bind_of_ok hr']
    refine hnext _ _ _ _ (hm.withWorld hw) ht hr ⟨?_, ?_, ?_⟩
    · rintro hκ reply rfl
      refine plain_of_apply (fun id name arity function hnative => ?_) hr
      rw [hnative] at hbare
      exact hbare.unfold.inner hκ
    · rintro rfl
      exact htells (invokes_of_depth hr)
    · rintro task rfl
      exact htimed.resolve_right fun hnot => hnot (invokes_of_spawn hr)
  | error hw =>
    rw [bind_of_error hr, bind_of_error hr']
    exact failure (hm.withWorld hw) mid mid' _

/-- If clauses are functions of two parameters, a clause is entered. -/
theorem enter_of_apply {clause payload k : Value} {t : Transfer} (hκ : κ = .clause)
    (hfits : κ.Fits clause) (happly : Exec.apply clause (clauseArgs clause payload k) m = .ok t m') :
    ∃ c f env args, t = .enter c f env args := by
  subst hκ
  obtain ⟨id, code, env, rfl, harity⟩ := hfits
  have hargs : clauseArgs (.closure id code env) payload k = [payload, k] := by
    simp [clauseArgs, Value.arity?, harity]
  rw [hargs, apply_clause m harity] at happly
  cases happly
  exact ⟨_, _, _, _, rfl⟩

/-- Effects are raised. -/
theorem raiseWithin {payload payload' : Value} {effect effect' : Effect}
    (hm : Machine.Beside (twinning κ ρ) s s' m m')
    (hlow : Unseen s.thread.levels low) (hlow' : Unseen s'.thread.levels low')
    (hmid : List.Forall₂ (Activation.Twins κ ρ.ids (Value.Twins κ ρ) [.value]) mid mid')
    (hbefore : mid <+: start) (heffect : effect.Matches ρ.ids effect')
    (hpayload : payload.Twins κ ρ payload') (line bound : Nat)
    (htells : RaiseInvokes ρ.tells effect payload (m.showing (low ++ mid) []) → tells) :
    Concur κ ρ s s' low low' start tells ()
      (Exec.raiseWithin line bound effect payload (m.showing (low ++ mid) []))
      (Exec.raiseWithin line bound effect' payload' (m'.showing (low' ++ mid') [])) := by
  have hunhandled : ∀ {m m' : Machine} {mid mid' : List Activation} {effect effect' : Effect},
      Machine.Beside (twinning κ ρ) s s' m m' → effect.Matches ρ.ids effect' →
      Concur κ ρ s s' low low' start tells ()
        (.error (.error (.unhandledEffect effect.name)) (m.showing (low ++ mid) []))
        (.error (.error (.unhandledEffect effect'.name)) (m'.showing (low' ++ mid') [])) := by
    intro m m' mid mid' effect effect' hm heffect
    rw [heffect.name]
    exact failure hm mid mid' _
  induction bound generalizing m m' mid mid' effect effect' payload payload' with
  | zero => exact hunhandled hm heffect
  | succ bound ih =>
    have hfound := findHandler_twins hlow hlow' hmid heffect
    rw [← hm.levels, ← hm.levels'] at hfound
    rw [raiseWithin_succ, raiseWithin_succ]
    simp only [RaiseInvokes, Machine.showing_thread, Thread.showing_handlers, Thread.showing_levels,
      List.size_toArray] at htells ⊢
    generalize findHandler _ (baseOf m.thread.levels) effect _ = found at hfound htells
    generalize findHandler _ (baseOf m'.thread.levels) effect' _ = found' at hfound
    cases hfound with
    | none => exact hunhandled hm heffect
    | @some found found' hfound =>
      obtain ⟨index, h, clause⟩ := found
      obtain ⟨index', h', clause'⟩ := found'
      obtain ⟨⟨pre, pre', b, b', above, above', clauses, clauses', label, label', rfl, rfl, hpre, hb,
        habove, hhandler, hhandler', hindex, hh, hindex', hh'⟩, hclause, hfits⟩ := hfound
      have hcapture := capture_showing m (low ++ pre) above b clauses label hhandler
      have hcapture' := capture_showing m' (low' ++ pre') above' b' clauses' label' hhandler'
      simp only at hindex hh hindex' hh' hclause hfits
      rw [← hindex, ← hh, List.append_assoc] at hcapture
      rw [← hindex', ← hh', List.append_assoc] at hcapture'
      obtain ⟨hid, hdrawn⟩ := hm.world.draw
      have hk : (Value.continuation m.world.draw.1 (.ofActs (b :: above))).Twins κ ρ
          (.continuation m'.world.draw.1 (.ofActs (b' :: above'))) :=
        Value.twins_continuation hid (by rw [hhandler]; rfl) (.cons hb habove)
      have hargs := clauseArgs_related (L := twinning κ ρ) hclause hpayload hk
      simp only []
      rw [bind_of_ok hcapture, bind_of_ok hcapture', bind_of_ok (draw_run _),
        bind_of_ok (draw_run _)]
      have hpart : pre <+: start := (List.prefix_append pre (b :: above)).trans hbefore
      refine applied (hm.withWorld hdrawn) hclause hargs
        (fun hinvokes => htells ⟨index, h, clause, _, _, rfl, hcapture, .here hinvokes⟩)
        fun n n' t t' hn ht happly hpermitted =>
          transfer hn hpre ht hpart (fun hκ _ => Or.inr (enter_of_apply hκ hfits happly)) hpermitted line ?_
      rintro effect effect' payload payload' rfl heffect hpayload
      refine ih hn hpre hpart heffect hpayload ?_
      rintro ⟨index₁, h₁, clause₁, k₁, s₁, hfind, hcapture₁, hinvokes⟩
      exact htells ⟨index, h, clause, _, _, rfl, hcapture, .clause happly hfind hcapture₁ hinvokes⟩

theorem raise {payload payload' : Value} {effect effect' : Effect}
    (hm : Machine.Beside (twinning κ ρ) s s' m m')
    (hlow : Unseen s.thread.levels low) (hlow' : Unseen s'.thread.levels low')
    (hmid : List.Forall₂ (Activation.Twins κ ρ.ids (Value.Twins κ ρ) [.value]) mid mid')
    (hbefore : mid <+: start) (heffect : effect.Matches ρ.ids effect')
    (hpayload : payload.Twins κ ρ payload') (line : Nat)
    (htells : RaiseInvokes ρ.tells effect payload (m.showing (low ++ mid) []) → tells) :
    Concur κ ρ s s' low low' start tells ()
      (Exec.raise line effect payload (m.showing (low ++ mid) []))
      (Exec.raise line effect' payload' (m'.showing (low' ++ mid') [])) := by
  rw [Exec.raise, Exec.raise, bind_get_run, bind_get_run]
  -- The number of handlers is only a bound, so both searches may take the larger of the two.
  rw [raiseWithin_congr (Nat.le_refl _) (Nat.le_max_left _
      (m'.showing (low' ++ mid') []).thread.handlers.size),
    raiseWithin_congr (m := m'.showing (low' ++ mid') []) (Nat.le_refl _) (Nat.le_max_right _ _)]
  exact raiseWithin hm hlow hlow' hmid hbefore heffect hpayload line _ htells

theorem invokes_of_raise {p : Native → Bool} {callee payload : Value} {effect : Effect} {n : Machine}
    (happly : apply callee args m = .ok (.raise effect payload) n)
    (hraise : RaiseInvokes p effect payload n) : Invokes p callee args m := by
  obtain ⟨index, h, clause, k, s₁, hfind, hcapture, hinvokes⟩ := hraise
  exact .clause happly hfind hcapture hinvokes

/-- Values are called. -/
theorem call {callee callee' : Value} (hm : Machine.Beside (twinning κ ρ) s s' m m')
    (hlow : Unseen s.thread.levels low) (hlow' : Unseen s'.thread.levels low')
    (hmid : List.Forall₂ (Activation.Twins κ ρ.ids (Value.Twins κ ρ) [.value]) mid mid')
    (hcallee : callee.Twins κ ρ callee')
    (hargs : List.Forall₂ (Value.Twins κ ρ) args args') (line : Nat)
    (htells : Invokes ρ.tells callee args (m.showing (low ++ mid) []) → tells) :
    Concur κ ρ s s' low low' mid tells ()
      (Exec.call callee args line false (m.showing (low ++ mid) []))
      (Exec.call callee' args' line false (m'.showing (low' ++ mid') [])) := by
  refine applied hm hcallee hargs (fun h => htells (.here h)) fun n n' t t' hn ht happly hpermitted =>
    transfer hn hmid ht (List.prefix_refl mid) (fun _ hnil => Or.inl hnil) hpermitted line ?_
  rintro effect effect' payload payload' rfl heffect hpayload
  exact raise hn hlow hlow' hmid (List.prefix_refl mid) heffect hpayload line fun h =>
    htells (invokes_of_raise happly h)

/-- What calls in tail position come to. A function takes the place of the activation that calls it;
before a resumption both finished activations go, or none does. -/
theorem transferTail {pre pre' : List Activation} {a a' : Activation} {t t' : Transfer}
    (hm : Machine.Beside (twinning κ ρ) s s' m m')
    (hpre : List.Forall₂ (Activation.Twins κ ρ.ids (Value.Twins κ ρ) [.value]) pre pre')
    (ha : a.Twins κ ρ.ids (Value.Twins κ ρ) [.value] a') (ht : t.Related (twinning κ ρ) t')
    (hpermitted : Permitted κ ρ tells t)
    (hdrop : (∃ k v, t = .resume k v) → (baseOf s.thread.levels < (low ++ pre).length ↔
      baseOf s'.thread.levels < (low' ++ pre').length)) (line : Nat)
    {raise raise' : Effect → Value → Exec Unit}
    (hraise : ∀ effect effect' payload payload', t = .raise effect payload →
      effect.Matches ρ.ids effect' → Value.Twins κ ρ payload payload' →
      Concur κ ρ s s' low low' (pre ++ [a]) tells ()
        (raise effect payload (m.showing (low ++ (pre ++ [a])) []))
        (raise' effect' payload' (m'.showing (low' ++ (pre' ++ [a'])) []))) :
    Concur κ ρ s s' low low' (pre ++ [a]) tells ()
      (Exec.transferWith raise line true t (m.showing (low ++ (pre ++ [a])) []))
      (Exec.transferWith raise' line true t' (m'.showing (low' ++ (pre' ++ [a'])) [])) := by
  have hmid := List.rel_append hpre (List.Forall₂.cons ha .nil)
  cases ht with
  | returned hv => exact push hm hmid (fun _ h => h) hv
  | requested hreply =>
    exact grant hm hmid (List.prefix_refl _) (fun _ h => h) hreply
      (fun hκ => hpermitted.plain hκ _ rfl) (fun h => hpermitted.depth (congrArg _ h))
      (fun task h => hpermitted.spawn task (congrArg _ h)) line
  | raise heffect hpayload => exact hraise _ _ _ _ rfl heffect hpayload
  | enter hclosure hargs =>
    obtain ⟨_, _, heq, _⟩ := Value.Twins.closure_inv hclosure
    cases heq
    simp only [Exec.transferWith, if_true]
    rw [← List.append_assoc, ← List.append_assoc, replaceFrame_showing, replaceFrame_showing,
      List.append_assoc, List.append_assoc]
    exact .entered hm hpre (Activation.twins_enter hclosure hargs ha.handler)
  | @resume _ _ k k' v v' hk hv =>
    have hnone : a'.handler = none ↔ a.handler = none := by
      have hsame := ha.isSome_handler
      rw [← Option.isNone_iff_eq_none, ← Option.isNone_iff_eq_none, ← Option.not_isSome,
        ← Option.not_isSome, hsame]
    have hdropped := dropFinished_showing m (low ++ pre) a [] true
    have hdropped' := dropFinished_showing m' (low' ++ pre') a' [] true
    have hboth : true = true ∧ a'.handler = none ∧ baseOf m'.thread.levels < (low' ++ pre').length ↔
        true = true ∧ a.handler = none ∧ baseOf m.thread.levels < (low ++ pre).length := by
      rw [hnone, hm.levels', ← hdrop ⟨k, v, rfl⟩, ← hm.levels]
    simp only [Exec.transferWith]
    rw [← List.append_assoc, ← List.append_assoc]
    by_cases hgoes : true = true ∧ a.handler = none ∧ baseOf m.thread.levels < (low ++ pre).length
    · rw [if_pos hgoes] at hdropped
      rw [if_pos (hboth.2 hgoes)] at hdropped'
      rw [bind_of_ok hdropped, bind_of_ok hdropped']
      exact resume hm hpre hk hv
    · rw [if_neg hgoes] at hdropped
      rw [if_neg fun h => hgoes (hboth.1 h)] at hdropped'
      rw [bind_of_ok hdropped, bind_of_ok hdropped', List.append_assoc, List.append_assoc]
      exact resume hm hmid hk hv

/-- Values are called in tail position. -/
theorem callTail {pre pre' : List Activation} {a a' : Activation} {callee callee' : Value}
    (hm : Machine.Beside (twinning κ ρ) s s' m m') (hlow : Unseen s.thread.levels low)
    (hlow' : Unseen s'.thread.levels low')
    (hpre : List.Forall₂ (Activation.Twins κ ρ.ids (Value.Twins κ ρ) [.value]) pre pre')
    (ha : a.Twins κ ρ.ids (Value.Twins κ ρ) [.value] a') (hcallee : callee.Twins κ ρ callee')
    (hargs : List.Forall₂ (Value.Twins κ ρ) args args')
    (hdrop : Resumes callee args (m.showing (low ++ (pre ++ [a])) []) →
      (baseOf s.thread.levels < (low ++ pre).length ↔
        baseOf s'.thread.levels < (low' ++ pre').length)) (line : Nat)
    (htells : Invokes ρ.tells callee args (m.showing (low ++ (pre ++ [a])) []) → tells) :
    Concur κ ρ s s' low low' (pre ++ [a]) tells ()
      (Exec.call callee args line true (m.showing (low ++ (pre ++ [a])) []))
      (Exec.call callee' args' line true (m'.showing (low' ++ (pre' ++ [a'])) [])) := by
  refine applied hm hcallee hargs (fun h => htells (.here h)) fun n n' t t' hn ht happly hpermitted =>
    transferTail hn hpre ha ht hpermitted ?_ line ?_
  · rintro ⟨k, v, rfl⟩
    exact hdrop ⟨k, v, _, happly⟩
  · rintro effect effect' payload payload' rfl heffect hpayload
    exact raise hn hlow hlow' (List.rel_append hpre (.cons ha .nil)) (List.prefix_refl _) heffect hpayload
      line fun h => htells (invokes_of_raise happly h)

end Concur

end Exec

end Resumable
