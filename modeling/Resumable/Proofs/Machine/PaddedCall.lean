import Resumable.Proofs.Machine.Padding
import Resumable.Proofs.Machine.Suspension
import Resumable.Proofs.Machine.TwinCall

/-!
Calls in two threads of which one keeps a handler in force that the other lacks. As long as the effects
that are raised do not ask for that handler, both calls do the same.
-/

namespace Resumable

/-- No effect that the next move raises while the handler `bound` is in force asks for it. -/
def Machine.Spares (bound : Bound) (m : Machine) : Prop :=
  ∀ s effect payload, m.Raises s effect payload →
    (∃ h ∈ s.thread.handlers, (h.clauses, h.label) = bound) → Clauses.find? bound.1 effect = none

variable {bound : Bound} {acts acts' pre pre' : List Activation}

/-- The handler of an activation is among those of its thread. -/
theorem exists_mem_handlersFrom {y : Activation} (hy : y ∈ acts) (hbound : y.handler = some bound)
    (depth height : Nat) :
    ∃ h ∈ handlersFrom depth height acts, (h.clauses, h.label) = bound := by
  induction acts generalizing depth height with
  | nil => cases hy
  | cons a acts ih =>
    rw [handlersFrom_cons]
    obtain rfl | hy := List.mem_cons.1 hy
    · rw [Activation.installed_eq hbound]
      exact ⟨_, .head _, rfl⟩
    · obtain ⟨h, hh, hsame⟩ := ih hy (depth + 1) (height + a.segment.length)
      exact ⟨h, List.mem_append_right _ hh, hsame⟩

/-- A handler that is found in two threads: corresponding activations bound it, and its clauses are the
same up to the handler `bound`. -/
structure FoundPadded (bound : Bound) (acts acts' : List Activation)
    (found found' : Nat × Installed Value × Value) : Prop where
  split : ∃ pre pre' b b' above above' clauses clauses' label label',
    acts = pre ++ b :: above ∧ acts' = pre' ++ b' :: above' ∧
    Padded bound (Value.Pads bound) pre pre' ∧ b.Twins .value Eq (Value.Pads bound) [.value] b' ∧
    Padded bound (Value.Pads bound) above above' ∧
    b.handler = some (clauses, label) ∧ b'.handler = some (clauses', label') ∧
    found.1 = (handlersFrom 0 0 pre).length ∧ found.2.1 = ⟨clauses, pre.length, heightOf pre, label⟩ ∧
    found'.1 = (handlersFrom 0 0 pre').length ∧
    found'.2.1 = ⟨clauses', pre'.length, heightOf pre', label'⟩
  clause : found.2.2.Pads bound found'.2.2

/-- An effect for which `bound` has no clause finds the same handler in both threads. -/
theorem findHandler_padded {effect : Effect} (hacts : Padded bound (Value.Pads bound) acts acts')
    (hspared : (∃ y ∈ acts, y.handler = some bound) → Clauses.find? bound.1 effect = none) :
    Option.Rel (FoundPadded bound acts acts')
      (findHandler (handlersFrom 0 0 acts).toArray 0 effect (handlersFrom 0 0 acts).length)
      (findHandler (handlersFrom 0 0 acts').toArray 0 effect (handlersFrom 0 0 acts').length) := by
  induction hacts with
  | nil => exact .none
  | @linger acts acts' y _ hy ih =>
    have hnone : Clauses.find? bound.1 effect = none := hspared ⟨y, by simp, hy.2⟩
    rw [findHandler_concat acts y (Nat.zero_le _), hy.2]
    simp only [Option.bind_some, hnone, Option.map_none]
    have hfound := ih fun ⟨z, hz, hbound⟩ => hspared ⟨z, by simp [hz], hbound⟩
    generalize findHandler _ 0 effect (handlersFrom 0 0 acts).length = found at hfound
    generalize findHandler _ 0 effect (handlersFrom 0 0 acts').length = found' at hfound
    cases hfound with
    | none => exact .none
    | some hfound =>
      obtain ⟨⟨pre, pre', b, b', above, above', clauses, clauses', label, label', rfl, rfl, hpre, hb,
        habove, hplaces⟩, hclause⟩ := hfound
      exact .some ⟨⟨pre, pre', b, b', above ++ [y], above', clauses, clauses', label, label', by simp,
        rfl, hpre, hb, habove.linger hy, hplaces⟩, hclause⟩
  | @concat acts acts' a a' hacts ha ih =>
    have hbelow : Option.Rel (FoundPadded bound (acts ++ [a]) (acts' ++ [a']))
        (findHandler (handlersFrom 0 0 acts).toArray 0 effect (handlersFrom 0 0 acts).length)
        (findHandler (handlersFrom 0 0 acts').toArray 0 effect (handlersFrom 0 0 acts').length) := by
      have hfound := ih fun ⟨z, hz, hbound⟩ => hspared ⟨z, by simp [hz], hbound⟩
      generalize findHandler _ 0 effect (handlersFrom 0 0 acts).length = found at hfound
      generalize findHandler _ 0 effect (handlersFrom 0 0 acts').length = found' at hfound
      cases hfound with
      | none => exact .none
      | some hfound =>
        obtain ⟨⟨pre, pre', b, b', above, above', clauses, clauses', label, label', rfl, rfl, hpre, hb,
          habove, hplaces⟩, hclause⟩ := hfound
        exact .some ⟨⟨pre, pre', b, b', above ++ [a], above' ++ [a'], clauses, clauses', label, label',
          by simp, by simp, hpre, hb, habove.concat ha, hplaces⟩, hclause⟩
    rw [findHandler_concat acts a (Nat.zero_le _), findHandler_concat acts' a' (Nat.zero_le _)]
    obtain hhandler | ⟨hbound, hnone'⟩ := ha.handler
    · have htwins := ha.bare.guarded hhandler
      cases hbound : a.handler with
      | none =>
        rw [hbound] at hhandler
        generalize a'.handler = bound' at hhandler
        cases hhandler
        exact hbelow
      | some b =>
        rw [hbound] at hhandler
        generalize hbound' : a'.handler = bound' at hhandler
        cases hhandler with
        | @some _ b' hclauses =>
        obtain ⟨clauses, label⟩ := b
        obtain ⟨clauses', label'⟩ := b'
        have hfind := ClausesRelated.find? (ρ := .exact) hclauses (⟨rfl, rfl⟩ : effect.Matches Eq effect)
        simp only [Option.bind_some]
        generalize Clauses.find? clauses effect = clause at hfind
        generalize Clauses.find? clauses' effect = clause' at hfind
        cases hfind with
        | none => exact hbelow
        | some hclause =>
          exact .some ⟨⟨acts, acts', a, a', [], [], clauses, clauses', label, label', rfl, rfl, hacts,
            htwins, .nil, hbound, hbound', rfl, rfl, rfl, rfl⟩, hclause.1⟩
    · have hnone : Clauses.find? bound.1 effect = none := hspared ⟨a, by simp, hbound⟩
      rw [hbound, hnone']
      simp only [Option.bind_some, hnone, Option.map_none, Option.bind_none]
      exact hbelow

namespace Exec

variable {s s' m m' x : Machine} {args args' : List Value}

/-- What two actions with the value `x` come to in threads of which one keeps the handler `bound` in
force: corresponding activations have been given a value or have been entered, or both actions have
asked for the same task, or they have failed alike. One of them may also have found no room. -/
inductive KeepUp {α : Type} (bound : Bound) (s s' : Machine) (x : α) :
    EStateM.Result Stop Machine α → EStateM.Result Stop Machine α → Prop
  | given {m m' : Machine} {acts acts' : List Activation} {v v' : Value}
    (hm : Machine.Beside (padding bound) s s' m m')
    (hacts : Padded bound (Value.Pads bound) acts acts') (hv : v.Pads bound v') :
    KeepUp bound s s' x (.ok x (m.showing acts [v])) (.ok x (m'.showing acts' [v']))
  | entered {m m' : Machine} {pre pre' : List Activation} {a a' : Activation}
    (hm : Machine.Beside (padding bound) s s' m m')
    (hpre : Padded bound (Value.Pads bound) pre pre') (ha : a.Pads bound (Value.Pads bound) [] a') :
    KeepUp bound s s' x (.ok x (m.showing (pre ++ [a]) [])) (.ok x (m'.showing (pre' ++ [a']) []))
  | spawned {m m' : Machine} {acts acts' : List Activation} {callee callee' : Value}
    (hm : Machine.Beside (padding bound) s s' m m')
    (hacts : Padded bound (Value.Pads bound) acts acts') (hcallee : callee.Pads bound callee') :
    KeepUp bound s s' x (.ok x ((m.showing acts []).spawning callee))
      (.ok x ((m'.showing acts' []).spawning callee'))
  | failed {m m' : Machine} {e : RuntimeError} (hm : Machine.Beside (padding bound) s s' m m') :
    KeepUp bound s s' x (.error (.error e) m) (.error (.error e) m')
  | refused {r r' : EStateM.Result Stop Machine α} (hcause : Overflows r ∨ Overflows r') :
    KeepUp bound s s' x r r'

namespace KeepUp

/-- Actions whose value does not matter. -/
theorem andThen {β : Type} {act act' : Exec Unit} (b : β)
    (h : KeepUp bound s s' () (act m) (act' m')) :
    KeepUp bound s s' b ((do act; return b : Exec β) m) ((do act'; return b : Exec β) m') := by
  rw [andThen_run, andThen_run]
  generalize act m = r at h
  generalize act' m' = r' at h
  cases h with
  | given hm hacts hv => exact .given hm hacts hv
  | entered hm hpre ha => exact .entered hm hpre ha
  | spawned hm hacts hcallee => exact .spawned hm hacts hcallee
  | failed hm => exact .failed hm
  | refused hcause =>
    refine .refused (hcause.imp ?_ ?_)
    · rintro ⟨detail, n, rfl⟩
      exact ⟨detail, n, rfl⟩
    · rintro ⟨detail, n, rfl⟩
      exact ⟨detail, n, rfl⟩

/-- The first of two actions has found no room. -/
theorem left {α : Type} {y : α} {detail : String} {n : Machine} {r : EStateM.Result Stop Machine α} :
    KeepUp bound s s' y (.error (.error (.stackOverflow detail)) n) r :=
  .refused (Or.inl ⟨detail, n, rfl⟩)

theorem right {α : Type} {y : α} {detail : String} {n : Machine} {r : EStateM.Result Stop Machine α} :
    KeepUp bound s s' y r (.error (.error (.stackOverflow detail)) n) :=
  .refused (Or.inr ⟨detail, n, rfl⟩)

/-- Values that are put on the stack. -/
theorem push {v v' : Value} (hm : Machine.Beside (padding bound) s s' m m')
    (hacts : Padded bound (Value.Pads bound) acts acts') (hv : v.Pads bound v') :
    KeepUp bound s s' () (Exec.push v (m.showing acts [])) (Exec.push v' (m'.showing acts' [])) := by
  rw [Exec.push_showing, Exec.push_showing]
  exact .given hm hacts hv

/-- A function that is called gets an activation on top. -/
theorem pushFrame {id : Nat} {f : Code Value} {env env' : List (Symbol × Value)}
    (hm : Machine.Beside (padding bound) s s' m m')
    (hacts : Padded bound (Value.Pads bound) acts acts')
    (hclosure : (Value.closure id f env).Pads bound (.closure id f env'))
    (hargs : List.Forall₂ (Value.Pads bound) args args') :
    KeepUp bound s s' ()
      (Exec.pushFrame (.closure id f env) f env args false (m.showing acts []))
      (Exec.pushFrame (.closure id f env') f env' args' false (m'.showing acts' [])) := by
  obtain ⟨_, detail, herror⟩ | ⟨_, hok⟩ :=
    Exec.pushFrame_showing m acts (.closure id f env) f env args
  · rw [herror]
    exact left
  obtain ⟨_, detail, herror'⟩ | ⟨_, hok'⟩ :=
    Exec.pushFrame_showing m' acts' (.closure id f env') f env' args'
  · rw [herror']
    exact right
  · rw [hok, hok']
    exact .entered hm hacts (Activation.enter_pads hclosure hargs (Or.inl .none))

/-- A suspended computation goes on. -/
theorem resume {id id' : Nat} {k k' : Continuation Value} {v v' : Value}
    (hm : Machine.Beside (padding bound) s s' m m')
    (hacts : Padded bound (Value.Pads bound) acts acts')
    (hk : (Value.continuation id k).Pads bound (.continuation id' k')) (hv : v.Pads bound v') :
    KeepUp bound s s' () (Exec.resume k v (m.showing acts []))
      (Exec.resume k' v' (m'.showing acts' [])) := by
  obtain ⟨b, above, b', above', rfl, rfl, hb, hfirst, hrest⟩ := hk.unfold.inner
  obtain ⟨⟨clauses', label'⟩, hb'⟩ := Option.isSome_iff_exists.1 (hfirst.isSome_handler.trans hb)
  obtain ⟨⟨clauses, label⟩, hb⟩ := Option.isSome_iff_exists.1 hb
  obtain ⟨_, detail, herror⟩ | ⟨_, hok⟩ := Exec.resume_showing m acts above b clauses label hb v
  · rw [herror]
    exact left
  obtain ⟨_, detail, herror'⟩ | ⟨_, hok'⟩ :=
    Exec.resume_showing m' acts' above' b' clauses' label' hb' v'
  · rw [herror']
    exact right
  · rw [hok, hok', List.append_cons acts, List.append_cons acts']
    exact .given hm.relabeled ((hacts.concat (hfirst.relabel _ _).pads).append hrest) hv

/-- What a function of the machine has asked for. -/
theorem grant {reply reply' : Reply} (hm : Machine.Beside (padding bound) s s' m m')
    (hacts : Padded bound (Value.Pads bound) acts acts')
    (hreply : reply.Related (padding bound) reply') (hplain : reply.Plain) (line : Nat) :
    KeepUp bound s s' () (Exec.grant line reply (m.showing acts []))
      (Exec.grant line reply' (m'.showing acts' [])) := by
  cases hreply with
  | value hv => exact push hm hacts hv
  | spawn hcallee => exact .spawned hm hacts hcallee
  | call => exact hplain.elim
  | depth => exact hplain.elim

/-- What calls come to. -/
theorem transfer {t t' : Transfer} (hm : Machine.Beside (padding bound) s s' m m')
    (hacts : Padded bound (Value.Pads bound) acts acts') (ht : t.Related (padding bound) t')
    (hplain : ∀ reply, t = .requested reply → reply.Plain) (line : Nat)
    {raise raise' : Effect → Value → Exec Unit}
    (hraise : ∀ effect payload payload', t = .raise effect payload → payload.Pads bound payload' →
      KeepUp bound s s' () (raise effect payload (m.showing acts []))
        (raise' effect payload' (m'.showing acts' []))) :
    KeepUp bound s s' () (Exec.transferWith raise line false t (m.showing acts []))
      (Exec.transferWith raise' line false t' (m'.showing acts' [])) := by
  cases ht with
  | returned hv => exact push hm hacts hv
  | requested hreply => exact grant hm hacts hreply (hplain _ rfl) line
  | enter hclosure hargs =>
    obtain ⟨_, heq, _⟩ := Value.Pads.closure_inv hclosure
    cases heq
    exact pushFrame hm hacts hclosure hargs
  | raise heffect hpayload =>
    obtain rfl := heffect.eq
    exact hraise _ _ _ rfl hpayload
  | resume hk hv =>
    simp only [Exec.transferWith]
    rw [bind_of_ok (Exec.dropFinished_false _), bind_of_ok (Exec.dropFinished_false _)]
    exact resume hm hacts hk hv

/-- Calls, given what is done with what they come to. -/
theorem applied {callee callee' : Value} (hm : Machine.Beside (padding bound) s s' m m')
    (hcallee : callee.Pads bound callee') (hargs : List.Forall₂ (Value.Pads bound) args args')
    {next next' : Transfer → Exec Unit}
    (hnext : ∀ (n n' : Machine) t t', Machine.Beside (padding bound) s s' n n' →
      t.Related (padding bound) t' →
      Exec.apply callee args (m.showing acts []) = .ok t (n.showing acts []) →
      (∀ reply, t = .requested reply → reply.Plain) →
      KeepUp bound s s' () (next t (n.showing acts [])) (next' t' (n'.showing acts' []))) :
    KeepUp bound s s' () ((Exec.apply callee args >>= next) (m.showing acts []))
      ((Exec.apply callee' args' >>= next') (m'.showing acts' [])) := by
  have hagree : Exec.Agree (padding bound) (m.showing acts []) (m'.showing acts' [])
      (Exec.apply callee args (m.showing acts [])) (Exec.apply callee' args' (m'.showing acts' [])) :=
    Exec.apply_agree (Or.inl rfl) hm.world hcallee hargs
  have hbare := (Likeness.unapply_related (L := padding bound) hcallee hargs).1
  generalize hr : Exec.apply callee args (m.showing acts []) = r at hagree
  generalize hr' : Exec.apply callee' args' (m'.showing acts' []) = r' at hagree
  cases hagree with
  | ok ht hw =>
    rw [bind_of_ok hr, bind_of_ok hr']
    refine hnext _ _ _ _ (hm.withWorld hw) ht hr ?_
    rintro reply rfl
    refine plain_of_apply (fun id name arity function hnative => ?_) hr
    rw [hnative] at hbare
    exact hbare.unfold.inner
  | error hw =>
    rw [bind_of_error hr, bind_of_error hr']
    exact .failed ((hm.withWorld hw).showing _ _ _ _)

/-- Effects are raised. -/
theorem raiseWithin {payload payload' : Value} {effect : Effect}
    (hm : Machine.Beside (padding bound) s s' m m') (hbase : baseOf s.thread.levels = 0)
    (hbase' : baseOf s'.thread.levels = 0) (hacts : Padded bound (Value.Pads bound) acts acts')
    (hpayload : payload.Pads bound payload') (hspared : x.Spares bound)
    (hraises : x.Raises (m.showing acts []) effect payload) (line n : Nat) :
    KeepUp bound s s' () (Exec.raiseWithin line n effect payload (m.showing acts []))
      (Exec.raiseWithin line n effect payload' (m'.showing acts' [])) := by
  induction n generalizing m m' acts acts' effect payload payload' with
  | zero => exact .failed (hm.showing _ _ _ _)
  | succ n ih =>
    have hclauses : (∃ y ∈ acts, y.handler = some bound) → Clauses.find? bound.1 effect = none := by
      rintro ⟨y, hy, hbound⟩
      obtain ⟨h, hh, hsame⟩ := exists_mem_handlersFrom hy hbound 0 0
      exact hspared _ _ _ hraises ⟨h, by simpa using hh, hsame⟩
    have hfound := findHandler_padded hacts hclauses
    rw [raiseWithin_succ, raiseWithin_succ]
    simp only [Machine.showing_thread, Thread.showing_handlers, Thread.showing_levels,
      List.size_toArray, hm.levels, hm.levels', hbase, hbase']
    generalize hfind : findHandler _ 0 effect (handlersFrom 0 0 acts).length = found at hfound
    generalize findHandler _ 0 effect (handlersFrom 0 0 acts').length = found' at hfound
    cases hfound with
    | none => exact .failed (hm.showing _ _ _ _)
    | @some found found' hfound =>
      obtain ⟨index, h, clause⟩ := found
      obtain ⟨index', h', clause'⟩ := found'
      have hanswers : (m.showing acts []).thread.Answers effect index h clause := by
        refine answers_of_findHandler ?_
        simpa only [Machine.showing_thread, Thread.showing_handlers, Thread.showing_levels,
          List.size_toArray, hm.levels, hbase] using hfind
      obtain ⟨⟨pre, pre', b, b', above, above', clauses, clauses', label, label', rfl, rfl, hpre, hb,
        habove, hhandler, hhandler', hindex, hh, hindex', hh'⟩, hclause⟩ := hfound
      have hcapture := capture_showing m pre above b clauses label hhandler
      have hcapture' := capture_showing m' pre' above' b' clauses' label' hhandler'
      simp only at hindex hh hindex' hh' hclause
      rw [← hindex, ← hh] at hcapture
      rw [← hindex', ← hh'] at hcapture'
      obtain ⟨hid, hdrawn⟩ := hm.world.draw_eq rfl
      have hk : (Value.continuation m.world.draw.1 (.ofActs (b :: above))).Pads bound
          (.continuation m'.world.draw.1 (.ofActs (b' :: above'))) := by
        rw [hid]
        exact .fold ⟨.continuation rfl, b, above, b', above', rfl, rfl, by rw [hhandler]; rfl, hb, habove⟩
      have hargs := clauseArgs_related (L := padding bound) hclause hpayload hk
      simp only []
      rw [bind_of_ok hcapture, bind_of_ok hcapture', bind_of_ok (draw_run _),
        bind_of_ok (draw_run _)]
      refine applied (hm.withWorld hdrawn) hclause hargs fun n₁ n₁' t t' hn ht happly hplain =>
        transfer hn hpre ht hplain line ?_
      rintro effect payload payload' rfl hpayload
      exact ih hn hpre hpayload (.clause hraises hanswers hcapture happly)

theorem raise {payload payload' : Value} {effect : Effect}
    (hm : Machine.Beside (padding bound) s s' m m') (hbase : baseOf s.thread.levels = 0)
    (hbase' : baseOf s'.thread.levels = 0) (hacts : Padded bound (Value.Pads bound) acts acts')
    (hpayload : payload.Pads bound payload') (hspared : x.Spares bound)
    (hraises : x.Raises (m.showing acts []) effect payload) (line : Nat) :
    KeepUp bound s s' () (Exec.raise line effect payload (m.showing acts []))
      (Exec.raise line effect payload' (m'.showing acts' [])) := by
  rw [Exec.raise, Exec.raise, bind_get_run, bind_get_run]
  -- The number of handlers is only a bound, so both searches may take the larger of the two.
  rw [raiseWithin_congr (Nat.le_refl _) (Nat.le_max_left _
      (m'.showing acts' []).thread.handlers.size),
    raiseWithin_congr (m := m'.showing acts' []) (Nat.le_refl _) (Nat.le_max_right _ _)]
  exact raiseWithin hm hbase hbase' hacts hpayload hspared hraises line _

/-- Values are called, by a machine `x` whose next move raises what the call raises. -/
theorem call {callee callee' : Value} (hm : Machine.Beside (padding bound) s s' m m')
    (hbase : baseOf s.thread.levels = 0) (hbase' : baseOf s'.thread.levels = 0)
    (hacts : Padded bound (Value.Pads bound) acts acts') (hcallee : callee.Pads bound callee')
    (hargs : List.Forall₂ (Value.Pads bound) args args') (hspared : x.Spares bound)
    (hraises : ∀ effect payload n, apply callee args (m.showing acts []) = .ok (.raise effect payload) n →
      x.Raises n effect payload) (line : Nat) :
    KeepUp bound s s' () (Exec.call callee args line false (m.showing acts []))
      (Exec.call callee' args' line false (m'.showing acts' [])) := by
  refine applied hm hcallee hargs fun n n' t t' hn ht happly hplain =>
    transfer hn hacts ht hplain line ?_
  rintro effect payload payload' rfl hpayload
  exact raise hn hbase hbase' hacts hpayload hspared (hraises _ _ _ happly) line

/-- What calls in tail position come to. Before a resumption a finished activation goes. If it bounds
the handler that only the first thread has, it stays there, idle. -/
theorem transferTail {a a' : Activation} {t t' : Transfer}
    (hm : Machine.Beside (padding bound) s s' m m') (hbase : baseOf s.thread.levels = 0)
    (hbase' : baseOf s'.thread.levels = 0) (hpre : Padded bound (Value.Pads bound) pre pre')
    (ha : a.Pads bound (Value.Pads bound) [.value] a') (hidle : a.Idle)
    (hground : Grounded .value (pre ++ [a])) (ht : t.Related (padding bound) t')
    (hplain : ∀ reply, t = .requested reply → reply.Plain) (line : Nat)
    {raise raise' : Effect → Value → Exec Unit}
    (hraise : ∀ effect payload payload', t = .raise effect payload → payload.Pads bound payload' →
      KeepUp bound s s' () (raise effect payload (m.showing (pre ++ [a]) []))
        (raise' effect payload' (m'.showing (pre' ++ [a']) []))) :
    KeepUp bound s s' () (Exec.transferWith raise line true t (m.showing (pre ++ [a]) []))
      (Exec.transferWith raise' line true t' (m'.showing (pre' ++ [a']) [])) := by
  cases ht with
  | returned hv => exact push hm (hpre.concat ha) hv
  | requested hreply => exact grant hm (hpre.concat ha) hreply (hplain _ rfl) line
  | raise heffect hpayload =>
    obtain rfl := heffect.eq
    exact hraise _ _ _ rfl hpayload
  | enter hclosure hargs =>
    obtain ⟨_, heq, _⟩ := Value.Pads.closure_inv hclosure
    cases heq
    simp only [Exec.transferWith, if_true]
    rw [replaceFrame_showing, replaceFrame_showing]
    exact .entered hm hpre (Activation.enter_pads hclosure hargs ha.handler)
  | resume hk hv =>
    have hdrop := dropFinished_showing m pre a [] true
    have hdrop' := dropFinished_showing m' pre' a' [] true
    rw [hm.levels, hbase] at hdrop
    rw [hm.levels', hbase'] at hdrop'
    have hlength : 0 < pre'.length ↔ 0 < pre.length := by
      rw [List.length_pos_iff, List.length_pos_iff]
      refine ⟨?_, fun hne => hpre.ne_nil (hground.of_append hne) hne⟩
      rintro hne rfl
      exact hne hpre.eq_nil
    simp only [Exec.transferWith]
    by_cases hgoes : a'.handler = none ∧ 0 < pre'.length
    · rw [if_pos ⟨rfl, hgoes⟩] at hdrop'
      rw [bind_of_ok hdrop']
      by_cases hnone : a.handler = none
      · rw [if_pos ⟨rfl, hnone, hlength.1 hgoes.2⟩] at hdrop
        rw [bind_of_ok hdrop]
        exact resume hm hpre hk hv
      · rw [if_neg fun h => hnone h.2.1] at hdrop
        rw [bind_of_ok hdrop]
        have hbound : a.handler = some bound := by
          obtain hhandler | ⟨hbound, _⟩ := ha.handler
          · rw [hgoes.1] at hhandler
            generalize a.handler = b at hhandler hnone
            cases hhandler
            exact absurd rfl hnone
          · exact hbound
        exact resume hm (hpre.linger ⟨hidle, hbound⟩) hk hv
    · rw [if_neg fun h => hgoes h.2] at hdrop'
      rw [if_neg fun h => hgoes ⟨ha.none_of_none h.2.1, hlength.2 h.2.2⟩] at hdrop
      rw [bind_of_ok hdrop, bind_of_ok hdrop']
      exact resume hm (hpre.concat ha) hk hv

/-- Values are called in tail position. -/
theorem callTail {a a' : Activation} {callee callee' : Value}
    (hm : Machine.Beside (padding bound) s s' m m') (hbase : baseOf s.thread.levels = 0)
    (hbase' : baseOf s'.thread.levels = 0) (hpre : Padded bound (Value.Pads bound) pre pre')
    (ha : a.Pads bound (Value.Pads bound) [.value] a') (hidle : a.Idle)
    (hground : Grounded .value (pre ++ [a])) (hcallee : callee.Pads bound callee')
    (hargs : List.Forall₂ (Value.Pads bound) args args') (hspared : x.Spares bound)
    (hraises : ∀ effect payload n, apply callee args (m.showing (pre ++ [a]) []) =
      .ok (.raise effect payload) n → x.Raises n effect payload) (line : Nat) :
    KeepUp bound s s' () (Exec.call callee args line true (m.showing (pre ++ [a]) []))
      (Exec.call callee' args' line true (m'.showing (pre' ++ [a']) [])) := by
  refine applied hm hcallee hargs fun n n' t t' hn ht happly hplain =>
    transferTail hn hbase hbase' hpre ha hidle hground ht hplain line ?_
  rintro effect payload payload' rfl hpayload
  exact raise hn hbase hbase' (hpre.concat ha) hpayload hspared (hraises _ _ _ happly) line

end KeepUp

end Exec

end Resumable
