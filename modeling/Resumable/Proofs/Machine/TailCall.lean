import Resumable.Proofs.Machine.Idle

/-!
Two machines that run the same program, one of them with plain calls in the place of tail calls. That
one keeps the activations that the other replaces, but they are idle, so both do the same, move by move,
until idle activations return.
-/

namespace Resumable

/-- A thread with one call in progress, which ends its work. -/
def Thread.Sole (t : Thread) (phase : Phase) : Prop :=
  ∃ level, t.levels = [level] ∧ level.phase = phase ∧ level.depth = 0 ∧ level.purpose = .finish

namespace Machine

/-- A machine with one call in progress, which ends its work. -/
def Single (m : Machine) : Prop :=
  m.waiting = [] ∧ m.thread.Sole .running

/-- Two machines that differ in related values and in what their threads show. -/
structure Coupled (m m' : Machine) : Prop where
  world : m.world.Related untailing m'.world
  levels : m'.thread.levels = m.thread.levels
  limits : m'.thread.limits = m.thread.limits
  label : m'.thread.lastLabel = m.thread.lastLabel
  single : m.Single
  single' : m'.Single

end Machine

/-- Activations of two threads of which the last one mirrors the other, with the same ahead of them once
it has returned. -/
structure Abreast (pre : List Activation) (a : Activation) (pre' : List Activation)
    (a' : Activation) : Prop where
  below : ∃ left init, pre' = left ++ init ∧ Spread Value.Untails pre left ∧ (∀ y ∈ init, y.Idle) ∧
    BoundsRelated Value.Untails (boundsOf [a]) (boundsOf (init ++ [a']))
  mirrors : a.Mirrors Value.Untails a'

/-- Two machines that run the same program, one with tail calls and the other without: their last
activations mirror each other, or both have just been given a value. -/
inductive Paired : Machine → Machine → Prop
  | running {m m' : Machine} {pre pre' : List Activation} {a a' : Activation} (hm : m.Coupled m')
    (habreast : Abreast pre a pre' a') :
    Paired (m.showing (pre ++ [a]) []) (m'.showing (pre' ++ [a']) [])
  | given {m m' : Machine} {acts acts' spare : List Activation} {v v' : Value} (hm : m.Coupled m')
    (hacts : Spread Value.Untails acts acts') (hne : acts ≠ []) (hspare : Spare spare)
    (hv : v.Untails v') : Paired (m.showing acts [v]) (m'.showing (acts' ++ spare) [v'])

/-- What two actions with the value `x` come to: machines that are paired, or the same failure. The
second one may also find no room for a frame, or start a task. -/
inductive Meets {α : Type} (x : α) : EStateM.Result Stop Machine α → EStateM.Result Stop Machine α → Prop
  | paired {m m' : Machine} (hpaired : Paired m m') : Meets x (.ok x m) (.ok x m')
  | failed {e : RuntimeError} {m m' : Machine} (hm : m.Coupled m') :
    Meets x (.error (.error e) m) (.error (.error e) m')
  | overflow {r : EStateM.Result Stop Machine α} {detail : String} {m' : Machine}
    (hm' : m'.Single) : Meets x r (.error (.error (.stackOverflow detail)) m')
  | spawned {r : EStateM.Result Stop Machine α} {m' : Machine} (hm' : m'.waiting ≠ []) :
    Meets x r (.ok x m')

namespace Machine.Coupled

variable {m m' : Machine}

theorem showing (hm : m.Coupled m') (acts acts' : List Activation) (extra extra' : List Value) :
    (m.showing acts extra).Coupled (m'.showing acts' extra') :=
  ⟨hm.world, hm.levels, hm.limits, hm.label, hm.single, hm.single'⟩

theorem withWorld (hm : m.Coupled m') {w w' : World} (hw : w.Related untailing w') :
    Coupled { m with world := w } { m' with world := w' } :=
  ⟨hw, hm.levels, hm.limits, hm.label, hm.single, hm.single'⟩

theorem relabeled (hm : m.Coupled m') : m.relabeled.Coupled m'.relabeled :=
  ⟨hm.world, hm.levels, hm.limits, congrArg (· + 1) hm.label, hm.single, hm.single'⟩

/-- If the first thread is full, so is the second. -/
theorem full (hm : m.Coupled m') {acts acts' : List Activation} {extra extra' : List Value}
    (hacts : acts.length ≤ acts'.length) (hheight : heightOf acts ≤ heightOf acts')
    (hextra : extra'.length = extra.length) (hfull : (m.thread.showing acts extra).Full) :
    (m'.thread.showing acts' extra').Full := by
  simp only [Thread.Full, Thread.showing_limits, Thread.showing_frames, Thread.showing_stack,
    List.size_toArray, length_framesFrom, List.length_append, length_stackOf, hm.limits] at hfull ⊢
  omega

end Machine.Coupled

namespace Abreast

variable {pre pre' : List Activation} {a a' : Activation}

theorem spread (h : Abreast pre a pre' a') :
    Spread Value.Untails (pre ++ [a]) (pre' ++ [a']) := by
  obtain ⟨left, init, rfl, hleft, hinit, hbounds⟩ := h.below
  rw [List.append_assoc]
  exact hleft.concat ⟨⟨init, a', rfl, hinit, Or.inl h.mirrors⟩, hbounds⟩

/-- Both last activations go on, each with the handler that it has. -/
theorem update (h : Abreast pre a pre' a') {b b' : Activation} (hmirrors : b.Mirrors Value.Untails b')
    (hb : b.handler = a.handler) (hb' : b'.handler = a'.handler) : Abreast pre b pre' b' := by
  obtain ⟨left, init, hpre', hleft, hinit, hbounds⟩ := h.below
  refine ⟨⟨left, init, hpre', hleft, hinit, ?_⟩, hmirrors⟩
  simp only [boundsOf_append, boundsOf_cons, hb, hb'] at hbounds ⊢
  exact hbounds

/-- If there is no handler, then the activations over which one that is to return is spread can go. -/
theorem dropped (h : Abreast pre a pre' a') (hnone : a.handler = none) (ha' : a'.Idle) :
    ∃ left spare, pre' = left ++ spare ∧ Spread Value.Untails pre left ∧ Spare (spare ++ [a']) := by
  obtain ⟨left, init, hpre', hleft, hinit, hbounds⟩ := h.below
  refine ⟨left, init, hpre', hleft, spare_of_boundsOf ?_ ?_⟩
  · exact List.forall_mem_append.2 ⟨hinit, by simpa using ha'⟩
  · simp only [boundsOf_cons, hnone] at hbounds
    exact List.forall₂_nil_left_iff.1 hbounds

/-- The last one can also go if there is a handler, or nothing but activations that are to return:
others are left over which the one with the handler is spread. -/
theorem kept (h : Abreast pre a pre' a') (ha : a.Idle) (hoperands : a.operands = [])
    (hkept : a.handler ≠ none ∨ pre = []) (hnone : a'.handler = none) (hne : pre' ≠ []) :
    Spread Value.Untails (pre ++ [a]) pre' := by
  obtain ⟨left, init, rfl, hleft, hinit, hbounds⟩ := h.below
  have hbounds' : BoundsRelated Value.Untails (boundsOf [a]) (boundsOf init) := by
    simpa [boundsOf_append, boundsOf_cons, hnone, boundsOf] using hbounds
  obtain rfl | ⟨init, last, rfl⟩ := List.eq_nil_or_concat' init
  · obtain ⟨clauses, hsome⟩ | rfl := hkept.imp_left Option.ne_none_iff_exists'.1
    · rw [boundsOf_cons, hsome] at hbounds'
      cases hbounds'
    · obtain ⟨blocks, rfl, hblocks⟩ := hleft
      cases hblocks
      exact absurd rfl hne
  · exact hleft.concat ⟨⟨init, last, rfl, fun y hy => hinit y (by simp [hy]),
      Or.inr ⟨ha, hoperands, hinit last (by simp)⟩⟩, hbounds'⟩

end Abreast

/-- The activations of two functions that are called. -/
theorem mirrors_enter {id id' : Nat} {f f' : Code Value} {env env' : List (Symbol × Value)}
    {args args' : List Value} {bound bound' : Option (List (Effect × Value) × Nat)}
    (hclosure : (Value.closure id f env).Untails (.closure id' f' env'))
    (hargs : List.Forall₂ Value.Untails args args') :
    (Activation.enter (.closure id f env) f env args bound).Mirrors Value.Untails
      (Activation.enter (.closure id' f' env') f' env' args' bound') := by
  obtain ⟨hcode, henv⟩ := hclosure.unfold.inner
  exact ⟨hcode, henv, enter_locals_related (L := untailing) hcode.localCount_eq hcode.selfName_eq
    hcode.params_eq hclosure hargs, rfl, .nil⟩

namespace Meets

variable {m m' : Machine} {acts acts' spare : List Activation} {args args' : List Value}

/-- Actions in a row. -/
theorem bind {α β : Type} {x : α} {y : β} {f f' : Exec α} {g g' : α → Exec β} {s s' : Machine}
    (hfirst : Meets x (f s) (f' s'))
    (hnext : ∀ s s', Paired s s' → Meets y (g x s) (g' x s'))
    (hspawned : ∀ s', s'.waiting ≠ [] → ∀ r, Meets y r (g' x s')) :
    Meets y ((f >>= g) s) ((f' >>= g') s') := by
  generalize hr : f s = r at hfirst
  generalize hr' : f' s' = r' at hfirst
  cases hfirst with
  | paired hpaired =>
    rw [bind_of_ok hr, bind_of_ok hr']
    exact hnext _ _ hpaired
  | failed hm =>
    rw [bind_of_error hr, bind_of_error hr']
    exact .failed hm
  | overflow hm' =>
    rw [bind_of_error hr']
    exact .overflow hm'
  | spawned hm' =>
    rw [bind_of_ok hr']
    exact hspawned _ hm' _

/-- Actions whose value does not matter. -/
theorem andNone {x x' : Exec Unit} {s s' : Machine} (h : Meets () (x s) (x' s')) :
    Meets none ((do x; return none : Exec (Option Value)) s)
      ((do x'; return none : Exec (Option Value)) s') :=
  h.bind (fun _ _ hpaired => .paired hpaired) fun _ hm' _ => .spawned hm'

/-- Values that are put on the stack. -/
theorem push {v v' : Value} (hm : m.Coupled m') (hacts : Spread Value.Untails acts acts')
    (hne : acts ≠ []) (hspare : Spare spare) (hv : v.Untails v') :
    Meets () (Exec.push v (m.showing acts [])) (Exec.push v' (m'.showing (acts' ++ spare) [])) := by
  rw [Exec.push_showing, Exec.push_showing]
  exact .paired (.given hm hacts hne hspare hv)

/-- A function that is called gets an activation on top. -/
theorem pushFrame {id id' : Nat} {f f' : Code Value} {env env' : List (Symbol × Value)}
    (hm : m.Coupled m') (hacts : Spread Value.Untails acts acts') (hspare : Spare spare)
    (hclosure : (Value.closure id f env).Untails (.closure id' f' env'))
    (hargs : List.Forall₂ Value.Untails args args') :
    Meets () (Exec.pushFrame (.closure id f env) f env args false (m.showing acts []))
      (Exec.pushFrame (.closure id' f' env') f' env' args' false (m'.showing (acts' ++ spare) [])) := by
  obtain ⟨_, detail, herror⟩ | ⟨hroom, hok⟩ :=
    Exec.pushFrame_showing m' (acts' ++ spare) (.closure id' f' env') f' env' args'
  · rw [herror]
    exact .overflow hm.single'
  · obtain ⟨hfull, _⟩ | ⟨_, hok'⟩ := Exec.pushFrame_showing m acts (.closure id f env) f env args
    · obtain ⟨hlength, hheight⟩ := hacts.size_le
      refine absurd (hm.full ?_ ?_ rfl hfull) hroom
      · rw [List.length_append]
        omega
      · rw [heightOf_append]
        omega
    · rw [hok, hok']
      refine .paired (.running hm ⟨⟨acts', spare, rfl, hacts, fun y hy => (hspare y hy).1, ?_⟩,
        mirrors_enter hclosure hargs⟩)
      rw [boundsOf_append, hspare.boundsOf_eq]
      exact .nil

/-- A suspended computation goes on. -/
theorem resume {id id' : Nat} {k k' : Continuation Value} {v v' : Value} (hm : m.Coupled m')
    (hacts : Spread Value.Untails acts acts') (hspare : Spare spare)
    (hk : (Value.continuation id k).Untails (.continuation id' k')) (hv : v.Untails v') :
    Meets () (Exec.resume k v (m.showing acts []))
      (Exec.resume k' v' (m'.showing (acts' ++ spare) [])) := by
  obtain ⟨b, above, ys, above', spare', rfl, rfl, hb, ⟨c, hc, hbound⟩, hfirst, hrest, hspare'⟩ :=
    hk.unfold.inner
  obtain ⟨rest, rfl⟩ := List.head?_eq_some_iff.1 hc
  obtain ⟨⟨clauses, label⟩, hb⟩ := Option.isSome_iff_exists.1 hb
  obtain ⟨⟨clauses', label'⟩, hc⟩ := Option.isSome_iff_exists.1 hbound
  have hsame : c :: rest ++ above' ++ spare' = c :: (rest ++ above' ++ spare') := by simp
  rw [hsame]
  obtain ⟨_, detail, herror⟩ | ⟨hroom, hok⟩ :=
    Exec.resume_showing m' (acts' ++ spare) (rest ++ above' ++ spare') c clauses' label' hc v'
  · rw [herror]
    exact .overflow hm.single'
  · obtain ⟨hdeep, _⟩ | ⟨_, hok'⟩ := Exec.resume_showing m acts above b clauses label hb v
    · have hbelow := hacts.size_le.1
      have habove := hrest.size_le.1
      rw [hm.limits] at hroom
      simp only [List.length_append, List.length_cons] at hdeep hroom
      omega
    · rw [hok, hok', hm.label]
      have hplaced := hacts.append (Spread.append
        (.single ((hfirst.relabel hb hc (m.thread.lastLabel + 1)).above hspare)) hrest)
      have hpaired := Paired.given hm.relabeled hplaced (by simp) hspare' hv
      simp only [List.append_assoc, List.cons_append, List.nil_append] at hpaired ⊢
      exact .paired hpaired

/-- What a function of the library has asked for. -/
theorem grant {reply reply' : Reply} (hm : m.Coupled m') (hacts : Spread Value.Untails acts acts')
    (hne : acts ≠ []) (hspare : Spare spare) (hreply : reply.Related untailing reply')
    (hplain : reply.Plain) (line : Nat) :
    Meets () (Exec.grant line reply (m.showing acts []))
      (Exec.grant line reply' (m'.showing (acts' ++ spare) [])) := by
  cases hreply with
  | value hv => exact push hm hacts hne hspare hv
  | spawn hcallee => exact .spawned (List.cons_ne_nil _ _)
  | call => exact hplain.elim
  | depth => exact hplain.elim

/-- What calls come to. -/
theorem transfer {t t' : Transfer} (hm : m.Coupled m') (hacts : Spread Value.Untails acts acts')
    (hne : acts ≠ []) (hspare : Spare spare) (ht : t.Related untailing t')
    (hplain : ∀ reply, t = .requested reply → reply.Plain) (line : Nat)
    {raise raise' : Effect → Value → Exec Unit}
    (hraise : ∀ effect payload payload', Value.Untails payload payload' →
      Meets () (raise effect payload (m.showing acts []))
        (raise' effect payload' (m'.showing (acts' ++ spare) []))) :
    Meets () (Exec.transferWith raise line false t (m.showing acts []))
      (Exec.transferWith raise' line false t' (m'.showing (acts' ++ spare) [])) := by
  cases ht with
  | returned hv => exact push hm hacts hne hspare hv
  | requested hreply => exact grant hm hacts hne hspare hreply (hplain _ rfl) line
  | enter hclosure hargs => exact pushFrame hm hacts hspare hclosure hargs
  | raise heffect hpayload =>
    obtain rfl := heffect.eq
    exact hraise _ _ _ hpayload
  | resume hk hv =>
    simp only [Exec.transferWith]
    rw [bind_of_ok (Exec.dropFinished_false _), bind_of_ok (Exec.dropFinished_false _)]
    exact resume hm hacts hspare hk hv

end Meets

/-- The functions of the library that are around ask for no calls. -/
theorem Exec.apply_plain {m m₁ : Machine} {callee callee' : Value} {args args' : List Value}
    {reply : Reply} (hcallee : callee.Untails callee') (hargs : List.Forall₂ Value.Untails args args')
    (hrun : apply callee args m = .ok (.requested reply) m₁) : reply.Plain := by
  have hbare := (Likeness.unapply_related (L := untailing) hcallee hargs).1
  refine plain_of_apply (fun id name arity function hnative => ?_) hrun
  rw [hnative] at hbare
  exact hbare.unfold.inner

/-- The same handler is found, whatever the positions. -/
theorem findHandler_related {L : Likeness} (hexact : L.toCorrespondence = .exact)
    {handlers handlers' : List (Installed Value)}
    (hrel : List.Forall₂ (fun h h' => ClausesRelated L.ids L.rel h.clauses h'.clauses) handlers handlers')
    (effect : Effect) (n : Nat) :
    Option.Rel (fun found found' => found'.1 = found.1 ∧ L.rel found.2.2 found'.2.2)
      (findHandler handlers.toArray 0 effect n) (findHandler handlers'.toArray 0 effect n) := by
  induction n with
  | zero => exact .none
  | succ n ih =>
    have hget := Likeness.getElem?_related hrel n
    rw [findHandler, findHandler, List.getElem?_toArray, List.getElem?_toArray]
    generalize handlers[n]? = x at hget
    generalize handlers'[n]? = x' at hget
    cases hget with
    | none => exact ih
    | some hclauses =>
      simp only [Nat.not_lt_zero, if_false]
      have hsame : effect.Matches L.ids effect := by
        rw [hexact]
        exact ⟨rfl, rfl⟩
      have hfind := hclauses.find? hsame
      generalize Clauses.find? _ effect = y at hfind
      generalize Clauses.find? _ effect = y' at hfind
      cases hfind with
      | none => exact ih
      | some hclause => exact .some ⟨rfl, hclause⟩

/-- The handlers of two threads, whatever their positions. -/
theorem handlersFrom_related {acts acts' : List Activation}
    (hbounds : BoundsRelated Value.Untails (boundsOf acts) (boundsOf acts')) :
    List.Forall₂ (fun h h' => ClausesRelated Eq Value.Untails h.clauses h'.clauses)
      (handlersFrom 0 0 acts) (handlersFrom 0 0 acts') := by
  rw [← bounds_handlersFrom 0 0 acts, ← bounds_handlersFrom 0 0 acts', BoundsRelated,
    List.forall₂_map_left_iff, List.forall₂_map_right_iff] at hbounds
  exact hbounds.imp fun _ _ h => h.1

/-- The handler at the place of a boundary is that of the boundary. -/
theorem handlersFrom_boundary (below above : List Activation) {c : Activation}
    {clauses : List (Effect × Value)} {label : Nat} (hc : c.handler = some (clauses, label)) :
    (handlersFrom 0 0 (below ++ c :: above))[(boundsOf below).length]? =
      some ⟨clauses, below.length, heightOf below, label⟩ := by
  rw [handlersFrom_append, ← length_handlersFrom 0 0 below, List.getElem?_append_right (Nat.le_refl _),
    Nat.sub_self, handlersFrom_cons, Activation.installed_eq hc]
  simp

theorem Spread.append_spare {acts acts' spare : List Activation}
    (hacts : Spread Value.Untails acts acts') (hspare : Spare spare) :
    BoundsRelated Value.Untails (boundsOf acts) (boundsOf (acts' ++ spare)) := by
  rw [boundsOf_append, hspare.boundsOf_eq, List.append_nil]
  exact hacts.bounds

namespace Meets

variable {m m' : Machine} {acts acts' spare : List Activation} {args args' : List Value}

/-- Calls, given what is done with what they come to. -/
theorem applied {callee callee' : Value} (hm : m.Coupled m') (hcallee : callee.Untails callee')
    (hargs : List.Forall₂ Value.Untails args args') {next next' : Transfer → Exec Unit}
    (hnext : ∀ (m m' : Machine) t t', m.Coupled m' → t.Related untailing t' →
      (∀ reply, t = .requested reply → reply.Plain) →
      Meets () (next t (m.showing acts [])) (next' t' (m'.showing acts' []))) :
    Meets () ((Exec.apply callee args >>= next) (m.showing acts []))
      ((Exec.apply callee' args' >>= next') (m'.showing acts' [])) := by
  have hagree : Exec.Agree untailing (m.showing acts []) (m'.showing acts' [])
      (Exec.apply callee args (m.showing acts [])) (Exec.apply callee' args' (m'.showing acts' [])) :=
    Exec.apply_agree (Or.inl rfl) hm.world hcallee hargs
  generalize hr : Exec.apply callee args (m.showing acts []) = r at hagree
  generalize hr' : Exec.apply callee' args' (m'.showing acts' []) = r' at hagree
  cases hagree with
  | ok ht hw =>
    rw [bind_of_ok hr, bind_of_ok hr']
    refine hnext _ _ _ _ (hm.withWorld hw) ht ?_
    rintro reply rfl
    exact Exec.apply_plain hcallee hargs hr
  | error hw =>
    rw [bind_of_error hr, bind_of_error hr']
    exact .failed ((hm.withWorld hw).showing acts acts' [] [])

/-- Effects are raised. -/
theorem raiseWithin {payload payload' : Value} (hm : m.Coupled m')
    (hacts : Spread Value.Untails acts acts') (hground : Grounded .value acts) (hspare : Spare spare)
    (hpayload : payload.Untails payload') (line bound : Nat) (effect : Effect) :
    Meets () (Exec.raiseWithin line bound effect payload (m.showing acts []))
      (Exec.raiseWithin line bound effect payload' (m'.showing (acts' ++ spare) [])) := by
  induction bound generalizing m m' acts acts' spare effect payload payload' with
  | zero => exact .failed (hm.showing acts (acts' ++ spare) [] [])
  | succ bound ih =>
    have hlevel : ∀ {s : Machine}, s.Single → ∀ acts, Exec.baseDepth (s.showing acts []) =
        .ok 0 (s.showing acts []) := by
      rintro s ⟨_, level, hlevels, _, hdepth, _⟩ acts
      rw [Exec.baseDepth_run, Machine.showing_thread, Thread.showing_levels, hlevels, Exec.baseOf, hdepth]
    have hsize : (handlersFrom 0 0 (acts' ++ spare)).toArray.size =
        (handlersFrom 0 0 acts).toArray.size := by
      rw [List.size_toArray, List.size_toArray, length_handlersFrom, length_handlersFrom]
      exact (hacts.append_spare hspare).length_eq.symm
    rw [Exec.raiseWithin, Exec.raiseWithin, bind_of_ok (hlevel hm.single acts),
      bind_of_ok (hlevel hm.single' (acts' ++ spare)), bind_get_run, bind_get_run]
    simp only [Machine.showing_thread, Thread.showing_handlers, hsize]
    have hfound := findHandler_related (L := untailing) rfl
      (handlersFrom_related (hacts.append_spare hspare)) effect
      (handlersFrom 0 0 acts).toArray.size
    generalize hfind : findHandler (handlersFrom 0 0 acts).toArray 0 effect _ = found at hfound
    generalize hfind' : findHandler (handlersFrom 0 0 (acts' ++ spare)).toArray 0 effect _ = found'
      at hfound
    cases hfound with
    | none => exact .failed (hm.showing acts (acts' ++ spare) [] [])
    | @some found found' hsame =>
      obtain ⟨index, h, clause⟩ := found
      obtain ⟨index', h', clause'⟩ := found'
      obtain ⟨rfl, hclause⟩ : index = index' ∧ clause.Untails clause' := ⟨hsame.1.symm, hsame.2⟩
      obtain ⟨below, b, above, rfl, hb, hplace, hindex, _, _⟩ := findHandler_locate hfind
      obtain ⟨left, right, rfl, hleft, hright⟩ := hacts.split
      obtain ⟨ys, rest, rfl, hfirst, hrest⟩ := hright.cons_inv
      obtain ⟨sp, c, more, clauses', rfl, hsp, hfirst', hc, _⟩ := hfirst.bound hb
      have hcut : left ++ (sp ++ c :: more ++ rest) ++ spare =
          (left ++ sp) ++ c :: (more ++ rest ++ spare) := by simp
      have hcount : index = (boundsOf (left ++ sp)).length := by
        rw [hindex, length_handlersFrom, boundsOf_append, hsp.boundsOf_eq, List.append_nil]
        exact hleft.bounds.length_eq
      rw [hcut] at hfind' ⊢
      have hplace' : h' = ⟨clauses', (left ++ sp).length, heightOf (left ++ sp), h.label⟩ := by
        have hget := (findHandler_eq_some hfind').1
        rw [List.getElem?_toArray, hcount, handlersFrom_boundary _ _ hc] at hget
        exact (Option.some.inj hget).symm
      have hcapture := Exec.capture_showing m below above b h.clauses h.label hb
      have hcapture' := Exec.capture_showing m' (left ++ sp) (more ++ rest ++ spare) c clauses'
        h.label hc
      rw [← hplace, ← hindex] at hcapture
      rw [← hplace', length_handlersFrom, ← hcount] at hcapture'
      obtain ⟨hid, hdrawn⟩ := hm.world.draw_eq rfl
      have hk : (Value.continuation m.world.draw.1 (.ofActs (b :: above))).Untails
          (.continuation m'.world.draw.1 (.ofActs (c :: (more ++ rest ++ spare)))) := by
        rw [hid]
        refine .fold ⟨.continuation rfl, b, above, c :: more, rest, spare, rfl, by simp, by simp [hb],
          ⟨c, rfl, by simp [hc]⟩, hfirst', hrest, hspare⟩
      have hargs : List.Forall₂ Value.Untails
          (if clause.arity? = some 1 then [payload] else
            [payload, .continuation m.world.draw.1 (.ofActs (b :: above))])
          (if clause'.arity? = some 1 then [payload'] else
            [payload', .continuation m'.world.draw.1 (.ofActs (c :: (more ++ rest ++ spare)))]) := by
        rw [Likeness.arity?_eq (L := untailing) hclause]
        split
        · exact .cons hpayload .nil
        · exact .cons hpayload (.cons hk .nil)
      have hne : below ≠ [] := by
        rintro rfl
        rw [hground (by decide) b rfl] at hb
        cases hb
      have hbelow : Grounded .value below := hground.of_append hne
      simp only []
      rw [bind_of_ok hcapture, bind_of_ok hcapture', bind_of_ok (Exec.draw_run _),
        bind_of_ok (Exec.draw_run _)]
      exact applied (hm.withWorld hdrawn) hclause hargs fun _ _ _ _ hm ht hplain =>
        transfer hm hleft hne hsp ht hplain line fun effect _ _ hpayload =>
          ih hm hleft hbelow hsp hpayload effect

theorem raise {payload payload' : Value} (hm : m.Coupled m')
    (hacts : Spread Value.Untails acts acts') (hground : Grounded .value acts) (hspare : Spare spare)
    (hpayload : payload.Untails payload') (line : Nat) (effect : Effect) :
    Meets () (Exec.raise line effect payload (m.showing acts []))
      (Exec.raise line effect payload' (m'.showing (acts' ++ spare) [])) := by
  have hsize : (m'.showing (acts' ++ spare) []).thread.handlers.size =
      (m.showing acts []).thread.handlers.size := by
    simp only [Machine.showing_thread, Thread.showing_handlers, List.size_toArray,
      length_handlersFrom]
    exact (hacts.append_spare hspare).length_eq.symm
  rw [Exec.raise, Exec.raise, bind_get_run, bind_get_run, hsize]
  exact raiseWithin hm hacts hground hspare hpayload line _ effect

/-- Values are called. -/
theorem call {callee callee' : Value} (hm : m.Coupled m') (hacts : Spread Value.Untails acts acts')
    (hground : Grounded .value acts) (hne : acts ≠ []) (hspare : Spare spare)
    (hcallee : callee.Untails callee') (hargs : List.Forall₂ Value.Untails args args') (line : Nat) :
    Meets () (Exec.call callee args line false (m.showing acts []))
      (Exec.call callee' args' line false (m'.showing (acts' ++ spare) [])) :=
  applied hm hcallee hargs fun _ _ _ _ hm ht hplain =>
    transfer hm hacts hne hspare ht hplain line fun effect _ _ hpayload =>
      raise hm hacts hground hspare hpayload line effect

/-- What calls in tail position come to, if one of them may be a plain call. -/
theorem transferTail {pre pre' : List Activation} {a a' : Activation} {t t' : Transfer}
    (hm : m.Coupled m') (habreast : Abreast pre a pre' a') (ha : a.Idle) (hoperands : a.operands = [])
    (ha' : a'.Idle) (ht : t.Related untailing t')
    (hplain : ∀ reply, t = .requested reply → reply.Plain) (line : Nat) (tail : Bool)
    {raise raise' : Effect → Value → Exec Unit}
    (hraise : ∀ effect payload payload', Value.Untails payload payload' →
      Meets () (raise effect payload (m.showing (pre ++ [a]) []))
        (raise' effect payload' (m'.showing (pre' ++ [a'] ++ []) []))) :
    Meets () (Exec.transferWith raise line true t (m.showing (pre ++ [a]) []))
      (Exec.transferWith raise' line tail t' (m'.showing (pre' ++ [a'] ++ []) [])) := by
  cases ht with
  | returned hv => exact push hm habreast.spread (by simp) .nil hv
  | requested hreply => exact grant hm habreast.spread (by simp) .nil hreply (hplain _ rfl) line
  | raise heffect hpayload =>
    obtain rfl := heffect.eq
    exact hraise _ _ _ hpayload
  | @enter id id' f f' env env' args args' hclosure hargs =>
    simp only [Exec.transferWith, if_true, Exec.replaceFrame_showing, List.append_nil]
    obtain ⟨left, init, rfl, hleft, hinit, hbounds⟩ := habreast.below
    cases tail with
    | true =>
      rw [if_pos rfl, Exec.replaceFrame_showing]
      exact .paired (.running hm (habreast.update (mirrors_enter hclosure hargs) rfl rfl))
    | false =>
      simp only [Bool.false_eq_true, if_false]
      obtain ⟨_, detail, herror⟩ | ⟨_, hok⟩ :=
        Exec.pushFrame_showing m' (left ++ init ++ [a']) (.closure id' f' env') f' env' args'
      · rw [herror]
        exact .overflow hm.single'
      · rw [hok]
        refine .paired (.running hm ⟨⟨left, init ++ [a'], by simp, hleft, ?_, ?_⟩,
          mirrors_enter hclosure hargs⟩)
        · exact List.forall_mem_append.2 ⟨hinit, by simpa using ha'⟩
        · simp only [boundsOf_append, boundsOf_cons] at hbounds ⊢
          simpa [Activation.enter, boundsOf] using hbounds
  | resume hk hv =>
    simp only [Exec.transferWith, List.append_nil]
    have hdrop := Exec.dropFinished_showing m pre a [] true
    have hdrop' := Exec.dropFinished_showing m' pre' a' [] tail
    split at hdrop
    next hdropped =>
      obtain ⟨left, spare, rfl, hleft, hspare⟩ := habreast.dropped hdropped.2.1 ha'
      rw [bind_of_ok hdrop]
      split at hdrop'
      next =>
        rw [bind_of_ok hdrop']
        exact resume hm hleft (fun y hy => hspare y (by simp [hy])) hk hv
      next =>
        rw [bind_of_ok hdrop', List.append_assoc]
        exact resume hm hleft hspare hk hv
    next hkept =>
      rw [bind_of_ok hdrop]
      split at hdrop'
      next hdropped' =>
        have hbase : ∀ {s : Machine}, s.Single → Exec.baseOf s.thread.levels = 0 := by
          rintro s ⟨_, level, hlevels, _, hdepth, _⟩
          rw [hlevels, Exec.baseOf, hdepth]
        rw [hbase hm.single] at hkept
        rw [hbase hm.single'] at hdropped'
        have hkept' : a.handler ≠ none ∨ pre = [] := by
          by_cases hhandler : a.handler = none
          · refine Or.inr (List.length_eq_zero_iff.1 ?_)
            by_contra hlength
            exact hkept ⟨rfl, hhandler, by omega⟩
          · exact Or.inl hhandler
        have hspread := habreast.kept ha hoperands hkept' hdropped'.2.1
          (List.length_pos_iff.1 hdropped'.2.2)
        rw [bind_of_ok hdrop']
        have hresume := resume hm hspread .nil hk hv
        rwa [List.append_nil] at hresume
      next =>
        rw [bind_of_ok hdrop']
        have hresume := resume hm habreast.spread .nil hk hv
        rwa [List.append_nil] at hresume

/-- Values are called in tail position. -/
theorem callTail {pre pre' : List Activation} {a a' : Activation} {callee callee' : Value}
    (hm : m.Coupled m') (habreast : Abreast pre a pre' a') (hground : Grounded .value (pre ++ [a]))
    (ha : a.Idle) (hoperands : a.operands = []) (ha' : a'.Idle) (hcallee : callee.Untails callee')
    (hargs : List.Forall₂ Value.Untails args args') (line : Nat) (tail : Bool) :
    Meets () (Exec.call callee args line true (m.showing (pre ++ [a]) []))
      (Exec.call callee' args' line tail (m'.showing (pre' ++ [a']) [])) := by
  have hsame : pre' ++ [a'] = pre' ++ [a'] ++ [] := by simp
  rw [hsame]
  exact applied hm hcallee hargs fun _ _ _ _ hm ht hplain =>
    transferTail hm habreast ha hoperands ha' ht hplain line tail fun effect _ _ hpayload =>
      raise hm habreast.spread hground .nil hpayload line effect

end Meets

end Resumable
