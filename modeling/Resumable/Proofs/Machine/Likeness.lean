import Resumable.Proofs.Library.Likeness
import Resumable.Proofs.Machine.Invocation

/-!
What a machine does with values that look the same. Calls come to the same, functions that are made
capture related values, and what instructions take from the stack they put together alike.
-/

namespace Resumable

variable {L : Likeness}

theorem getElem?_locals_related {xs ys : Array Value} (hrel : List.Forall₂ L.rel xs.toList ys.toList)
    (i : Nat) : Option.Rel L.rel xs[i]? ys[i]? := by
  have hget := Likeness.getElem?_related hrel i
  rwa [Array.getElem?_toList, Array.getElem?_toList] at hget

theorem replicate_none_related (n : Nat) :
    List.Forall₂ L.rel (List.replicate n Value.none) (List.replicate n Value.none) := by
  induction n with
  | zero => exact .nil
  | succ n ih => exact .cons (L.flat rfl) ih

/-- Slots with a related value in one of them. -/
theorem setSlot_related {xs ys : Array Value} {v v' : Value}
    (hrel : List.Forall₂ L.rel xs.toList ys.toList) (slot : Nat) (hv : L.rel v v') :
    List.Forall₂ L.rel (setSlot xs slot v).toList (setSlot ys slot v').toList := by
  have hsize : ys.size = xs.size := by simpa using hrel.length_eq.symm
  unfold setSlot
  rw [hsize]
  split
  · simp only [Array.toList_setIfInBounds]
    exact Act.forall₂_set hrel hv slot
  · simp only [Array.toList_push, Array.toList_append, Array.toList_replicate]
    exact List.rel_append (List.rel_append hrel (replicate_none_related _)) (.cons hv .nil)

/-- The slots of a function that is called with related arguments. -/
theorem enter_locals_related {closure closure' : Value} {f f' : Code Value}
    {env env' : List (Symbol × Value)} {args args' : List Value}
    {bound bound' : Option (List (Effect × Value) × Nat)}
    (hcount : f'.localCount = f.localCount) (hself : f'.selfName = f.selfName)
    (hparams : f'.params = f.params) (hclosure : L.rel closure closure')
    (hargs : List.Forall₂ L.rel args args') :
    List.Forall₂ L.rel (Activation.enter closure f env args bound).locals.toList
      (Activation.enter closure' f' env' args' bound').locals.toList := by
  have hslots : List.Forall₂ L.rel
      (args.toArray ++ Array.replicate (max f.localCount args.length - args.length) Value.none).toList
      (args'.toArray ++
        Array.replicate (max f.localCount args'.length - args'.length) Value.none).toList := by
    rw [hargs.length_eq]
    simp only [Array.toList_append, Array.toList_replicate]
    exact List.rel_append hargs (replicate_none_related _)
  simp only [Activation.enter, Frame.enter, hcount, hself, hparams]
  cases f.selfName with
  | none => exact hslots
  | some s =>
    simp only [Array.toList_setIfInBounds]
    exact Act.forall₂_set hslots hclosure _

namespace Activation

variable {a a' : Activation}

theorem supply_related (henv : Env.Related L.rel a.env a'.env)
    (hlocals : List.Forall₂ L.rel a.locals.toList a'.locals.toList) (c : Capture) :
    Option.Rel L.rel (a.supply c) (a'.supply c) := by
  unfold supply
  cases c.source with
  | slot n => exact getElem?_locals_related hlocals n
  | enclosing => exact henv.get? c.name

/-- A function that is made captures related values. -/
theorem bindAll_related {env env' bound : List (Symbol × Value)} {captures : List Capture}
    (henv : Env.Related L.rel a.env a'.env)
    (hlocals : List.Forall₂ L.rel a.locals.toList a'.locals.toList)
    (hstart : Env.Related L.rel env env') (hbound : a.bindAll env captures = some bound) :
    ∃ bound', a'.bindAll env' captures = some bound' ∧ Env.Related L.rel bound bound' := by
  induction captures generalizing env env' with
  | nil =>
    cases hbound
    exact ⟨env', rfl, hstart⟩
  | cons c captures ih =>
    rw [bindAll, Option.bind_eq_some_iff] at hbound
    obtain ⟨v, hv, hbound⟩ := hbound
    have hsupply := supply_related henv hlocals c
    rw [hv] at hsupply
    generalize hv' : a'.supply c = supplied at hsupply
    cases hsupply with
    | @some _ v' hrel =>
      obtain ⟨bound', hbound', hrelated⟩ := ih (hstart.define c.name hrel) hbound
      refine ⟨bound', ?_, hrelated⟩
      rw [bindAll, hv']
      exact hbound'

end Activation

theorem project_related {v v' : Value} (hv : L.rel v v') (s : Symbol) :
    OutcomesRelated L.rel (v.project s) (v'.project s) := by
  have htype := Likeness.typeName_eq hv
  cases L.view hv with
  | record hfields =>
    have hget := hfields.get? s
    simp only [Value.project]
    generalize Env.get? _ s = x at hget
    generalize Env.get? _ s = y at hget
    cases hget with
    | some hrel => exact hrel
    | none => rfl
  | flat hflat => cases v <;> first | rfl | cases hflat
  | _ => rfl

/-- Names and related values in turn make related records. -/
theorem keyed_related {fields fields' done done' : List (Symbol × Value)}
    (hfields : Env.Related L.rel fields fields') (hdone : Env.Related L.rel done done') :
    Env.Related L.rel (fields.foldl (fun done f => setField done f.1 f.2) done)
      (fields'.foldl (fun done f => setField done f.1 f.2) done') := by
  induction hfields generalizing done done' with
  | nil => exact hdone
  | @cons f f' _ _ hfirst _ ih =>
    have hset := hdone.define f.1 hfirst.2
    rw [hfirst.1] at hset
    simp only [List.foldl_cons]
    refine ih ?_
    rw [hfirst.1]
    exact hset

/-- Clauses for the same effects, with related functions. -/
def ClausesRelated (ids : Nat → Nat → Prop) (R : Value → Value → Prop) :
    List (Effect × Value) → List (Effect × Value) → Prop :=
  List.Forall₂ fun c c' => c.1.Matches ids c'.1 ∧ R c.2 c'.2

theorem ClausesRelated.mono {ids : Nat → Nat → Prop} {R R' : Value → Value → Prop}
    (hle : ∀ {v v'}, R v v' → R' v v') {clauses clauses' : List (Effect × Value)}
    (h : ClausesRelated ids R clauses clauses') : ClausesRelated ids R' clauses clauses' :=
  List.Forall₂.imp (fun _ _ hc => ⟨hc.1, hle hc.2⟩) h

theorem ClausesRelated.find? {ρ : Correspondence} {R : Value → Value → Prop}
    {clauses clauses' : List (Effect × Value)} (hclauses : ClausesRelated ρ.ids R clauses clauses')
    {effect effect' : Effect} (heffect : effect.Matches ρ.ids effect') :
    Option.Rel R (Clauses.find? clauses effect) (Clauses.find? clauses' effect') := by
  induction hclauses with
  | nil => exact .none
  | @cons c c' _ _ hfirst _ ih =>
    have hsame : (c'.1 == effect') = (c.1 == effect) := ρ.beq_eq hfirst.1.id heffect.id
    simp only [Clauses.find?, List.find?_cons, hsame] at ih ⊢
    cases c.1 == effect with
    | true => exact .some hfirst.2
    | false => exact ih

theorem clausesFrom_related {pairs pairs' : List (Value × Value)}
    (hpairs : List.Forall₂ (fun p p' => L.rel p.1 p'.1 ∧ L.rel p.2 p'.2) pairs pairs') :
    OutcomesRelated (ClausesRelated L.ids L.rel) (clausesFrom pairs) (clausesFrom pairs') := by
  induction hpairs with
  | nil => exact .nil
  | @cons p p' pairs pairs' hfirst _ ih =>
    obtain ⟨key, clause⟩ := p
    obtain ⟨key', clause'⟩ := p'
    have htype := Likeness.typeName_eq hfirst.1
    cases L.view hfirst.1 with
    | flat hbasic => cases key <;> first | rfl | cases hbasic
    | effect heffect =>
      simp only [clausesFrom]
      generalize clausesFrom pairs = x at ih
      generalize clausesFrom pairs' = y at ih
      cases x with
      | ok clauses =>
        cases y with
        | ok clauses' => exact .cons ⟨heffect, hfirst.2⟩ ih
        | error => exact ih.elim
      | error e =>
        cases y with
        | ok => exact ih.elim
        | error e' => exact ih
    | _ => rfl

/-- What calls of related values come to. -/
inductive Transfer.Related (L : Likeness) : Transfer → Transfer → Prop
  | returned {v v' : Value} (hv : L.rel v v') : Related L (.returned v) (.returned v')
  | requested {reply reply' : Reply} (hreply : reply.Related L reply') :
    Related L (.requested reply) (.requested reply')
  | enter {id id' : Nat} {f f' : Code Value} {env env' : List (Symbol × Value)}
    {args args' : List Value} (hclosure : L.rel (.closure id f env) (.closure id' f' env'))
    (hargs : List.Forall₂ L.rel args args') :
    Related L (.enter (.closure id f env) f env args) (.enter (.closure id' f' env') f' env' args')
  | raise {effect effect' : Effect} {payload payload' : Value}
    (heffect : effect.Matches L.ids effect') (hpayload : L.rel payload payload') :
    Related L (.raise effect payload) (.raise effect' payload')
  | resume {id id' : Nat} {k k' : Continuation Value} {v v' : Value}
    (hk : L.rel (.continuation id k) (.continuation id' k')) (hv : L.rel v v') :
    Related L (.resume k v) (.resume k' v')

namespace Exec

/-- What two applications come to, which change nothing but the shared states. -/
inductive Agree (L : Likeness) (m m' : Machine) : EStateM.Result Stop Machine Transfer →
    EStateM.Result Stop Machine Transfer → Prop
  | ok {t t' : Transfer} {w w' : World} (ht : t.Related L t') (hw : w.Related L w') :
    Agree L m m' (.ok t { m with world := w }) (.ok t' { m' with world := w' })
  | error {e : RuntimeError} {w w' : World} (hw : w.Related L w') :
    Agree L m m' (.error (.error e) { m with world := w }) (.error (.error e) { m' with world := w' })

variable {m m' : Machine} {callee callee' : Value} {args args' : List Value}

theorem withArity_agree (hw : m.world.Related L m'.world) (hcallee : L.rel callee callee')
    (hargs : List.Forall₂ L.rel args args') (name : String) {arity : Nat} {full full' : Exec Transfer}
    (hfull : args.length = arity → Agree L m m' (full m) (full' m')) :
    Agree L m m' (withArity callee name arity args full m)
      (withArity callee' name arity args' full' m') := by
  simp only [withArity, ← hargs.length_eq, ite_run]
  split
  · obtain ⟨hid, hdrawn⟩ := hw.draw
    have hrun : ∀ (m : Machine) (v : Value) (vs : List Value), applied v vs m =
        .ok (.returned (.applied m.world.draw.1 v vs)) { m with world := m.world.draw.2 } :=
      fun _ _ _ => rfl
    rw [hrun, hrun]
    exact .ok (.returned (L.applied hid hcallee hargs)) hdrawn
  · split
    · exact .error hw
    · exact hfull (by omega)

/-- What a function of the machine comes to as what a call comes to. -/
def ofReply (m : Machine) : EStateM.Result RuntimeError World Reply →
    EStateM.Result Stop Machine Transfer
  | .ok (.value v) w => .ok (.returned v) { m with world := w }
  | .ok reply w => .ok (.requested reply) { m with world := w }
  | .error e w => .error (.error e) { m with world := w }

theorem native_run (function : Native) (name : String) (m : Machine) (args : List Value) :
    (do
      match ← act (function.invoke name args) with
      | .value v => return .returned v
      | reply => return .requested reply : Exec Transfer) m =
      ofReply m (function.invoke name args m.world) := by
  have hact := act_run m (function.invoke name args)
  cases hresult : function.invoke name args m.world with
  | ok reply w =>
    rw [hresult] at hact
    rw [bind_of_ok hact]
    cases reply <;> rfl
  | error e w =>
    rw [hresult] at hact
    exact bind_of_error hact

theorem ofReply_agree {r r' : EStateM.Result RuntimeError World Reply} (hr : Act.Agree L r r') :
    Agree L m m' (ofReply m r) (ofReply m' r') := by
  cases hr with
  | ok hreply hw =>
    cases hreply with
    | value hv => exact .ok (.returned hv) hw
    | call hcallee hargs => exact .ok (.requested (.call hcallee hargs)) hw
    | spawn hcallee => exact .ok (.requested (.spawn hcallee)) hw
    | depth => exact .ok (.requested .depth) hw
  | error hw => exact .error hw

/-- Calls of values that look the same, before the machine acts on them. No function is called that
depends on tasks or time, unless these are the same. -/
theorem apply_agree (htimed : L.whole = true ∨ ¬ callee.Invokes Native.isTimed args)
    (hw : m.world.Related L m'.world) (hcallee : L.rel callee callee')
    (hargs : List.Forall₂ L.rel args args') :
    Agree L m m' (apply callee args m) (apply callee' args' m') := by
  obtain ⟨hcallee, hargs⟩ := Likeness.unapply_related hcallee hargs
  unfold Value.Invokes at htimed
  unfold apply
  generalize callee.unapply args = f at hcallee hargs htimed
  generalize callee'.unapply args' = f' at hcallee hargs
  obtain ⟨f, args⟩ := f
  obtain ⟨f', args'⟩ := f'
  simp only at hcallee hargs
  have hview := L.view hcallee
  have hrefuse : Agree L m m'
      (.error (.error (.notCallable (f.typeName ++ " is not callable"))) m)
      (.error (.error (.notCallable (f'.typeName ++ " is not callable"))) m') := by
    rw [Likeness.typeName_eq hcallee]
    exact .error hw
  cases f with
  | closure id f env =>
    cases hview with
    | flat hflat => cases hflat
    | closure _ hname hparams =>
      simp only [hname, Code.arity, hparams]
      exact withArity_agree hw hcallee hargs _ fun _ => .ok (.enter hcallee hargs) hw
  | native id name arity function =>
    cases hview with
    | flat hflat => cases hflat
    | native =>
      refine withArity_agree hw hcallee hargs name fun hlength => ?_
      have hspared : L.whole = true ∨ function.isTimed = false := by
        refine htimed.imp_right fun hnot => Bool.eq_false_iff.2 fun hfunction => hnot ?_
        exact ⟨id, name, arity, function, args, rfl, hlength, hfunction⟩
      have hagree : Agree L m m' (ofReply m (function.invoke name args m.world))
          (ofReply m' (function.invoke name args' m'.world)) :=
        ofReply_agree (function.invoke_related name hspared hw hargs)
      rw [← native_run, ← native_run] at hagree
      exact hagree
  | effect e =>
    cases hview with
    | flat hbasic => cases hbasic
    | effect heffect =>
      simp only [heffect.name]
      cases hargs with
      | nil =>
        exact withArity_agree hw hcallee .nil e.name fun _ => .ok (.raise heffect (L.flat rfl)) hw
      | cons hpayload hmore =>
        cases hmore with
        | nil => exact .ok (.raise heffect hpayload) hw
        | cons hsecond hmore =>
          exact withArity_agree hw hcallee (.cons hpayload (.cons hsecond hmore)) e.name fun _ =>
            .ok (.raise heffect (L.flat rfl)) hw
  | continuation id k =>
    cases hview with
    | flat hflat => cases hflat
    | continuation =>
      cases hargs with
      | nil =>
        exact withArity_agree hw hcallee .nil "continuation" fun _ =>
          .ok (.resume hcallee (L.flat rfl)) hw
      | cons hv hmore =>
        cases hmore with
        | nil => exact .ok (.resume hcallee hv) hw
        | cons hsecond hmore =>
          exact withArity_agree hw hcallee (.cons hv (.cons hsecond hmore)) "continuation" fun _ =>
            .ok (.resume hcallee (L.flat rfl)) hw
  | _ => cases hview <;> exact hrefuse

/-- Only functions of the machine ask for something. -/
theorem requested_inv {m m₁ : Machine} {callee : Value} {args : List Value} {reply : Reply}
    (hrun : apply callee args m = .ok (.requested reply) m₁) :
    ∃ id name arity function given, callee.unapply args = (.native id name arity function, given) ∧
      given.length = arity ∧ function.MayReply reply := by
  unfold apply at hrun
  generalize callee.unapply args = f at hrun
  obtain ⟨f, args⟩ := f
  cases f with
  | native id name arity function =>
    obtain ⟨_, h⟩ | ⟨hlength, hfull⟩ := withArity_eq_ok hrun
    · cases h
    refine ⟨id, name, arity, function, args, rfl, hlength, ?_⟩
    have hrun' := (native_run function name m args).symm.trans hfull
    generalize hinvoke : function.invoke name args m.world = r at hrun'
    cases r with
    | ok reply' w =>
      cases reply' with
      | value v => cases hrun'
      | _ =>
        cases hrun'
        exact Native.mayReply_of_invoke hinvoke
    | error e w => cases hrun'
  | closure id f env => obtain ⟨_, h⟩ | ⟨_, h⟩ := withArity_eq_ok hrun <;> cases h
  | effect e =>
    match args, hrun with
    | [], hrun => obtain ⟨_, h⟩ | ⟨_, h⟩ := withArity_eq_ok hrun <;> cases h
    | [_], hrun => cases hrun
    | _ :: _ :: _, hrun => obtain ⟨_, h⟩ | ⟨_, h⟩ := withArity_eq_ok hrun <;> cases h
  | continuation id k =>
    match args, hrun with
    | [], hrun => obtain ⟨_, h⟩ | ⟨_, h⟩ := withArity_eq_ok hrun <;> cases h
    | [_], hrun => cases hrun
    | _ :: _ :: _, hrun => obtain ⟨_, h⟩ | ⟨_, h⟩ := withArity_eq_ok hrun <;> cases h
  | _ => cases hrun

/-- Unless a function of an embedding is called, a call asks for no other call and for nothing about
its thread. -/
theorem plain_of_apply {m m₁ : Machine} {callee : Value} {args : List Value} {reply : Reply}
    (hnative : ∀ id name arity function,
      (callee.unapply args).1 = .native id name arity function → ∀ h, function ≠ .hook h)
    (hrun : apply callee args m = .ok (.requested reply) m₁) : reply.Plain := by
  obtain ⟨id, name, arity, function, given, hunapply, _, hreply⟩ := requested_inv hrun
  have hhook := hnative id name arity function (congrArg Prod.fst hunapply)
  cases reply with
  | value | spawn => trivial
  | call =>
    obtain ⟨h, hfunction⟩ := hreply
    exact hhook h hfunction
  | depth => exact hhook .depth hreply

/-- The number of frames is told by a function that depends on it. -/
theorem invokes_of_depth {ρ : Correspondence} {m m₁ : Machine} {callee : Value} {args : List Value}
    (hrun : apply callee args m = .ok (.requested .depth) m₁) : callee.Invokes ρ.tells args := by
  obtain ⟨id, name, arity, function, given, hunapply, hlength, hreply⟩ := requested_inv hrun
  obtain rfl : function = .hook .depth := hreply
  exact ⟨id, name, arity, _, given, hunapply, hlength, rfl⟩

/-- A task is started by a function that depends on tasks. -/
theorem invokes_of_spawn {m m₁ : Machine} {callee task : Value} {args : List Value}
    (hrun : apply callee args m = .ok (.requested (.spawn task)) m₁) :
    callee.Invokes Native.isTimed args := by
  obtain ⟨id, name, arity, function, given, hunapply, hlength, hreply⟩ := requested_inv hrun
  obtain rfl : function = .spawn := hreply
  exact ⟨id, name, arity, _, given, hunapply, hlength, rfl⟩

end Exec

end Resumable
