import Resumable.Proofs.Machine.TwinCall
import Resumable.Proofs.Meaning.Choosing

/-!
Calls. A function is entered if there is room for it, and in tail position its activation takes the
place of the one that calls it. An effect goes to the innermost handler with clauses for it, and a
suspended computation goes on above what is not finished.
-/

namespace Resumable

theorem heightOf_reverse (acts : List Activation) : heightOf acts.reverse = heightOf acts := by
  simp [heightOf, stackOf, List.length_flatMap]

/-- A suspended computation does not go on if there are too many frames. -/
theorem Exec.resume_refused {m : Machine} {acts : List Activation} {k : Continuation Value}
    (hdeep : m.thread.limits.maxDepth < acts.length + k.frames.size) (v : Value) :
    resume k v (m.showing acts []) =
      .error (.error (.stackOverflow
        ("maximum recursion depth " ++ toString m.thread.limits.maxDepth ++ " exceeded")))
        (m.showing acts []) := by
  have hsize : (m.showing acts []).thread.frames.size = acts.length := by simp
  have hdeep' : (m.showing acts []).thread.limits.maxDepth < acts.length + k.frames.size := hdeep
  simp only [resume, bind_get_run, hsize]
  rw [ite_run, if_pos hdeep']
  rfl

/-- An effect without a handler. -/
theorem Exec.raise_of_none {m : Machine} {effect : Effect}
    (hnone : findHandler m.thread.handlers (baseOf m.thread.levels) effect m.thread.handlers.size = none)
    (line : Nat) (payload : Value) :
    raise line effect payload m = .error (.error (.unhandledEffect effect.name)) m := by
  rw [raise, bind_get_run]
  cases m.thread.handlers.size with
  | zero => rfl
  | succ bound => rw [raiseWithin_succ, hnone]

/-- A frame for a function is put on top if there is room for it. -/
theorem Exec.pushFrame_room (m : Machine) (acts : List Activation) (closure : Value) (code : Code Value)
    (env : List (Symbol × Value)) (args : List Value) :
    pushFrame closure code env args false (m.showing acts []) =
      match m.thread.limits.room acts.length (heightOf acts) with
      | .ok _ => .ok () (m.showing (acts ++ [.enter closure code env args none]) [])
      | .error e => .error (.error e) (m.showing acts []) := by
  have hframes : (m.showing acts []).thread.frames.size = acts.length := by simp
  have hstack : (m.showing acts []).thread.stack.size = heightOf acts := by simp
  rw [pushFrame_eq, hframes, hstack, Machine.showing_thread, Thread.showing_limits]
  cases m.thread.limits.room acts.length (heightOf acts) with
  | error e => rfl
  | ok =>
    simp [Machine.showing, Thread.showing, Activation.enter, Activation.frame, Activation.segment,
      Activation.mark, Activation.installed, Frame.enter]

namespace Meaning

variable {R : Value → Value → Prop}

theorem HandlerMeans.isSome_eq {choices : Option (List (Effect × Choice))}
    {bound : Option (List (Effect × Value) × Nat)} (h : HandlerMeans R choices bound) :
    bound.isSome = choices.isSome := by
  cases h <;> rfl

/-- An activation holds as many values as the activity. -/
theorem Waits.height_eq {a : Activity} {b : Activation} (h : Waits R a b) :
    b.segment.length = a.height := by
  obtain ⟨G, choosing, Γ, hbears, _⟩ := h
  have hoperands := hbears.operands.length_eq
  have hhandler := hbears.handler.isSome_eq
  rw [List.append_nil] at hoperands
  rw [Activation.segment, List.length_append, ← hoperands, Activity.height, Activation.length_mark]
  cases hb : b.handler <;> cases ha : a.handler <;> simp_all

theorem totalHeight_eq {acts : List Activity} {pre : List Activation}
    (hacts : List.Forall₂ (Waits R) acts pre.reverse) : heightOf pre = totalHeight acts := by
  rw [← heightOf_reverse]
  generalize pre.reverse = above at hacts
  induction hacts with
  | nil => rfl
  | cons hfirst _ ih => rw [heightOf_cons, ih, hfirst.height_eq, totalHeight, totalHeight, List.map_cons,
      List.sum_cons]

/-- A clause that makes the choice about an effect. -/
def Chooses (R : Value → Value → Prop) (c : Effect × Choice) (clause : Value) : Prop :=
  ∃ id f env, clause = .closure id f env ∧ ∃ G Γ p, ChoiceIn R G Γ p c.2 c.1 f env

/-- The clause of a handler for an effect makes the choice about it. -/
theorem find?_chooses {effect : Effect} {choices : List (Effect × Choice)}
    {clauses : List (Effect × Value)} (h : List.Forall₂ (ChoiceMeans R) choices clauses) :
    Option.Rel (Chooses R) (choices.find? fun c => c.1 == effect) (Clauses.find? clauses effect) := by
  induction h with
  | nil => exact .none
  | @cons c c' _ _ hfirst _ ih =>
    obtain ⟨hsame, hchoice⟩ := hfirst
    simp only [Clauses.find?, List.find?_cons, hsame] at ih ⊢
    cases c.1 == effect with
    | false => exact ih
    | true => exact .some hchoice

/-- Activities and activations that are cut at the same handler. -/
structure CutMeans (R : Value → Value → Prop) (pre : List Activation)
    (cut : List Activity × (Effect × Choice) × List Activity)
    (found : Nat × Installed Value × Value) : Prop where
  split : ∃ below b above clauses label, pre = below ++ b :: above ∧
    b.handler = some (clauses, label) ∧ List.Forall₂ (Waits R) cut.1 (b :: above).reverse ∧
    List.Forall₂ (Waits R) cut.2.2 below.reverse ∧ found.1 = (handlersFrom 0 0 below).length ∧
    found.2.1 = ⟨clauses, below.length, heightOf below, label⟩
  chooses : Chooses R cut.2.1 found.2.2

/-- The innermost handler with clauses for an effect is the same. -/
theorem cut_means {acts : List Activity} {pre : List Activation}
    (hacts : List.Forall₂ (Waits R) acts pre.reverse) (effect : Effect) :
    Option.Rel (CutMeans R pre) (cut? effect acts)
      (findHandler (handlersFrom 0 0 pre).toArray 0 effect (handlersFrom 0 0 pre).length) := by
  induction pre using List.reverseRecOn generalizing acts with
  | nil =>
    cases hacts
    exact .none
  | append_singleton pre b ih =>
    rw [List.reverse_append, List.reverse_singleton, List.singleton_append] at hacts
    obtain ⟨a, acts, ha, hrest, rfl⟩ := List.forall₂_cons_right_iff.1 hacts
    have hbelow : Option.Rel (CutMeans R (pre ++ [b]))
        ((cut? effect acts).map fun cut => (a :: cut.1, cut.2.1, cut.2.2))
        (findHandler (handlersFrom 0 0 pre).toArray 0 effect (handlersFrom 0 0 pre).length) := by
      have hfound := ih hrest
      generalize cut? effect acts = cut at hfound
      generalize findHandler _ 0 effect _ = found at hfound
      cases hfound with
      | none => exact .none
      | some hfound =>
        obtain ⟨⟨below, b', above, clauses, label, rfl, hb', hpart, hbelow, hplaces⟩, hchooses⟩ := hfound
        refine .some ⟨⟨below, b', above ++ [b], clauses, label, by simp, hb', ?_, hbelow, hplaces⟩,
          hchooses⟩
        rw [← List.cons_append, List.reverse_append, List.reverse_singleton, List.singleton_append]
        exact .cons ha hpart
    obtain ⟨_, _, _, hbears, _⟩ := id ha
    have hhandler := hbears.handler
    rw [findHandler_concat pre b (Nat.zero_le _), cut?, Activity.choice?]
    generalize a.handler = choices at hhandler
    generalize hbound : b.handler = bound at hhandler
    cases hhandler with
    | none => exact hbelow
    | @some choices bound hchoices =>
      have hfind := @find?_chooses _ effect _ _ hchoices
      simp only [Option.bind_some]
      generalize choices.find? (fun c => c.1 == effect) = choice at hfind
      generalize Clauses.find? bound.1 effect = clause at hfind
      cases hfind with
      | none => exact hbelow
      | some hchooses =>
        exact .some ⟨⟨pre, b, [], bound.1, bound.2, rfl, hbound, .cons ha .nil, hrest, rfl, rfl⟩, hchooses⟩

/-- The activation of a function that has just been entered. -/
theorem FunctionIn.runs {μ : Memory} {G : Ground} {Γ : Lexical} {F : Function} {f : Code Value}
    {env : Env Value} {callee closure : Value} {args args' : List Value}
    {handler : Option (List (Effect × Choice))} {bound : Option (List (Effect × Value) × Nat)}
    (h : FunctionIn (Means μ) G Γ F f env) (hcallee : Means μ callee closure)
    (hargs : List.Forall₂ (Means μ) args args') (hlength : args.length = F.params.length)
    (hhandler : HandlerMeans (Means μ) handler bound) :
    Runs (Means μ) (.eval F.body) (F.activity callee args handler)
      (.enter closure f env args' bound) := by
  obtain ⟨Γ', n, line, hlaid, hret⟩ := h.body
  have hinside : Γ'.isGlobal = false := by
    rw [hlaid.passes.grows.isGlobal_eq]
    exact Lexical.isGlobal_bodyOf
  refine ⟨G, none, Γ.bodyOf f, ?_, .eval hlaid (.ret hinside hret)⟩
  exact
    { reading := h.reading
      covers := h.covers
      locals := h.holds hcallee hargs hlength
      copied := h.copied
      effect := nofun
      operands := .nil
      handler := hhandler }

theorem Application.Means.grow {μ μ' : Memory} {t : Application} {t' : Transfer} (hgrows : μ.Grows μ')
    (h : t.Means μ t') : t.Means μ' t' := by
  cases h with
  | returned hv => exact .returned (hv.grow hgrows)
  | spawn htask => exact .spawn (htask.grow hgrows)
  | enter hcallee hargs hlength =>
    exact .enter (hcallee.grow hgrows) (hargs.imp fun _ _ hv => hv.grow hgrows) hlength
  | raise hpayload => exact .raise (hpayload.grow hgrows)
  | resume hk hv => exact .resume (hk.grow hgrows) (hv.grow hgrows)

/-- Labels of handlers mean nothing. -/
theorem Waits.relabel {a : Activity} {b : Activation} (h : Waits R a b) (label : Nat) :
    Waits R a (b.relabel label) := by
  obtain ⟨G, choosing, Γ, hbears, hawaits⟩ := h
  refine ⟨G, choosing, Γ, { hbears with handler := ?_ }, hawaits⟩
  have hhandler := hbears.handler
  rw [Activation.relabel]
  generalize a.handler = choices at hhandler ⊢
  generalize b.handler = bound at hhandler
  cases hhandler with
  | none => exact .none
  | some hchoices => exact .some hchoices

namespace Hosts

variable {σ : State} {m : Machine} {phase : Phase} {pre : List Activation} {line : Nat}

theorem relabeled (h : Hosts σ m phase) : Hosts σ m.relabeled phase :=
  ⟨⟨h.world, h.fresh, h.waiting⟩, h.limits, h.sole⟩

/-- A new activation, if there is room for it. -/
theorem enters {next : Activity × Control} {closure : Value} {f : Code Value} {env : Env Value}
    {args : List Value} (h : Hosts σ m phase)
    (hacts : List.Forall₂ (Waits (Means σ.memory)) σ.acts pre.reverse) (hnone : next.1.handler = none)
    (hnext : Arrives (σ.goes (next.1 :: σ.acts) next.2)
      (.more (m.showing (pre ++ [.enter closure f env args none]) []))) :
    Arrives (σ.enter line next)
      (.ofCall line (Exec.pushFrame closure f env args false (m.showing pre []))) := by
  have hdepth : pre.length = σ.acts.length := by rw [← List.length_reverse, hacts.length_eq]
  have hheight := totalHeight_eq hacts
  rw [Exec.pushFrame_room, State.enter, hnone, h.limits, hdepth, hheight]
  simp only [Option.toList_none, List.length_nil, Nat.add_zero]
  cases σ.limits.room σ.acts.length (totalHeight σ.acts) with
  | ok => exact hnext
  | error e => exact (h.fail pre [] line e).arrives

/-- A function is called. -/
theorem enterFunction {id : Nat} {f f' : Code Value} {env env' : Env Value} {args args' : List Value}
    {tail : Bool} {raise : Effect → Value → Exec Unit} (h : Hosts σ m phase)
    (hphase : phase = .opening ∨ phase = .running)
    (hacts : List.Forall₂ (Waits (Means σ.memory)) σ.acts pre.reverse)
    (htail : tail = (σ.acts.head?.map Activity.inTail).getD false)
    (hcallee : Means σ.memory (.closure id f env) (.closure id f' env'))
    (hargs : List.Forall₂ (Means σ.memory) args args') (hlength : args.length = f.arity) :
    Arrives (σ.transfer line (.enter id (.closure id f env) args))
      (.ofCall line (Exec.transferWith raise line tail (.enter (.closure id f' env') f' env' args')
        (m.showing pre []))) := by
  obtain ⟨F, hlookup, G, Γ, hin⟩ := hcallee.unfold.inner
  have hparams : F.params = f.params := by
    cases hcallee.unfold.alike with
    | flat hflat => cases hflat
    | closure _ _ hparams => rw [← hin.params, hparams]
  have hlength' : args.length = F.params.length := by rw [hparams]; exact hlength
  have hentered : Arrives (σ.enter line (F.activity (.closure id f env) args none, .eval F.body))
      (.ofCall line (Exec.pushFrame (.closure id f' env') f' env' args' false (m.showing pre []))) :=
    h.enters hacts rfl (h.goes hphase hacts (hin.runs hcallee hargs hlength' .none)).arrives
  rw [State.transfer, hlookup]
  cases hstack : σ.acts with
  | nil =>
    rw [hstack] at htail
    subst htail
    simp only [State.enterFunction, hstack]
    exact hentered
  | cons a acts =>
    rw [hstack] at htail hacts
    cases tail with
    | false =>
      simp only [State.enterFunction, hstack]
      rw [if_neg (by simpa using htail.symm)]
      exact hentered
    | true =>
      obtain ⟨b, rest, ⟨_, _, _, hbears, _⟩, hrest, hpre⟩ := List.forall₂_cons_left_iff.1 hacts
      obtain rfl : pre = rest.reverse ++ [b] := by
        rw [← List.reverse_reverse pre, hpre, List.reverse_cons]
      have hreplace : Exec.transferWith raise line true (.enter (.closure id f' env') f' env' args')
          (m.showing (rest.reverse ++ [b]) []) =
          .ok () (m.showing (rest.reverse ++ [.enter (.closure id f' env') f' env' args' b.handler]) []) :=
        Exec.replaceFrame_showing m rest.reverse b [] (.closure id f' env') f' env' args'
      simp only [State.enterFunction, hstack]
      rw [if_pos (by simpa using htail.symm), hreplace]
      exact (h.goes hphase (by rwa [List.reverse_reverse])
        (hin.runs hcallee hargs hlength' hbears.handler)).arrives

/-- An effect is raised. -/
theorem raise {effect : Effect} {payload payload' : Value} (h : Hosts σ m phase)
    (hphase : phase = .opening ∧ pre = [] ∨ phase = .running)
    (hacts : List.Forall₂ (Waits (Means σ.memory)) σ.acts pre.reverse)
    (hpayload : Means σ.memory payload payload') :
    Arrives (σ.raise line effect payload)
      (.ofCall line (Exec.raise line effect payload' (m.showing pre []))) := by
  have hcut := cut_means hacts effect
  have hfind : findHandler (m.showing pre []).thread.handlers
      (Exec.baseOf (m.showing pre []).thread.levels) effect (m.showing pre []).thread.handlers.size =
      findHandler (handlersFrom 0 0 pre).toArray 0 effect (handlersFrom 0 0 pre).length := by
    simp [h.sole.baseOf_eq]
  rw [State.raise]
  generalize cut? effect σ.acts = cut at hcut
  generalize findHandler (handlersFrom 0 0 pre).toArray 0 effect _ = found at hcut hfind
  cases hcut with
  | none =>
    rw [Exec.raise_of_none hfind]
    exact (h.fail pre [] line _).arrives
  | @some cut found hcut =>
    obtain ⟨part, ⟨effect', choice⟩, rest⟩ := cut
    obtain ⟨index, installed, clause⟩ := found
    obtain ⟨⟨below, b, above, clauses, label, rfl, hb, hpart, hrest, hindex, hinstalled⟩, hchooses⟩ := hcut
    obtain ⟨id, f, env, hclause, G, Γ, p, hin⟩ := hchooses
    simp only at hpart hrest hindex hinstalled hclause hin
    subst hindex hinstalled hclause
    obtain ⟨bound, hbound⟩ : ∃ bound, (m.showing (below ++ b :: above) []).thread.handlers.size =
        bound + 1 := by
      refine ⟨_, (Nat.succ_pred_eq_of_pos ?_).symm⟩
      simp only [Machine.showing_thread, Thread.showing_handlers, List.size_toArray,
        handlersFrom_append, handlersFrom_cons, Activation.installed_eq hb, List.length_append,
        List.length_singleton]
      omega
    obtain ⟨_, _, hparams⟩ := hin.params
    have harity : f.arity = 2 := by
      rw [Code.arity, hparams.2.2]
      rfl
    have hrunning : phase = .running := hphase.resolve_left fun hnil => by simp at hnil
    subst hrunning
    obtain ⟨hgrows, hfresh⟩ := h.fresh.suspend part
    obtain ⟨hid, hdrawn⟩ := h.world.draw_eq rfl
    have hrun : Exec.raise line effect payload' (m.showing (below ++ b :: above) []) =
        Exec.pushFrame (.closure id f env) f env
          [payload', .continuation m.world.draw.1 (.ofActs (b :: above))] false
          (m.drawn.showing below []) := by
      rw [Exec.raise, bind_get_run, hbound, Exec.raiseWithin_succ, hfind]
      simp only
      rw [bind_of_ok (Exec.capture_showing m below above b clauses label hb), bind_of_ok (Exec.draw_run _)]
      have hargs : ∀ k, Exec.clauseArgs (.closure id f env) payload' k = [payload', k] := fun k =>
        if_neg (by simp [Value.arity?, harity])
      rw [hargs, bind_of_ok (Exec.apply_clause _ harity _ _)]
      rfl
    rw [hrun, hid]
    have hsuspended : Means (σ.memory.suspend part).2 (σ.memory.suspend part).1
        (.continuation σ.memory.world.draw.1 (.ofActs (b :: above))) :=
      .fold ⟨.continuation rfl, part, List.lookup_cons_self, b, above, rfl, by rw [hb]; rfl,
        hpart.imp fun _ _ hwaits => hwaits.mono fun hu => hu.grow hgrows⟩
    have hhosts : Hosts { σ with memory := (σ.memory.suspend part).2, acts := rest } m.drawn .running :=
      (h.grown hgrows hfresh hdrawn).congr rfl rfl rfl
    have hrest' : List.Forall₂ (Waits (Means (σ.memory.suspend part).2)) rest below.reverse :=
      hrest.imp fun _ _ hwaits => hwaits.mono fun hu => hu.grow hgrows
    have hchoice : ChoiceIn (Means (σ.memory.suspend part).2) G Γ p choice effect' f env :=
      { hin with copied := hin.copied.mono fun hu => hu.grow hgrows }
    refine hhosts.enters hrest' (Raised.handler_select _ _ _) ?_
    refine hhosts.select hrest' ?_ rfl rfl rfl hchoice.tries
    exact
      { reading := hchoice.tries.reading
        covers := hchoice.covers
        locals := hchoice.holds (hpayload.grow hgrows) hsuspended
        copied := hchoice.copied
        effect := by
          rintro _ _ ⟨⟩
          exact hchoice.effect
        operands := .nil
        handler := .none }

/-- The innermost activation gets a value. -/
theorem gets {acts : List Activity} {v w : Value} (h : Hosts σ m phase)
    (hphase : phase = .opening ∨ phase = .running)
    (hacts : List.Forall₂ (Waits (Means σ.memory)) acts pre.reverse) (hne : acts ≠ [])
    (hv : Means σ.memory v w) : NextMeans (σ.goes acts (.give v)) (.more (m.showing pre [w])) := by
  cases hacts' : acts with
  | nil => exact absurd hacts' hne
  | cons a acts =>
    rw [hacts'] at hacts
    obtain ⟨b, rest, hb, hrest, hpre⟩ := List.forall₂_cons_left_iff.1 hacts
    obtain rfl : pre = rest.reverse ++ [b] := by
      rw [← List.reverse_reverse pre, hpre, List.reverse_cons]
    rw [← List.append_nil [w], ← Machine.showing_pushAll]
    exact h.goes hphase (by rwa [List.reverse_reverse]) (hb.give hv)

/-- The same activations are finished. -/
theorem drops {tail : Bool} (h : Hosts σ m phase)
    (hacts : List.Forall₂ (Waits (Means σ.memory)) σ.acts pre.reverse)
    (htail : tail = (σ.acts.head?.map Activity.inTail).getD false) :
    ∃ pre', Exec.dropFinished tail (m.showing pre []) = .ok () (m.showing pre' []) ∧
      List.Forall₂ (Waits (Means σ.memory)) (dropFinished σ.acts) pre'.reverse := by
  generalize σ.acts = acts at hacts htail
  cases acts with
  | nil =>
    subst htail
    exact ⟨pre, Exec.dropFinished_false _, hacts⟩
  | cons a acts =>
    obtain ⟨b, rest, hb, hrest, hpre⟩ := List.forall₂_cons_left_iff.1 hacts
    obtain rfl : pre = rest.reverse ++ [b] := by
      rw [← List.reverse_reverse pre, hpre, List.reverse_cons]
    obtain ⟨_, _, _, hbears, _⟩ := id hb
    have hhandler := hbears.handler.isSome_eq
    have hlength := hrest.length_eq
    rw [Exec.dropFinished_showing, h.sole.baseOf_eq]
    cases acts with
    | nil =>
      obtain rfl : rest = [] := by simpa using hlength.symm
      rw [if_neg (by simp)]
      exact ⟨_, rfl, hacts⟩
    | cons a' acts =>
      obtain rfl : tail = a.inTail := htail
      have hne : 0 < rest.reverse.length := by
        rw [List.length_reverse, ← hlength]
        exact Nat.succ_pos _
      have hiff : (a.inTail = true ∧ b.handler = none ∧ 0 < rest.reverse.length) ↔
          (a.inTail && a.handler.isNone) = true := by
        rw [Bool.and_eq_true, ← Option.isNone_iff_eq_none, ← Option.not_isSome, hhandler,
          Option.not_isSome]
        exact ⟨fun hdrop => ⟨hdrop.1, hdrop.2.1⟩, fun hdrop => ⟨hdrop.1, hdrop.2, hne⟩⟩
      have hdropped : dropFinished (a :: a' :: acts) =
          if (a.inTail && a.handler.isNone) = true then a' :: acts else a :: a' :: acts := rfl
      rw [hdropped]
      by_cases hdrop : (a.inTail && a.handler.isNone) = true
      · rw [if_pos (hiff.2 hdrop), if_pos hdrop]
        exact ⟨_, rfl, by rwa [List.reverse_reverse]⟩
      · rw [if_neg (mt hiff.1 hdrop), if_neg hdrop]
        exact ⟨_, rfl, hacts⟩

/-- A suspended computation goes on. -/
theorem resume {id : Nat} {k k' : Continuation Value} {v v' : Value} {tail : Bool}
    {raise : Effect → Value → Exec Unit} (h : Hosts σ m phase)
    (hphase : phase = .opening ∨ phase = .running)
    (hacts : List.Forall₂ (Waits (Means σ.memory)) σ.acts pre.reverse)
    (htail : tail = (σ.acts.head?.map Activity.inTail).getD false)
    (hk : Means σ.memory (.continuation id k) (.continuation id k')) (hv : Means σ.memory v v') :
    Arrives (σ.transfer line (.resume id v))
      (.ofCall line (Exec.transferWith raise line tail (.resume k' v') (m.showing pre []))) := by
  obtain ⟨part, hlookup, b, above, rfl, hb, hpart⟩ := hk.unfold.inner
  obtain ⟨pre', hdrop, hacts'⟩ := h.drops hacts htail
  obtain ⟨⟨clauses, label⟩, hhandler⟩ := Option.isSome_iff_exists.1 hb
  have hlength : (b :: above).length = part.length := by
    rw [hpart.length_eq, List.length_reverse]
  have hlength' : pre'.length = (dropFinished σ.acts).length := by
    rw [hacts'.length_eq, List.length_reverse]
  have hrun : Exec.transferWith raise line tail (.resume (.ofActs (b :: above)) v') (m.showing pre []) =
      Exec.resume (.ofActs (b :: above)) v' (m.showing pre' []) := bind_of_ok hdrop
  rw [State.transfer, hlookup, hrun]
  simp only [State.resume]
  obtain ⟨hdeep, _⟩ | ⟨hroom, hresumed⟩ :=
    Exec.resume_showing m pre' above b clauses label hhandler v'
  · have hsize : (Continuation.ofActs (b :: above)).frames.size = (b :: above).length := by
      simp [Continuation.ofActs]
    rw [Exec.resume_refused (by rwa [hsize])]
    rw [h.limits, hlength', hlength] at hdeep
    rw [if_pos hdeep, h.limits]
    exact (h.fail pre' [] line _).arrives
  · rw [h.limits, hlength', hlength] at hroom
    rw [if_neg hroom, hresumed]
    have hpart' : List.Forall₂ (Waits (Means σ.memory)) part
        (b.relabel (m.thread.lastLabel + 1) :: above).reverse := by
      rw [List.reverse_cons] at hpart ⊢
      obtain ⟨upper, a, rfl, hupper, ha⟩ := forall₂_concat_left hpart.flip
      exact List.rel_append hupper.flip (.cons (Waits.relabel ha _) .nil)
    refine (h.relabeled.gets hphase ?_ ?_ hv).arrives
    · rw [List.reverse_append]
      exact List.rel_append hpart' hacts'
    · rw [Ne, List.append_eq_nil_iff]
      rintro ⟨rfl, -⟩
      cases hlength

/-- A value that needs no activation. -/
theorem returns {v w : Value} (h : Hosts σ m phase)
    (hphase : phase = .opening ∧ pre = [] ∨ phase = .running ∧ pre ≠ [])
    (hacts : List.Forall₂ (Waits (Means σ.memory)) σ.acts pre.reverse) (hv : Means σ.memory v w) :
    Arrives (σ.hand v σ.acts) (.more (m.showing pre [w])) := by
  obtain ⟨rfl, rfl⟩ | ⟨rfl, hne⟩ := hphase
  · obtain ⟨t, hgiven⟩ := h.sole.advance_given w
    have hresult : OutcomesRelated (Means σ.memory) (.ok v) (.ok w) := hv
    have hafter : Surrounds σ { m with thread := t } := h.toSurrounds.congr rfl rfl rfl rfl rfl
    cases hstack : σ.acts with
    | nil =>
      refine .of_leads (.move (.refl _)) (NextMeans.arrives ?_)
      rw [hgiven]
      exact hafter.finish hresult
    | cons a acts =>
      rw [hstack] at hacts
      cases hacts
  · have hnonempty : σ.acts ≠ [] := by
      intro hnil
      rw [hnil] at hacts
      exact hne (List.reverse_eq_nil_iff.1 (List.forall₂_nil_left_iff.1 hacts))
    have hgets := h.gets (Or.inr rfl) hacts hnonempty hv
    cases hstack : σ.acts with
    | nil => exact absurd hstack hnonempty
    | cons a acts =>
      rw [hstack] at hgets
      exact hgets.arrives

/-- A task is started. -/
theorem spawn {task task' : Value} (h : Hosts σ m phase)
    (hphase : phase = .opening ∧ pre = [] ∨ phase = .running ∧ pre ≠ [])
    (hacts : List.Forall₂ (Waits (Means σ.memory)) σ.acts pre.reverse)
    (htask : Means σ.memory task task') :
    NextMeans (σ.spawn task) (.more ((m.showing pre []).spawning task')) := by
  have hgrows := σ.memory.grows_withWorld
    { σ.memory.world with tasks := σ.memory.world.tasks.draw.2 }
  obtain ⟨hid, hdrawn⟩ := h.world.drawTask rfl
  have hwaits : ThreadWaits σ.memory σ.limits σ.acts (m.showing pre []).thread := by
    intro n
    have hpush : (m.showing pre []).thread.push (.int n) = (m.showing pre [.int n]).thread := by
      simp [Thread.push, Machine.showing, Thread.showing]
    rw [hpush]
    obtain ⟨rfl, rfl⟩ | ⟨rfl, hne⟩ := hphase
    · rw [List.forall₂_nil_right_iff.1 hacts]
      exact .given h.sole h.limits rfl ((meaning σ.memory).flat rfl)
    · have hnonempty : σ.acts ≠ [] := by
        intro hnil
        rw [hnil] at hacts
        exact hne (List.reverse_eq_nil_iff.1 (List.forall₂_nil_left_iff.1 hacts))
      have hgets := h.gets (Or.inr rfl) hacts hnonempty ((meaning σ.memory).flat (v := .int n) rfl)
      cases hgets with
      | more hm => exact hm.thread
  exact .more
    { world := related_grow hgrows hdrawn
      fresh := ⟨h.fresh.functions, h.fresh.continuations⟩
      waiting := .cons ⟨hid, hwaits.grow hgrows⟩
        (h.waiting.imp fun _ _ hp => ⟨hp.1, hp.2.grow hgrows⟩)
      thread := .made ⟨_, rfl, rfl, rfl, rfl⟩ h.limits rfl (htask.grow hgrows) .nil }

/-- What a call comes to is done. -/
theorem transfer {t : Application} {t' : Transfer} {tail : Bool} (h : Hosts σ m phase)
    (hphase : phase = .opening ∧ pre = [] ∨ phase = .running ∧ pre ≠ [])
    (hacts : List.Forall₂ (Waits (Means σ.memory)) σ.acts pre.reverse)
    (htail : tail = (σ.acts.head?.map Activity.inTail).getD false) (ht : t.Means σ.memory t') :
    Arrives (σ.transfer line t)
      (.ofCall line (Exec.transferWith (Exec.raise line) line tail t' (m.showing pre []))) := by
  have hactive : phase = .opening ∨ phase = .running := hphase.imp And.left And.left
  cases ht with
  | @returned _ w hv =>
    have hpush : Exec.transferWith (Exec.raise line) line tail (.returned w) (m.showing pre []) =
        .ok () (m.showing pre [w]) := Exec.push_showing m pre [] w
    rw [hpush]
    exact h.returns hphase hacts hv
  | spawn htask => exact (h.spawn hphase hacts htask).arrives
  | enter hcallee hargs hlength => exact h.enterFunction hactive hacts htail hcallee hargs hlength
  | raise hpayload => exact h.raise (hphase.imp_right And.left) hacts hpayload
  | resume hk hv => exact h.resume hactive hacts htail hk hv

/-- A value is called. -/
theorem call {callee callee' : Value} {args args' : List Value} {tail : Bool} (h : Hosts σ m phase)
    (hphase : phase = .opening ∧ pre = [] ∨ phase = .running ∧ pre ≠ [])
    (hacts : List.Forall₂ (Waits (Means σ.memory)) σ.acts pre.reverse)
    (htail : tail = (σ.acts.head?.map Activity.inTail).getD false)
    (hcallee : Means σ.memory callee callee') (hargs : List.Forall₂ (Means σ.memory) args args') :
    Arrives (σ.call line callee args)
      (.ofCall line (Exec.call callee' args' line tail (m.showing pre []))) := by
  have happlies := apply_applies (m := m.showing pre []) h.world hcallee hargs
  rw [State.call, Exec.call]
  generalize Application.apply callee args σ.memory.world = r at happlies
  generalize hr : Exec.apply callee' args' (m.showing pre []) = r' at happlies
  cases happlies with
  | error hw honward =>
    rw [bind_of_error hr]
    exact ((h.withWorld hw honward).fail pre [] line _).arrives
  | @ok _ _ w _ ht hw honward =>
    have hgrows := σ.memory.grows_withWorld w
    rw [bind_of_ok hr]
    refine (h.withWorld hw honward).transfer hphase ?_ htail (ht.grow hgrows)
    exact hacts.imp fun _ _ hwaits => hwaits.mono fun hu => hu.grow hgrows

end Hosts

end Meaning

end Resumable
