import Resumable.Proofs.Expr.Fresh
import Resumable.Proofs.Meaning.Calling

/-!
How a handler is put in force. The effects of its paths are evaluated once each, into locals that no
program mentions; then there is a function for each path, which has captured the effect of its path, and
the handled body runs under a handler that has these functions as its clauses.
-/

namespace Resumable

/-- Effects of different paths have different names. -/
theorem PathFunction.effect_ne {p q : PathFunction} (hne : p.number ≠ q.number) :
    p.effect ≠ q.effect := by
  intro hsame
  have hp : p.effect ∈ groupNames p.number := .head _
  have hq : p.effect ∈ groupNames q.number := by
    rw [hsame]
    exact .head _
  exact hne (eq_of_mem_groupNames hp hq)

/-- A machine that is reached on the way makes the last moves. -/
theorem Progress.Leads.advance {m m' : Machine} (h : Leads (.more m) (.more m')) :
    Leads m.advance m'.advance := by
  cases h with
  | refl => exact .refl _
  | move hrest => exact hrest.trans (.move (.refl _))

/-- Installing a handler needs room for the label and for the activation of the body. -/
theorem Exec.install_room (m : Machine) (acts : List Activation) (clauses : List (Effect × Value))
    (id : Nat) {code : Code Value} (env : List (Symbol × Value)) (harity : code.arity = 0) :
    match m.thread.limits.room acts.length (heightOf acts + 1) with
    | .ok _ => install clauses (.closure id code env) (m.showing acts []) =
        .ok () (m.relabeled.showing (acts ++ [.enter (.closure id code env) code env []
          (some (clauses, m.thread.lastLabel + 1))]) [])
    | .error e => ∃ t, install clauses (.closure id code env) (m.showing acts []) =
        .error (.error e) { m with thread := t } ∧ t.levels = m.thread.levels := by
  have hdraw : drawLabel (m.showing acts []) =
      .ok (m.thread.lastLabel + 1) (m.relabeled.showing acts []) := rfl
  simp only [install, if_pos harity]
  rw [bind_of_ok hdraw, bind_of_ok (modifyThread_run _ _), pushFrame_eq]
  have hframes : (m.relabeled.showing acts []).thread.frames.size = acts.length := by simp
  have hstack : ((m.relabeled.showing acts []).thread.stack.push
      (.label (m.thread.lastLabel + 1))).size = heightOf acts + 1 := by simp
  have hlimits : (m.relabeled.showing acts []).thread.limits = m.thread.limits := rfl
  simp only [hframes, hstack, hlimits]
  cases m.thread.limits.room acts.length (heightOf acts + 1) with
  | ok =>
    simp [Machine.showing, Thread.showing, Activation.enter, Activation.frame, Activation.segment,
      Activation.mark, Activation.installed, Frame.enter, Machine.relabeled]
  | error e => exact ⟨_, rfl, rfl⟩

namespace Meaning

/-- Identities that are passed over one after the other. -/
theorem Memory.skip_succ (n : Nat) (μ : Memory) : μ.skip (n + 1) = (μ.skip n).drawn := by
  induction n generalizing μ with
  | zero => rfl
  | succ n ih => exact ih μ.drawn

theorem Memory.grows_skip (n : Nat) (μ : Memory) : μ.Grows (μ.skip n) := by
  induction n generalizing μ with
  | zero => exact .refl μ
  | succ n ih => exact (μ.grows_withWorld _).trans (ih μ.drawn)

/-- What the function for a path does. -/
def Choice.ofPath (a : Activity) (line : Nat) (clauses : List (Clause Expr)) (p : PathFunction) :
    Choice :=
  { reading := a.reading, line, clauses := clausesFor p.head.path clauses, captured := a.visible }

/-- A function that stands behind an effect makes the choice about that effect. -/
def Prepares (R : Value → Value → Prop) (G : Ground) (Γ : Lexical) (a : Activity) (line : Nat)
    (clauses : List (Clause Expr)) (p : PathFunction) (q : Value × Value) : Prop :=
  ∀ e, q.1 = .effect e → ∃ id f env, q.2 = .closure id f env ∧
    ChoiceIn R G Γ p (.ofPath a line clauses p) e f env

/-- The machine goes on to an instruction that fails as the evaluation does. -/
def Fails (σ : State) (e : RuntimeError) (p : Progress) : Prop :=
  ∃ m, p.Leads (.more m) ∧ NextMeans (σ.finish (.error e)) m.advance

theorem Fails.of_leads {σ : State} {e : RuntimeError} {p q : Progress} (hleads : p.Leads q)
    (h : Fails σ e q) : Fails σ e p := by
  obtain ⟨m, hm, hnext⟩ := h
  exact ⟨m, hleads.trans hm, hnext⟩

/-- The effects of paths are in the slots of their names. -/
def EffectsBound (G : Ground) (Γ : Lexical) (slots : Array Value) :
    List PathFunction → List Value → Prop :=
  List.Forall₂ fun p w => ∃ s n, G.reading.names.find? p.effect = some s ∧
    slotIn Γ.locals s = some n ∧ slots[n]? = some w

/-- The effect of one more path is in the next slot. -/
theorem EffectsBound.declared {G : Ground} {Γ : Lexical} {slots : Array Value}
    {ps : List PathFunction} {ws : List Value} (h : EffectsBound G Γ slots ps ws)
    (hdense : DenseSlots Γ.locals) (hsize : Γ.locals.length < slots.size) {p : PathFunction}
    {s : Symbol} (hs : G.reading.names.find? p.effect = some s)
    (hnumbers : ∀ q ∈ ps, q.number < p.number) (w : Value) :
    EffectsBound G (Γ.declared s) (setSlot slots Γ.locals.length w) (ps ++ [p]) (ws ++ [w]) := by
  refine List.rel_append ?_ (.cons ⟨s, Γ.locals.length, hs, ?_, ?_⟩ .nil)
  · refine ((List.forall₂_and_left _ _).2 ⟨hnumbers, h⟩).imp ?_
    rintro q u ⟨hlt, t, n, ht, hslot, hu⟩
    have hne : (s == t) = false := Ground.ne_of_ne hs ht (PathFunction.effect_ne (by omega))
    have hn := slotIn_lt hdense hslot
    refine ⟨t, n, ht, ?_, ?_⟩
    · rw [slotIn, Lexical.declared, List.find?_cons_of_neg (by simp [hne])]
      exact hslot
    · rw [getElem?_setSlot hsize, if_neg (by omega), hu]
  · simp [slotIn, Lexical.declared, Symbol.beq_iff]
  · rw [getElem?_setSlot hsize, if_pos rfl]

/-- The handler that is made has the effects that the evaluation finds, and is refused as it is. -/
theorem clausesFrom_of_means {μ : Memory} {vs : List Value} {pairs : List (Value × Value)}
    (h : List.Forall₂ (Means μ) vs (pairs.map Prod.fst)) :
    match effectsOf vs with
    | .ok effects => ∃ clauses, clausesFrom pairs = .ok clauses ∧ clauses.map Prod.fst = effects
    | .error e => clausesFrom pairs = .error e := by
  induction pairs generalizing vs with
  | nil =>
    cases h
    exact ⟨[], rfl, rfl⟩
  | cons q pairs ih =>
    obtain ⟨key, clause⟩ := q
    obtain ⟨v, vs, hv, hvs, rfl⟩ := List.forall₂_cons_right_iff.1 h
    have htype := Likeness.typeName_eq (L := meaning μ) hv
    have hrest := ih hvs
    cases hv.unfold.alike with
    | flat hflat => cases key <;> first | rfl | cases hflat
    | @effect _ e heffect =>
      obtain rfl := heffect.eq
      simp only [effectsOf, clausesFrom]
      cases heffects : effectsOf vs with
      | ok effects =>
        rw [heffects] at hrest
        obtain ⟨clauses, hclauses, hfirsts⟩ := hrest
        rw [hclauses]
        exact ⟨(e, clause) :: clauses, rfl, by rw [List.map_cons, hfirsts]⟩
      | error e =>
        rw [heffects] at hrest
        rw [hrest]
        rfl
    | _ => simp only [effectsOf, clausesFrom, htype]

/-- The functions for the paths are the clauses of the handler. -/
theorem choices_mean {R : Value → Value → Prop} {G : Ground} {Γ : Lexical} {a : Activity} {line : Nat}
    {clauses : List (Clause Expr)} {ps : List PathFunction} {made : List (Effect × Value)}
    (h : List.Forall₂ (Prepares R G Γ a line clauses) ps (made.map fun c => (.effect c.1, c.2))) :
    List.Forall₂ (ChoiceMeans R) ((made.map Prod.fst).zip (ps.map (.ofPath a line clauses))) made := by
  induction made generalizing ps with
  | nil =>
    cases h
    exact .nil
  | cons c made ih =>
    obtain ⟨p, ps, hp, hps, rfl⟩ := List.forall₂_cons_right_iff.1 h
    obtain ⟨id, f, env, hclosure, hin⟩ := hp c.1 rfl
    exact .cons ⟨rfl, id, f, env, hclosure, G, Γ, p, hin⟩ (ih hps)

/-- The effects are bound in a scope of their own, and then the body runs under a handler. -/
theorem Laid.handle_inv {G : Ground} {code : Code Value} {Γ Γ₁ : Lexical} {tail : Bool} {i c line : Nat}
    {body : Expr} {clauses : List (Clause Expr)}
    (h : Laid G code Γ tail (.handle line body clauses) i Γ₁ c) :
    Γ₁ = Γ ∧ (∀ p, Own G p) ∧ (∀ c ∈ clauses, ClauseNamed G c) ∧ body.Named G.written ∧
    ∃ (ps : List PathFunction) (body' : Expr) (Γ' : Lexical), body.Lowered body' ∧
      ps.map PathFunction.head = firstClauses clauses ∧
      (∀ p ∈ ps, p.head.effect.path?.isSome = true ∧ p.head.effect.Named G.written) ∧
      ps.Pairwise (fun p q => p.number < q.number) ∧
      (∀ p ∈ ps, TriesLowered line p.effect p.arg p.k (clausesFor p.head.path clauses)
        (clausesFor p.head.path clauses) p.body) ∧
      LayoutStatements G.reading.options G.reading.names code Γ.opened tail
        (ps.map (·.binding line) ++ [.handled line (ps.map (·.clause line)) body']) i Γ' c := by
  obtain ⟨hnamed, _, hlowered, hlayout⟩ := h
  have hparts : ∀ c ∈ clauses, ∀ e ∈ c.effect :: c.body :: c.guard.toList, e.Named G.written := by
    intro c hc e he
    refine hnamed.part ?_
    rw [Expr.parts]
    exact .tail _ (List.mem_flatMap.2 ⟨c, hc, he⟩)
  obtain ⟨hclauses, hown⟩ := hnamed.here
  cases hlowered with
  | atom hatom => cases hatom
  | @handle _ _ _ _ ps hbody hpaths hheads hnumbers hbodies =>
    have hpath : ∀ p ∈ ps, p.head ∈ clauses := by
      intro p hp
      refine mem_of_mem_firstClauses ?_
      rw [← hheads]
      exact List.mem_map_of_mem hp
    generalize hall : ps.map (·.binding line) ++ [_] = all at hlayout
    cases hlayout with
    | literal hliteral => cases hliteral
    | blockEmpty => simp at hall
    | block hstatements =>
      subst hall
      refine ⟨rfl, fun p => ⟨(hown p).1, (hown p).2.1, (hown p).2.2⟩, ?_, hnamed.part (.head _), ps, _, _,
        hbody, hheads, ?_, hnumbers, hbodies, hstatements⟩
      · intro c hc
        refine ⟨(hclauses c hc).1, (hclauses c hc).2, ?_, hparts c hc _ (.tail _ (.head _))⟩
        exact fun g hg => hparts c hc g (.tail _ (.tail _ (Option.mem_toList.2 hg)))
      · exact fun p hp => ⟨hpaths _ (hpath p hp), hparts _ (hpath p hp) _ (.head _)⟩

namespace Hosts

variable {σ : State} {m : Machine} {pre : List Activation} {b : Activation} {a : Activity}
  {acts : List Activity} {G : Ground} {choosing : Choosing} {Γ Γ₁ : Lexical} {tail : Bool}
  {c line : Nat}

/-- The path of an effect is evaluated by one read and further reads of fields. -/
theorem path (pre : List Activation) {e : Expr} {tail : Bool} {c : Nat} (h : Hosts σ m .running)
    (hbears : Bears (Means σ.memory) G choosing Γ [] a b) (hpath : e.path?.isSome = true)
    (hnamed : e.Named G.written)
    (hlaid : Layout G.reading.options G.reading.names b.code Γ tail e b.ip Γ₁ c) :
    Γ₁ = Γ ∧ match a.path σ.memory.world.globals e with
      | .ok v => ∃ w, Means σ.memory v w ∧
          Progress.Leads (.more (m.showing (pre ++ [b]) []))
            (.more (m.showing (pre ++ [{ b with ip := c }]) [w]))
      | .error e => Fails σ e (.more (m.showing (pre ++ [b]) [])) := by
  cases e with
  | name line text =>
    obtain ⟨rfl, s, hname, haccess⟩ := hlaid.name_inv
    refine ⟨rfl, ?_⟩
    have hloads := h.loads pre hbears (G.shows_of_written hnamed.here hname) hname haccess
    rw [Activity.path, hbears.reading, Ground.symbol_eq hname]
    cases hread : a.read σ.memory.world.globals s with
    | some v =>
      rw [hread] at hloads
      obtain ⟨w, hv, hmove⟩ := hloads
      refine ⟨w, hv, .move ?_⟩
      rw [hmove]
      exact .refl _
    | none =>
      rw [hread] at hloads
      refine ⟨_, .refl _, ?_⟩
      rw [hloads]
      exact h.fail _ _ _ _
  | field line target text =>
    have htarget : target.path?.isSome = true := by
      simpa [Expr.path?] using hpath
    cases hlaid with
    | literal hliteral => cases hliteral
    | @field _ _ _ _ _ _ d _ i _ _ s hlaid hname hsymbol hat =>
      obtain ⟨rfl, hfound⟩ := path pre h hbears htarget (hnamed.part (.head _)) hlaid
      refine ⟨rfl, ?_⟩
      rw [Activity.path, hbears.reading, Ground.symbol_eq hname]
      cases hread : a.path σ.memory.world.globals target with
      | error e =>
        rw [hread] at hfound
        exact hfound
      | ok v =>
        rw [hread] at hfound
        obtain ⟨w, hv, hleads⟩ := hfound
        obtain ⟨b', hb⟩ : ∃ b', b' = { b with ip := d } := ⟨_, rfl⟩
        have hat' : b'.code.Indexed b'.ip .getField i (G.reading.shown line) c := by rwa [hb]
        have hconstant : { b' with ip := c }.code.constants[i]? = some (.symbol s) := by
          rw [hb]
          exact hbears.covers.symbol hname hsymbol
        have hmove : (m.showing (pre ++ [b']) ([] ++ [w])).advance = _ :=
          h.sole.running.advance_indexed_over rfl hat' _
        rw [Exec.execute_getField m pre _ [] b'.ip _ w hconstant] at hmove
        have hproject := project_related (L := meaning σ.memory) hv s
        rw [← hb] at hleads
        simp only []
        generalize v.project s = r at hproject ⊢
        generalize w.project s = r' at hproject hmove
        obtain ⟨u, u', rfl, rfl, hu⟩ | ⟨e, rfl, rfl⟩ := hproject.inv
        · refine ⟨u', hu, hleads.trans (.move ?_)⟩
          rw [← List.nil_append [w], hmove, hb]
          exact .refl _
        · refine ⟨_, hleads, ?_⟩
          rw [← List.nil_append [w], hmove]
          exact h.fail _ _ _ _
  | _ => cases hpath
termination_by sizeOf e

/-- The effects of paths are evaluated in order, each into a local of its own. The induction is on the
paths that remain; `qs` are those before. -/
theorem binds (pre : List Activation) {ps qs : List PathFunction} {us : List Value} {last : Expr}
    (h : Hosts σ m .running)
    (hbears : Bears (Means σ.memory) G choosing Γ [] a b) (hinside : Γ.isGlobal = false)
    (hown : ∀ p, Own G p)
    (hpaths : ∀ p ∈ ps, p.head.effect.path?.isSome = true ∧ p.head.effect.Named G.written)
    (hbound : EffectsBound G Γ b.locals qs us)
    (hnumbers : (qs ++ ps).Pairwise fun p q => p.number < q.number)
    (hlaid : LayoutStatements G.reading.options G.reading.names b.code Γ tail
      (ps.map (·.binding line) ++ [last]) b.ip Γ₁ c) :
    match a.paths σ.memory.world.globals (ps.map fun p => p.head.effect) with
    | .ok vs => ∃ Γ' b' ws, Progress.Leads (.more (m.showing (pre ++ [b]) []))
          (.more (m.showing (pre ++ [b']) [])) ∧
        b'.code = b.code ∧ Γ.Grows Γ' ∧ Bears (Means σ.memory) G choosing Γ' [] a b' ∧
        List.Forall₂ (Means σ.memory) vs ws ∧
        EffectsBound G Γ' b'.locals (qs ++ ps) (us ++ ws) ∧
        Layout G.reading.options G.reading.names b'.code Γ' tail last b'.ip Γ₁ c
    | .error e => Fails σ e (.more (m.showing (pre ++ [b]) [])) := by
  induction ps generalizing qs us Γ b with
  | nil =>
    refine ⟨Γ, b, [], .refl _, rfl, .refl Γ, hbears, .nil, ?_, ?_⟩
    · rwa [List.append_nil, List.append_nil]
    · cases hlaid with
      | last hlast => exact hlast
      | cons _ _ hnil => cases hnil
  | cons p ps ih =>
    obtain ⟨⟨hpath, hnamed⟩, hpaths⟩ := List.forall_mem_cons.1 hpaths
    rw [List.map_cons, List.cons_append] at hlaid
    generalize hrest : ps.map (·.binding line) ++ [last] = rest at hlaid
    cases hlaid with
    | last => simp at hrest
    | cons hfirst hpop hmore =>
      subst hrest
      rw [List.map_cons, Activity.paths]
      cases hfirst with
      | literal hliteral => cases hliteral
      | declareGlobal hvalue hglobal =>
        obtain ⟨rfl, _⟩ := h.path pre hbears hpath hnamed hvalue
        simp [hinside] at hglobal
      | @declareLocal _ _ Γ₀ _ _ _ found next _ s _ hvalue _ hname hroom hat hnone =>
        obtain ⟨rfl, hfound⟩ := h.path pre hbears hpath hnamed hvalue
        cases hread : a.path σ.memory.world.globals p.head.effect with
        | error e =>
          rw [hread] at hfound
          exact hfound
        | ok v =>
          rw [hread] at hfound
          obtain ⟨w, hv, hleads⟩ := hfound
          have hkeeps : Progress.Leads (.more (m.showing (pre ++ [{ b with ip := found }]) [w])) _ :=
            h.keeps (b := { b with ip := found }) hat hnone hpop w
          have hhidden := Ground.not_shows (hown p).effect hname
          have hsize := Nat.lt_of_lt_of_le hroom hbears.locals.size
          obtain ⟨b', hb⟩ : ∃ b', b' = { b with
              ip := next + 2, locals := setSlot b.locals Γ₀.locals.length w } := ⟨_, rfl⟩
          have hbears' : Bears (Means σ.memory) G choosing (Γ₀.declared s) [] a b' := by
            rw [hb]
            exact
              { hbears with
                locals := (hbears.locals.write_free (Nat.le_refl _) hroom hv).bind_hidden hhidden hroom
                copied := hbears.copied.congr rfl }
          have hlt : ∀ q ∈ qs, q.number < p.number := fun q hq =>
            (List.pairwise_append.1 hnumbers).2.2 q hq p (.head _)
          have hbound' : EffectsBound G (Γ₀.declared s) b'.locals (qs ++ [p]) (us ++ [w]) := by
            rw [hb]
            exact hbound.declared hbears.locals.dense hsize hname hlt w
          have hinside' : (Γ₀.declared s).isGlobal = false := hinside
          have hmore' : LayoutStatements G.reading.options G.reading.names b'.code (Γ₀.declared s) tail
              (ps.map (·.binding line) ++ [last]) b'.ip Γ₁ c := by
            rw [hb]
            exact hmore
          have hih := ih hbears' hinside' hpaths hbound' (by rwa [List.append_assoc]) hmore'
          have hstart := hleads.trans hkeeps
          rw [← hb] at hstart
          simp only []
          cases hrest : a.paths σ.memory.world.globals (ps.map fun p => p.head.effect) with
          | error e =>
            rw [hrest] at hih
            exact hih.of_leads hstart
          | ok vs =>
            rw [hrest] at hih
            obtain ⟨Γ', b'', ws, hleads', hcode, hgrows, hbears'', hvs, hbound'', hlast⟩ := hih
            refine ⟨Γ', b'', w :: ws, hstart.trans hleads', by rw [hcode, hb],
              (Lexical.grows_declared _ _).trans hgrows, hbears'', .cons hv hvs, ?_, hlast⟩
            rwa [List.append_assoc, List.append_assoc] at hbound''

/-- The function for a path chooses among the clauses for it. -/
theorem choice_in {p : PathFunction} {clauses : List (Clause Expr)} {f : Code Value}
    {env : Env Value} {extra : List Value} {effect : Effect} {s : Symbol} {i id n shown : Nat}
    (hbears : Bears (Means σ.memory) G choosing Γ extra a b)
    (hfunction : LayoutFunction G.reading.options G.reading.names b.code Γ shown none [p.arg, p.k]
      p.body f)
    (hconstant : b.code.constants[i]? = some (.code id f)) (hown : Own G p)
    (hnamed : ∀ c ∈ clauses, ClauseNamed G c)
    (htries : TriesLowered line p.effect p.arg p.k clauses clauses p.body)
    (hs : G.reading.names.find? p.effect = some s) (hslot : slotIn Γ.locals s = some n)
    (heffect : b.locals[n]? = some (.effect effect))
    (hbound : b.bindAll [] f.captures = some env) :
    ChoiceIn (Means σ.memory) G Γ p { reading := a.reading, line, clauses, captured := a.visible }
      effect f env := by
  cases hfunction with
  | @intro _ _ _ _ _ ret _ _ _ hheader hbody hret _ =>
    obtain ⟨arg, _, harg, hrest, hparams⟩ := List.forall₂_cons_left_iff.1 hheader.params_eq
    obtain ⟨k, hk, rfl⟩ := forall₂_singleton_left hrest
    have hname : f.name = none := hheader.name_eq
    have hself : f.selfName = none := by rw [hheader.selfName_eq, hname, selfNameOf]
    have hlocals : (Γ.bodyOf f).locals = [⟨k, 1, 1⟩, ⟨arg, 1, 0⟩] :=
      Lexical.locals_bodyOf_two hparams hself
    have houter : (Γ.bodyOf f).isOuter s = true := by
      rw [Lexical.isOuter, Lexical.outer_bodyOf, List.any_cons, Bool.or_eq_true]
      exact Or.inl (by rw [hslot]; rfl)
    have hroom : 2 ≤ f.localCount := by
      have hroom := hheader.room
      rwa [hparams, hself] at hroom
    have hcovers : G.Covers f := by
      have hcovers := hbears.covers
      cases hcovers with
      | intro _ _ hnested => exact hnested id f (Array.mem_of_getElem? hconstant)
    refine ⟨⟨arg, k, harg, hk, hparams⟩, hself, hroom, hcovers, ?_,
      hbears.copies hheader.captures hheader.distinct hbound, ?_⟩
    · exact
        { reading := hbears.reading
          based := ⟨hown, arg, k, harg, hk, hlocals⟩
          inside := Lexical.isGlobal_bodyOf
          effect := fun t ht => by
            rw [hs] at ht
            cases ht
            exact houter
          named := hnamed
          known := fun c hc => hc
          laid := ⟨p.body, _, _, _, htries, hbody, hret⟩ }
    · rintro t ht ⟨c, hc, hsame⟩
      rw [hs] at ht
      cases ht
      rw [(Activation.get?_bindAll hbound hheader.distinct s).1 c hc hsame]
      have hsource := hheader.captures c hc
      unfold Lexical.Supplies at hsource
      rw [slotIn_congr hsame, hslot] at hsource
      unfold Activation.supply
      cases hwhere : c.source with
      | slot j =>
        rw [hwhere] at hsource
        obtain ⟨hj, _⟩ := hsource
        cases hj
        exact heffect
      | enclosing =>
        rw [hwhere] at hsource
        cases hsource.1

/-- The functions for the paths are made, each behind the effect of its path. The induction is on the
paths that remain. -/
theorem pairs {ps : List PathFunction} {ws : List Value} {clauses : List (Clause Expr)}
    (h : Hosts σ m .running) (hbears : Bears (Means σ.memory) G choosing Γ [] a b)
    (hown : ∀ p, Own G p) (hnamed : ∀ c ∈ clauses, ClauseNamed G c)
    (htries : ∀ p ∈ ps, TriesLowered line p.effect p.arg p.k (clausesFor p.head.path clauses)
      (clausesFor p.head.path clauses) p.body)
    (hbound : EffectsBound G Γ b.locals ps ws)
    (hlaid : LayoutPairs G.reading.options G.reading.names b.code Γ (ps.map (·.clause line)) b.ip Γ₁ c)
    (vs : List Value) :
    Γ₁ = Γ ∧ ∃ pairs m', pairs.map Prod.fst = ws ∧
      Hosts (σ.withMemory (σ.memory.skip ps.length)) m' .running ∧
      Progress.Leads (.more (m.showing (pre ++ [b]) vs)) (.more (m'.showing
        (pre ++ [{ b with ip := c }]) (vs ++ pairs.flatMap fun q => [q.1, q.2]))) ∧
      List.Forall₂ (Prepares (Means (σ.memory.skip ps.length)) G Γ a line clauses) ps pairs := by
  induction ps generalizing σ m b ws vs with
  | nil =>
    cases hbound
    cases hlaid
    exact ⟨rfl, [], m, rfl, h, by simpa using .refl _, .nil⟩
  | cons p ps ih =>
    obtain ⟨htry, htries⟩ := List.forall_mem_cons.1 htries
    obtain ⟨w, ws, ⟨s, n, hs, hslot, hw⟩, hrest, rfl⟩ := List.forall₂_cons_left_iff.1 hbound
    rw [List.map_cons, PathFunction.clause] at hlaid
    cases hlaid with
    | @cons _ _ _ _ _ _ loaded next _ _ _ _ heffect hfunction hmore =>
      obtain ⟨hsame, s', hs', haccess⟩ := heffect.name_inv
      obtain rfl := hsame.symm
      rw [hs] at hs'
      cases hs'
      cases hfunction with
      | literal hliteral => cases hliteral
      | @lambda _ f _ _ _ _ _ i id _ _ _ hlayout hconstant hat =>
        obtain ⟨b₁, hb₁⟩ : ∃ b₁, b₁ = { b with ip := loaded } := ⟨_, rfl⟩
        obtain ⟨b₂, hb₂⟩ : ∃ b₂, b₂ = { b with ip := next } := ⟨_, rfl⟩
        have hbears₁ : Bears (Means σ.memory) G choosing Γ [] a b₁ := by
          rw [hb₁]
          exact { hbears with }
        have hload : (m.showing (pre ++ [b]) vs).advance = .more (m.showing (pre ++ [b₁]) (vs ++ [w])) := by
          rw [hb₁]
          exact h.loads_slot_over (haccess.slot_inv hslot) hw vs
        have hlayout₁ : LayoutFunction G.reading.options G.reading.names b₁.code Γ
            (G.reading.shown line) none [p.arg, p.k] p.body f := by
          rwa [hb₁]
        have hconstant₁ : b₁.code.constants[i]? = some (.code id f) := by rwa [hb₁]
        have hat₁ : b₁.code.Indexed b₁.ip .lambda i (G.reading.shown line) next := by rwa [hb₁]
        obtain ⟨env, henv, hmake⟩ := h.makes pre hbears₁ hlayout₁ hconstant₁ hat₁
        have hmove : (m.showing (pre ++ [b₁]) (vs ++ [w])).advance =
            .more (m.drawn.showing (pre ++ [b₂])
              (vs ++ [w, .closure σ.memory.world.draw.1 f env])) := by
          rw [hmake, hb₁, hb₂, List.append_assoc, List.singleton_append]
        have hgrows := (σ.memory.grows_withWorld _).trans (σ.memory.drawn.grows_skip ps.length)
        have hdrawn := h.withWorld h.world.draw.2 (draw_onward _)
        have hbears₂ : Bears (Means σ.memory.drawn) G choosing Γ [] a b₂ := by
          rw [hb₂]
          exact Bears.mono (fun hu => hu.grow (σ.memory.grows_withWorld _)) { hbears with }
        have hrest₂ : EffectsBound G Γ b₂.locals ps ws := by rwa [hb₂]
        have hmore₂ : LayoutPairs G.reading.options G.reading.names b₂.code Γ
            (ps.map (·.clause line)) b₂.ip Γ₁ c := by
          rwa [hb₂]
        obtain ⟨hΓ, pairs, m', hfirsts, hhosts, hleads, hprepares⟩ :=
          ih hdrawn hbears₂ htries hrest₂ hmore₂ (vs ++ [w, .closure σ.memory.world.draw.1 f env])
        refine ⟨hΓ, (w, .closure σ.memory.world.draw.1 f env) :: pairs, m', by rw [List.map_cons, hfirsts],
          hhosts, .move ?_, .cons ?_ hprepares⟩
        · rw [hload]
          refine .move ?_
          rw [hmove]
          rw [hb₂, List.append_assoc] at hleads
          rw [hb₂]
          exact hleads
        · rintro e rfl
          refine ⟨_, f, env, rfl, ?_⟩
          have hslot₁ : b₁.locals[n]? = some (.effect e) := by rwa [hb₁]
          have hin := choice_in hbears₁ hlayout₁ hconstant₁ (hown p)
            (fun c hc => hnamed c (mem_clausesFor.1 hc).1) htry hs hslot hslot₁ henv
          exact { hin with copied := hin.copied.mono fun hu => hu.grow hgrows }

/-- The activation of a handled body that has just been entered. -/
theorem body_runs {body body' : Expr} {f : Code Value} {env : Env Value} {closure : Value} {i id : Nat}
    {handler : Option (List (Effect × Choice))} {bound : Option (List (Effect × Value) × Nat)}
    {extra : List Value} (hbears : Bears (Means σ.memory) G choosing Γ extra a b)
    (hfunction : LayoutFunction G.reading.options G.reading.names b.code Γ line none [] body' f)
    (hconstant : b.code.constants[i]? = some (.code id f)) (hnamed : body.Named G.written)
    (hlowered : body.Lowered body') (hbound : b.bindAll [] f.captures = some env)
    (hhandler : HandlerMeans (Means σ.memory) handler bound) :
    Runs (Means σ.memory) (.eval body) { reading := a.reading, captured := a.visible, handler }
      (.enter closure f env [] bound) := by
  obtain ⟨_, hin⟩ := function_in hbears hfunction hconstant ⟨nofun, nofun⟩ hnamed hlowered hbound
  obtain ⟨Γ', n, line, hlaid, hret⟩ := hin.body
  have hinside : Γ'.isGlobal = false := by
    rw [hlaid.passes.grows.isGlobal_eq]
    exact Lexical.isGlobal_bodyOf
  refine ⟨G, none, Γ.bodyOf f, ?_, .eval hlaid (.ret hinside hret)⟩
  exact
    { reading := hbears.reading
      covers := hin.covers
      locals := holds_body hin.params hin.selfName
      copied := hin.copied
      effect := nofun
      operands := .nil
      handler := hhandler }

/-- The activation of a handled body, if there is room for it. -/
theorem enters_handled {next : Activity × Control} {choices : List (Effect × Choice)} {id : Nat}
    {f : Code Value} {env : Env Value} {made : List (Effect × Value)} (h : Hosts σ m .running)
    (hacts : List.Forall₂ (Waits (Means σ.memory)) σ.acts pre.reverse)
    (hhandler : next.1.handler = some choices) (harity : f.arity = 0)
    (hruns : ∀ label, Runs (Means σ.memory) next.2 next.1
      (.enter (.closure id f env) f env [] (some (made, label)))) :
    Arrives (σ.enter line next) (Machine.conclude line
      ((do Exec.install made (.closure id f env); return none : Exec (Option Value))
        (m.showing pre []))) := by
  have hinstall := Exec.install_room m pre made id env harity
  have hdepth : pre.length = σ.acts.length := by rw [← List.length_reverse, hacts.length_eq]
  rw [h.limits, hdepth, totalHeight_eq hacts] at hinstall
  rw [State.enter, hhandler, Option.toList_some, List.length_singleton]
  cases hroom : σ.limits.room σ.acts.length (totalHeight σ.acts + 1) with
  | ok =>
    rw [hroom] at hinstall
    rw [bind_of_ok hinstall]
    exact (h.relabeled.goes (Or.inr rfl) hacts (hruns _)).arrives
  | error e =>
    rw [hroom] at hinstall
    obtain ⟨t, hinstall, hlevels⟩ := hinstall
    rw [bind_of_error hinstall]
    obtain ⟨level, hlevel, hphase⟩ := h.sole
    have hafter : Surrounds σ { m with thread := t } := h.toSurrounds.congr rfl rfl rfl rfl rfl
    exact (hafter.fail ⟨level, hlevels.trans hlevel, hphase⟩ line e).arrives

/-- The function for a handled body is made, and runs under the handler that is on the stack. -/
theorem runs_under {body body' : Expr} {f : Code Value} {choices : List (Effect × Choice)}
    {made : List (Effect × Value)} {i id handler next : Nat} (h : Hosts σ m .running)
    (hacts : List.Forall₂ (Waits (Means σ.memory)) acts pre.reverse)
    (hbears : Bears (Means σ.memory) G choosing Γ [] a b) (hnamed : body.Named G.written)
    (hlowered : body.Lowered body')
    (hfunction : LayoutFunction G.reading.options G.reading.names b.code Γ (G.reading.shown line) none []
      body' f)
    (hconstant : b.code.constants[i]? = some (.code id f))
    (hatBody : b.code.Indexed b.ip .lambda i (G.reading.shown line) next)
    (hat : b.code.At next .handle 0 (G.reading.shown line))
    (hchoices : List.Forall₂ (ChoiceMeans (Means σ.memory)) choices made)
    (hwaits : Waits (Means σ.memory) a { b with ip := next + 1 }) :
    Arrives
      ({ σ with memory := σ.memory.drawn, acts := a :: acts }.enter (G.reading.shown line)
        ({ reading := G.reading, captured := a.visible, handler := some choices }, .eval body))
      (m.showing (pre ++ [b]) [.handler handler made]).advance := by
  obtain ⟨env, henv, hlambda⟩ := h.makes pre hbears hfunction hconstant hatBody
  obtain ⟨b₁, hb₁⟩ : ∃ b₁, b₁ = { b with ip := next } := ⟨_, rfl⟩
  obtain ⟨b₂, hb₂⟩ : ∃ b₂, b₂ = { b with ip := next + 1 } := ⟨_, rfl⟩
  have hat₁ : b₁.code.At b₁.ip .handle 0 (G.reading.shown line) := by rwa [hb₁]
  have harity : f.arity = 0 := by
    cases hfunction with
    | intro hheader => exact hheader.params_eq.length_eq.symm
  have hgrows : σ.memory.Grows σ.memory.drawn := Memory.grows_withWorld _ _
  have h₁ : Hosts { σ with memory := σ.memory.drawn, acts := a :: acts } m.drawn .running :=
    (h.withWorld h.world.draw.2 (draw_onward _)).congr rfl rfl rfl
  have hhandle : (m.drawn.showing (pre ++ [b₁])
      ([] ++ [.handler handler made, .closure σ.memory.world.draw.1 f env])).advance = _ :=
    h₁.sole.running.advance_over hat₁ _
  have hlast : { b₁ with ip := b₁.ip + 1 + Op.handle.width } = b₂ := by
    rw [hb₁, hb₂]
    rfl
  rw [show Op.handle.narrow = .handle from rfl, hlast, Exec.execute_handle, List.nil_append] at hhandle
  have hacts₁ : List.Forall₂ (Waits (Means σ.memory.drawn)) (a :: acts) (pre ++ [b₂]).reverse := by
    rw [← hb₂] at hwaits
    rw [List.reverse_append]
    exact (List.Forall₂.cons hwaits hacts).imp fun _ _ hw => hw.mono fun hu => hu.grow hgrows
  rw [hlambda [.handler handler made], List.singleton_append, ← hb₁]
  refine .of_leads (.move (.refl _)) ?_
  rw [hhandle]
  refine h₁.enters_handled hacts₁ rfl harity fun label => ?_
  have hhandler : HandlerMeans (Means σ.memory.drawn) (some choices) (some (made, label)) :=
    .some (hchoices.imp fun _ _ hc => hc.mono fun hu => hu.grow hgrows)
  rw [← hbears.reading]
  exact body_runs (σ := { σ with memory := σ.memory.drawn }) (hbears.mono fun hu => hu.grow hgrows)
    hfunction hconstant hnamed hlowered henv hhandler

/-- The functions for the paths become a handler, and the body runs under it. -/
theorem installs {ps : List PathFunction} {vs ws : List Value} {body body' : Expr}
    {clauses : List (Clause Expr)} (h : Hosts σ m .running)
    (hacts : List.Forall₂ (Waits (Means σ.memory)) acts pre.reverse)
    (hbears : Bears (Means σ.memory) G choosing Γ [] a b) (hown : ∀ p, Own G p)
    (hclauses : ∀ c ∈ clauses, ClauseNamed G c) (hnamed : body.Named G.written)
    (hlowered : body.Lowered body')
    (htries : ∀ p ∈ ps, TriesLowered line p.effect p.arg p.k (clausesFor p.head.path clauses)
      (clausesFor p.head.path clauses) p.body)
    (hvs : List.Forall₂ (Means σ.memory) vs ws) (hbound : EffectsBound G Γ b.locals ps ws)
    (hlaid : Layout G.reading.options G.reading.names b.code Γ tail
      (.handled line (ps.map (·.clause line)) body') b.ip Γ₁ c)
    (hwaits : Waits (Means σ.memory) a { b with ip := c }) :
    Arrives
      (match effectsOf vs with
      | .error e => (σ.withMemory (σ.memory.skip ps.length)).fail (a.reading.shown line) e
      | .ok effects =>
        { σ with memory := σ.memory.skip (ps.length + 2), acts := a :: acts }.enter
          (a.reading.shown line)
          ({ reading := a.reading
             captured := a.visible
             handler := some (effects.zip (ps.map (.ofPath a line clauses))) },
            .eval body))
      (m.showing (pre ++ [b]) []).advance := by
  cases hlaid with
  | literal hliteral => cases hliteral
  | @handled _ f _ _ _ _ _ made next i id _ _ hpairs hatMake hfunction hconstant hatBody hat =>
    obtain ⟨rfl, pairs, m₁, hfirsts, h₁, hleads, hprepares⟩ :=
      h.pairs hbears hown hclauses htries hbound hpairs []
    obtain ⟨b₁, hb₁⟩ : ∃ b₁, b₁ = { b with ip := made } := ⟨_, rfl⟩
    obtain ⟨b₂, hb₂⟩ : ∃ b₂, b₂ = { b with ip := made + 2 } := ⟨_, rfl⟩
    have hlength : pairs.length = ps.length := hprepares.length_eq.symm
    have hmeans : List.Forall₂ (Means σ.memory) vs (pairs.map Prod.fst) := by rwa [hfirsts]
    have heffects := clausesFrom_of_means hmeans
    have hatMake' : b₁.code.At b₁.ip .makeHandler pairs.length (G.reading.shown line) := by
      rw [hb₁, hlength, ← List.length_map]
      exact hatMake
    have hmake : (m₁.showing (pre ++ [b₁]) (pairs.flatMap fun q => [q.1, q.2])).advance = _ :=
      h₁.sole.running.advance_over hatMake' _
    have hnext : { b₁ with ip := b₁.ip + 1 + Op.makeHandler.width } = b₂ := by
      rw [hb₁, hb₂]
      rfl
    rw [show Op.makeHandler.narrow = .makeHandler from rfl, hnext,
      ← List.nil_append (pairs.flatMap fun q => [q.1, q.2]), Exec.execute_makeHandler _ _ _ _ _ pairs rfl]
      at hmake
    rw [← hb₁] at hleads
    refine .of_leads hleads.advance ?_
    rw [hbears.reading]
    cases hfound : effectsOf vs with
    | error e =>
      rw [hfound] at heffects
      rw [heffects] at hmake
      rw [List.nil_append] at hmake
      rw [List.nil_append, hmake]
      exact (h₁.fail (pre ++ [b₂]) [] _ e).arrives
    | ok effects =>
      rw [hfound] at heffects
      obtain ⟨made, hmade, rfl⟩ := heffects
      obtain rfl := clausesFrom_eq_ok hmade
      rw [hmade] at hmake
      have hgrows : σ.memory.Grows (σ.memory.skip ps.length).drawn :=
        (σ.memory.grows_skip _).trans (Memory.grows_withWorld _ _)
      have h₂ : Hosts { σ with memory := (σ.memory.skip ps.length).drawn } m₁.drawn .running :=
        h₁.withWorld h₁.world.draw.2 (draw_onward _)
      have hacts₂ : List.Forall₂ (Waits (Means (σ.memory.skip ps.length).drawn)) acts pre.reverse :=
        hacts.imp fun _ _ hw => hw.mono fun hu => hu.grow hgrows
      have hbears₂ : Bears (Means (σ.memory.skip ps.length).drawn) G choosing Γ₁ [] a b₂ := by
        rw [hb₂]
        exact Bears.mono (fun hu => hu.grow hgrows) { hbears with }
      have hchoices : List.Forall₂ (ChoiceMeans (Means (σ.memory.skip ps.length).drawn)) _ made :=
        (choices_mean hprepares).imp fun _ _ hc =>
          hc.mono fun hu => hu.grow (Memory.grows_withWorld _ _)
      rw [Memory.skip_succ, Memory.skip_succ, hmake]
      refine .of_leads (.move (.refl _)) ?_
      exact h₂.runs_under hacts₂ hbears₂ hnamed hlowered (by rwa [hb₂]) (by rwa [hb₂]) (by rwa [hb₂])
        (by rwa [hb₂]) hchoices (by rw [hb₂]; exact hwaits.mono fun hu => hu.grow hgrows)

/-- The effects of the paths are evaluated once each, and then the body runs under a handler. -/
theorem handle {body : Expr} {clauses : List (Clause Expr)} (h : Hosts σ m .running)
    (hacts : List.Forall₂ (Waits (Means σ.memory)) acts pre.reverse)
    (hbears : Bears (Means σ.memory) G choosing Γ [] a b)
    (hlaid : Laid G b.code Γ tail (.handle line body clauses) b.ip Γ₁ c)
    (hawaits : Awaits G b.code a.isProgram choosing Γ₁ c a.contexts) :
    Arrives (σ.handle a acts line body clauses) (m.showing (pre ++ [b]) []).advance := by
  obtain ⟨rfl, hown, hclauses, hnamed, ps, body', Γ', hlowered, hheads, hpaths, hnumbers, htries, hlaid⟩ :=
    hlaid.handle_inv
  have hinside : Γ₁.opened.isGlobal = false := by simp [Lexical.isGlobal, Lexical.opened]
  have hnone : EffectsBound G Γ₁.opened b.locals [] [] := .nil
  have hbinds := h.binds pre hbears.opened hinside hown hpaths hnone hnumbers hlaid
  have heffects : (firstClauses clauses).map Clause.effect = ps.map fun p => p.head.effect := by
    rw [← hheads, List.map_map]
    rfl
  have hchoices : State.choices a line clauses = ps.map (.ofPath a line clauses) := by
    rw [State.choices, ← hheads, List.map_map]
    rfl
  have hlength : (firstClauses clauses).length = ps.length := by rw [← hheads, List.length_map]
  rw [State.handle, heffects, hchoices, hlength]
  cases hread : a.paths σ.memory.world.globals (ps.map fun p => p.head.effect) with
  | error e =>
    rw [hread] at hbinds
    obtain ⟨m', hleads, hnext⟩ := hbinds
    exact .of_leads hleads.advance hnext.arrives
  | ok vs =>
    rw [hread] at hbinds
    obtain ⟨Γ'', b', ws, hleads, hcode, hgrows, hbears', hvs, hbound, hlast⟩ := hbinds
    refine .of_leads hleads.advance (h.installs hacts hbears' hown hclauses hnamed hlowered htries hvs hbound
      hlast ?_)
    have hleft := hbears'.locals.leave hgrows hbears.locals.based
    rw [← hbears.locals.shown.length_eq, Nat.sub_self, List.drop_zero] at hleft
    exact ⟨G, choosing, Γ₁,
      { hbears' with
        locals := hleft
        copied := hbears'.copied.congr hgrows.outer.symm },
      by rwa [← hcode] at hawaits⟩

end Hosts

end Meaning

end Resumable
