import Resumable.Proofs.Meaning.Choosing

/-!
What is done with a value that has been awaited. Jumps at the end of a branch are moves of the machine
that the evaluation does not see.
-/

namespace Resumable.Meaning

theorem Follows.arrives {n : Nat} {next : Next} {m : Machine} (h : Follows n next m) :
    Arrives next (.more m) := by
  obtain ⟨q, hleads, hnext⟩ | ⟨σ, rfl, hm, _⟩ := h
  · exact ⟨q, .move hleads, hnext⟩
  · exact NextMeans.arrives (.more hm)

namespace Activity

variable (a : Activity) (fill : List Value) (names : List String)

@[simp]
theorem contexts_pass : (a.pass fill names).contexts = a.contexts := by
  unfold pass
  split <;> rfl

@[simp]
theorem isProgram_pass : (a.pass fill names).isProgram = a.isProgram := by
  unfold pass
  split <;> rfl

theorem weight_pass : (a.pass fill names).weight = a.weight := by
  rw [weight, contexts_pass, weight]

end Activity

/-- Names that are passed over are bound to what is in their slots. -/
theorem Bears.passes {R : Value → Value → Prop} {G : Ground} {choosing : Choosing} {Γ Γ' : Lexical}
    {extra : List Value} {a : Activity} {b : Activation} {names : List String}
    (h : Bears R G choosing Γ extra a b) (hglobal : a.isGlobal = Γ.isGlobal)
    (hwritten : ∀ name ∈ names, G.written name) (hpasses : Lexical.Passes G b.code names Γ Γ') :
    ∃ fill, Bears R G choosing Γ' extra (a.pass fill names) b := by
  have hΓ := hpasses.eq
  have hroom := hpasses.room h.locals.room
  unfold Lexical.passed at hΓ
  cases hinside : Γ.isGlobal with
  | true =>
    rw [if_pos hinside] at hΓ
    refine ⟨[], ?_⟩
    rw [hΓ, Activity.pass, if_pos (hglobal.trans hinside)]
    exact h
  | false =>
    rw [if_neg (by simp [hinside])] at hΓ
    rw [hΓ] at hroom ⊢
    have hshown : ∀ s ∈ names.map G.reading.symbol, G.shows s = true := by
      intro s hs
      obtain ⟨name, hname, rfl⟩ := List.mem_map.1 hs
      obtain ⟨s, hs⟩ := Option.isSome_iff_exists.1 (hpasses.known name hname)
      rw [Ground.symbol_eq hs]
      exact G.shows_of_written (hwritten name hname) hs
    obtain ⟨fill, hlength, hlocals⟩ := h.locals.pass_all _ hshown hroom
    rw [List.length_map] at hlength
    refine ⟨fill, ?_⟩
    rw [Activity.pass, if_neg (by simp [hglobal, hinside]), hlength, Nat.sub_self, List.replicate_zero,
      List.append_nil, h.reading]
    exact
      { h with
        reading := rfl
        locals := hlocals
        copied := h.copied.congr (Lexical.outer_declaredAll _ _) }

namespace Hosts

variable {σ : State} {m : Machine} {pre : List Activation} {b : Activation} {a : Activity}
  {acts : List Activity} {G : Ground} {choosing : Choosing} {Γ Γ₁ Γ₂ : Lexical} {v : Value}
  {n c d k line : Nat} {cs : List Context}

/-- A value decides where to go on. -/
theorem decides (h : Hosts σ m .running) (hbears : Bears (Means σ.memory) G choosing Γ [v] a b)
    (hat : b.code.At b.ip .jumpIfFalse k line) :
    ∃ b', (m.showing (pre ++ [b]) []).advance = .more (m.showing (pre ++ [b']) []) ∧
      b'.ip = (if v.isTruthy then b.ip + 3 else b.ip + k) ∧ b'.code = b.code ∧
      Bears (Means σ.memory) G choosing Γ [] a b' := by
  obtain ⟨ops, vs, hoperands, hvs, hbears'⟩ := hbears.split
  obtain ⟨w, hv, rfl⟩ := forall₂_singleton_left hvs
  have htruthy := Likeness.isTruthy_eq (L := meaning σ.memory) hv
  rw [h.sole.running.advance_execute rfl hat hoperands, show Op.jumpIfFalse.narrow = .jumpIfFalse from rfl,
    ← List.nil_append [w], Exec.execute_jumpIfFalse, htruthy]
  cases v.isTruthy with
  | true => exact ⟨_, rfl, rfl, rfl, { hbears' with }⟩
  | false => exact ⟨_, rfl, rfl, rfl, { hbears' with }⟩

/-- Of two branches the other one is passed over. -/
theorem tests_else {whenTrue whenFalse : Expr} (h : Hosts σ m .running)
    (hacts : List.Forall₂ (Waits (Means σ.memory)) acts pre.reverse)
    (hbears : Bears (Means σ.memory) G choosing Γ [v] a b)
    (hat : b.code.At b.ip .jumpIfFalse k line) (hk : b.ip + k = c + 3)
    (htrue : Laid G b.code Γ (a.contexts.all Context.isTransparent) whenTrue (b.ip + 3) Γ₁ c)
    (hend : b.code.At c .jump n line) (hn : c + n = d)
    (hfalse : Laid G b.code Γ₁ (a.contexts.all Context.isTransparent) whenFalse (c + 3) Γ₂ d)
    (hawaits : Awaits G b.code a.isProgram choosing Γ₂ d a.contexts) :
    ∃ fill, Arrives (σ.give a acts fill v (.test whenTrue (some whenFalse) :: a.contexts))
      (m.showing (pre ++ [b]) []).advance := by
  obtain ⟨b', hmove, hip, hcode, hbears'⟩ := h.decides hbears hat
  have hglobal : a.isGlobal = Γ.isGlobal := by
    rw [Activity.isGlobal_eq_of_awaits hawaits, hfalse.passes.grows.isGlobal_eq,
      htrue.passes.grows.isGlobal_eq]
  rw [hmove]
  rw [← hcode] at htrue hend hfalse hawaits
  cases hv : v.isTruthy with
  | true =>
    rw [hv, if_pos rfl] at hip
    rw [← hip] at htrue
    refine ⟨[], NextMeans.arrives ?_⟩
    simp only [State.give, hv]
    exact h.goes (Or.inr rfl) hacts ⟨G, choosing, Γ, hbears'.wait (c := .passing whenFalse.declares) rfl,
      .eval htrue (.passing hfalse.1.declares hfalse.passes (.jump hend (hn ▸ hawaits)))⟩
  | false =>
    rw [hv, if_neg (by simp), hk] at hip
    rw [← hip] at hfalse
    obtain ⟨fill, hpassed⟩ := hbears'.passes hglobal htrue.1.declares htrue.passes
    refine ⟨fill, NextMeans.arrives ?_⟩
    simp only [State.give, hv]
    exact h.goes (Or.inr rfl) hacts ⟨G, choosing, Γ₁, hpassed,
      .eval (by rwa [Activity.contexts_pass]) (by simpa using hawaits)⟩

/-- If there is only one branch, the value is `none` where it is passed over. -/
theorem tests_only {whenTrue : Expr} (h : Hosts σ m .running)
    (hacts : List.Forall₂ (Waits (Means σ.memory)) acts pre.reverse)
    (hbears : Bears (Means σ.memory) G choosing Γ [v] a b)
    (hat : b.code.At b.ip .jumpIfFalse k line) (hk : b.ip + k = c + 3)
    (htrue : Laid G b.code Γ (a.contexts.all Context.isTransparent) whenTrue (b.ip + 3) Γ₁ c)
    (hend : b.code.At c .jump n line) (hn : c + n = c + 4) (hnone : b.code.At (c + 3) .pushNone 0 line)
    (hawaits : Awaits G b.code a.isProgram choosing Γ₁ (c + 4) a.contexts) :
    ∃ fill, Arrives (σ.give a acts fill v (.test whenTrue none :: a.contexts))
      (m.showing (pre ++ [b]) []).advance := by
  obtain ⟨b', hmove, hip, hcode, hbears'⟩ := h.decides hbears hat
  have hglobal : a.isGlobal = Γ.isGlobal := by
    rw [Activity.isGlobal_eq_of_awaits hawaits, htrue.passes.grows.isGlobal_eq]
  rw [hmove]
  rw [← hcode] at htrue hend hnone hawaits
  cases hv : v.isTruthy with
  | true =>
    rw [hv, if_pos rfl] at hip
    rw [← hip] at htrue
    refine ⟨[], NextMeans.arrives ?_⟩
    simp only [State.give, hv]
    exact h.goes (Or.inr rfl) hacts ⟨G, choosing, Γ, hbears', .eval htrue (.jump hend (hn ▸ hawaits))⟩
  | false =>
    rw [hv, if_neg (by simp), hk] at hip
    rw [← hip] at hnone
    obtain ⟨fill, hpassed⟩ := hbears'.passes hglobal htrue.1.declares htrue.passes
    refine ⟨fill, ?_⟩
    simp only [State.give, hv]
    refine .of_leads (.move (.refl _)) (h.gives_none hacts hpassed hnone ?_).arrives
    rw [hip]
    simpa using hawaits

variable {r : Raised} {p : PathFunction}

/-- If a guard holds, its clause is chosen, and otherwise the others are tried. -/
theorem guards {clause : Clause Expr} {body' : Expr} {rest : List (Clause Expr)} (h : Hosts σ m .running)
    (hacts : List.Forall₂ (Waits (Means σ.memory)) acts pre.reverse)
    (hbears : Bears (Means σ.memory) G (some (r, p)) Γ₁ [v] a b)
    (hcontexts : a.contexts = [.guard r clause rest]) (hprogram : a.isProgram = false)
    (hgrows : Γ.opened.Grows Γ₁) (hat : b.code.At b.ip .jumpIfFalse k line) (hk : b.ip + k = d + 3) (hmem : clause ∈ r.choice.clauses)
    (hbody : clause.body.Lowered body')
    (hbound : Layout G.reading.options G.reading.names b.code Γ true
      ((clause.lowered body').bound p.arg p.k) (b.ip + 3) Γ d)
    (hend : b.code.At d .jump n line) (hret : ∃ line, b.code.At (d + n) .ret 0 line)
    (hrest : LaidTries G b.code Γ p r.choice rest (d + 3)) :
    Arrives (σ.give a acts [] v [.guard r clause rest]) (m.showing (pre ++ [b]) []).advance := by
  obtain ⟨b', hmove, hip, hcode, hbears'⟩ := h.decides hbears hat
  obtain ⟨_, hret⟩ := hret
  rw [hmove]
  rw [← hcode] at hbound hend hret hrest
  have hleft : Bears (Means σ.memory) G (some (r, p)) Γ [] { a with locals := [], contexts := [] } b' := by
    have hlocals := hbears'.locals.leave hgrows
      (by rintro _ _ ⟨⟩; exact ⟨_, hrest.based, List.suffix_refl _⟩)
    rw [hrest.based.shown_eq, List.length_nil, Nat.sub_zero, List.drop_length] at hlocals
    have hoperands := hbears'.operands
    rw [Activity.held, hcontexts] at hoperands
    exact
      { hbears' with
        locals := hlocals
        copied := hbears'.copied.congr hgrows.outer.symm
        operands := hoperands }
  cases hv : v.isTruthy with
  | true =>
    rw [hv, if_pos rfl] at hip
    rw [← hip] at hbound
    simp only [State.give, hv, if_pos]
    refine h.chosen (a := { a with locals := [], contexts := [] }) hacts hleft rfl rfl hprogram
      hrest.reading hrest.based (hrest.named _ hmem) hbody hbound ?_
    exact fun Γ' hgrows => .jump hend (.ret hgrows.inner hret)
  | false =>
    rw [hv, if_neg (by simp), hk] at hip
    rw [← hip] at hrest
    simp only [State.give, hv, Bool.false_eq_true, if_false]
    rw [Raised.select_congr]
    exact h.select hacts hleft rfl rfl hprogram hrest

/-- The answer to an effect that has been raised again goes to the continuation. -/
theorem answers {t : Symbol} {line' : Nat} (h : Hosts σ m .running)
    (hacts : List.Forall₂ (Waits (Means σ.memory)) acts pre.reverse)
    (hbears : Bears (Means σ.memory) G (some (r, p)) Γ [v] a b) (hbased : Based G p Γ.locals)
    (hcontexts : a.contexts = []) (hglobal : Γ.isGlobal = a.isProgram)
    (hname : G.reading.names.find? p.k = some t) (hload : b.code.Access Γ .loads t b.ip line c)
    (hat : b.code.At c .tailCall 1 line) (hret : b.code.At (c + 2) .ret 0 line') :
    Arrives (σ.give a acts [] v [.answer line r.k]) (m.showing (pre ++ [b]) []).advance := by
  obtain ⟨k, hk, hmeans⟩ := hbears.locals.k r p rfl
  rw [h.loads_slot (hload.slot_inv (hbased.slot_k hname)) hk, ← List.append_nil [k],
    ← Machine.showing_pushAll]
  have hanswer : Bears (Means σ.memory) G (some (r, p)) Γ [v] { a with contexts := [] } b := by
    rw [← hcontexts]
    exact hbears
  refine NextMeans.arrives (h.goes (Or.inr rfl) hacts ⟨G, some (r, p), Γ,
    Bears.pushed { hanswer with } (.cons hmeans .nil), .call hat (.ret hglobal hret)⟩)

/-- One step with a value that is given to the innermost context. The induction is on the jumps to the
place where the value is used. -/
theorem give {code : Code Value} {isProgram : Bool} {ip : Nat} (h : Hosts σ m .running)
    (hacts : List.Forall₂ (Waits (Means σ.memory)) acts pre.reverse)
    (hbears : Bears (Means σ.memory) G choosing Γ [v] a b)
    (hawaits : Awaits G code isProgram choosing Γ ip cs) (hcode : b.code = code) (hip : b.ip = ip)
    (hprogram : a.isProgram = isProgram) (hcontexts : a.contexts = cs) (hweight : a.weight < n + 1) :
    ∃ fill, Follows n (σ.give a acts fill v cs) (m.showing (pre ++ [b]) []) := by
  obtain ⟨reading, isProgram', locals, captured, contexts, handler⟩ := a
  obtain rfl : isProgram' = isProgram := hprogram
  induction hawaits generalizing b with
  | ret hglobal hat =>
    obtain rfl : contexts = [] := hcontexts
    subst hcode hip
    obtain ⟨w, hv, hoperands⟩ := forall₂_singleton_left hbears.operands
    exact ⟨[], (h.hand hacts hv hat hoperands).follows n⟩
  | @jump _ _ k _ _ hat hrest ih =>
    subst hcode hip
    have hjumped : Bears (Means σ.memory) G choosing _ [v] _ { b with ip := b.ip + k } :=
      { hbears with }
    obtain ⟨fill, hfollows⟩ := ih (b := { b with ip := b.ip + k }) rfl rfl hjumped hcontexts
    refine ⟨fill, Arrives.follows ?_ n⟩
    rw [h.sole.running.advance_jump hat]
    exact hfollows.arrives
  | passing hwritten hpasses hrest =>
    obtain rfl : contexts = _ := hcontexts
    subst hcode hip
    have hglobal := (Activity.isGlobal_eq_of_awaits
      (a := ⟨reading, isProgram', locals, captured, _, handler⟩) hrest).trans hpasses.grows.isGlobal_eq
    have harrived := Bears.arrive (a := ⟨reading, isProgram', locals, captured, _, handler⟩) hbears
    obtain ⟨fill, hpassed⟩ := harrived.passes hglobal hwritten hpasses
    refine ⟨fill, h.stays hacts ⟨G, choosing, _, hpassed, .give ?_⟩ ?_⟩
    · simpa using hrest
    · rw [Activity.weight_pass]
      simp only [Activity.weight, Control.weight, List.map_cons, List.sum_cons, Context.weight]
        at hweight ⊢
      omega
  | operands hlaid hconcludes hrest =>
    obtain rfl : contexts = _ := hcontexts
    subst hcode hip
    have harrived := Bears.arrive (a := ⟨reading, isProgram', locals, captured, _, handler⟩) hbears
    refine ⟨[], h.operate hacts harrived hlaid (by simpa [Context.held] using hconcludes) hrest ?_⟩
    simp only [Activity.weight, List.map_cons, List.sum_cons, Context.weight] at hweight ⊢
    omega
  | fields hlaid hat hrest =>
    obtain rfl : contexts = _ := hcontexts
    subst hcode hip
    have harrived := Bears.arrive (a := ⟨reading, isProgram', locals, captured, _, handler⟩) hbears
    refine ⟨[], (h.build hacts ?_ hlaid (by simpa using hat) hrest).follows n⟩
    simpa [Context.held, Exec.keyed] using harrived
  | testElse hat hm htrue hend hn hfalse hrest =>
    obtain rfl : contexts = _ := hcontexts
    subst hcode hip
    have harrived := Bears.arrive (a := ⟨reading, isProgram', locals, captured, _, handler⟩) hbears
    obtain ⟨fill, harrives⟩ := h.tests_else hacts harrived hat hm htrue hend hn hfalse hrest
    exact ⟨fill, harrives.follows n⟩
  | testOnly hat hm htrue hend hn hnone hrest =>
    obtain rfl : contexts = _ := hcontexts
    subst hcode hip
    have harrived := Bears.arrive (a := ⟨reading, isProgram', locals, captured, _, handler⟩) hbears
    obtain ⟨fill, harrives⟩ := h.tests_only hacts harrived hat hm htrue hend hn hnone hrest
    exact ⟨fill, harrives.follows n⟩
  | statements hat hlaid hrest =>
    obtain rfl : contexts = _ := hcontexts
    subst hcode hip
    have harrived := Bears.arrive (a := ⟨reading, isProgram', locals, captured, _, handler⟩) hbears
    obtain ⟨ops, vs, hoperands, hvs, hbears'⟩ := harrived.split
    obtain ⟨w, _, rfl⟩ := forall₂_singleton_left hvs
    refine ⟨[], NextMeans.follows ?_ n⟩
    rw [h.sole.running.advance_execute rfl hat hoperands, show Op.pop.narrow = .pop from rfl,
      ← List.nil_append [w], Exec.execute_pop]
    exact h.goes (Or.inr rfl) hacts ⟨G, choosing, _, { hbears' with }, .run hlaid hrest⟩
  | scope hgrows hsize hbased hrest =>
    obtain rfl : contexts = _ := hcontexts
    subst hcode hip hsize
    have harrived := Bears.arrive (a := ⟨reading, isProgram', locals, captured, _, handler⟩) hbears
    refine ⟨[], h.stays hacts ⟨G, choosing, _, { harrived with
      locals := harrived.locals.leave hgrows hbased
      copied := harrived.copied.congr hgrows.outer.symm }, .give hrest⟩ ?_⟩
    simp only [Activity.weight, Control.weight, List.map_cons, List.sum_cons, Context.weight]
      at hweight ⊢
    omega
  | guard hchoosing hprogram hgrows hat hm hmem hbody hbound hend hret hrest =>
    obtain rfl : contexts = _ := hcontexts
    subst hcode hip hchoosing hprogram
    exact ⟨[], (h.guards hacts hbears rfl rfl hgrows hat hm hmem hbody hbound hend hret hrest).follows n⟩
  | answer hchoosing hbased hglobal hname hload hat hret =>
    obtain rfl : contexts = _ := hcontexts
    subst hcode hip hchoosing
    have harrived := Bears.arrive (a := ⟨reading, isProgram', locals, captured, [], handler⟩) hbears
    exact ⟨[], (h.answers hacts harrived hbased rfl hglobal hname hload hat hret).follows n⟩

end Hosts

end Resumable.Meaning
