import Resumable.Proofs.Meaning.Evaluation

/-!
How a clause is chosen for an effect that has reached a handler. The payload and the continuation are in
the first two slots, under names that no program mentions. Each guard and each body runs in a scope of
its own, where the names of its clause are bound to them.
-/

namespace Resumable

namespace PathFunction

variable (p : PathFunction)

theorem arg_ne_k : p.arg ≠ p.k := by
  intro hsame
  have hchars := congrArg String.toList hsame
  simp [arg, k] at hchars

theorem effect_ne_arg : p.effect ≠ p.arg := by
  intro hsame
  have hchars := congrArg String.toList hsame
  simp [arg, effect] at hchars

theorem effect_ne_k : p.effect ≠ p.k := by
  intro hsame
  have hchars := congrArg String.toList hsame
  simp [k, effect] at hchars

end PathFunction

section Access

variable {o : CompileOptions} {names : Names} {code : Code Value} {Γ Γ' : Lexical} {tail : Bool}
  {ops : AccessOps} {s : Symbol} {name : String} {line a b i : Nat}

theorem Code.Access.slot_inv (h : code.Access Γ ops s a line b) (hslot : slotIn Γ.locals s = some i) :
    code.Indexed a ops.slot i line b := by
  cases h with
  | slot hlookup _ hat =>
    rw [Lexical.slotIn_of_lookup hlookup] at hslot
    cases hslot
    exact hat
  | captured hlookup =>
    rw [(Lexical.isOuter_of_lookup hlookup).1] at hslot
    cases hslot
  | global hlookup =>
    rw [(Lexical.not_isOuter_of_lookup hlookup).1] at hslot
    cases hslot

theorem Code.Access.captured_inv (h : code.Access Γ ops s a line b) (hslot : slotIn Γ.locals s = none)
    (houter : Γ.isOuter s = true) :
    code.Captures s ∧ ∃ i, code.HasSymbol i s ∧ code.Indexed a ops.captured i line b := by
  cases h with
  | slot hlookup =>
    rw [Lexical.slotIn_of_lookup hlookup] at hslot
    cases hslot
  | captured _ hcaptures hsymbol hat => exact ⟨hcaptures, _, hsymbol, hat⟩
  | global hlookup =>
    rw [(Lexical.not_isOuter_of_lookup hlookup).2] at houter
    cases houter

theorem Layout.name_inv (h : Layout o names code Γ tail (.name line name) a Γ' b) :
    Γ' = Γ ∧ ∃ s, names.find? name = some s ∧ code.Access Γ .loads s a (o.shown line) b := by
  cases h with
  | literal hliteral => cases hliteral
  | name hname haccess => exact ⟨rfl, _, hname, haccess⟩

/-- A block declares nothing outside of it. -/
theorem Layout.block_eq {body : List Expr}
    (h : Layout o names code Γ tail (.block line body) a Γ' b) : Γ' = Γ := by
  cases h with
  | literal hliteral => cases hliteral
  | blockEmpty | block => rfl

/-- A call with one argument. -/
theorem Layout.call_one_inv {callee arg : Expr}
    (h : Layout o names code Γ tail (.call line callee [arg]) a Γ' b) :
    ∃ Γ₁ c d, Layout o names code Γ false arg a Γ₁ c ∧ Layout o names code Γ₁ false callee c Γ' d ∧
      code.At d (if tail then .tailCall else .call) 1 (o.shown line) ∧ b = d + 2 := by
  cases h with
  | literal hliteral => cases hliteral
  | call hargs hcallee hat =>
    cases hargs with
    | cons harg hnil =>
      cases hnil
      exact ⟨_, _, _, harg, hcallee, hat, rfl⟩

/-- What raises an effect again takes the payload, the effect and the continuation from variables. -/
theorem Layout.raiseAgain_inv {effect arg k : String}
    (h : Layout o names code Γ tail (raiseAgain line effect arg k) a Γ' b) :
    ∃ s u t c d e, names.find? arg = some s ∧ names.find? effect = some u ∧ names.find? k = some t ∧
      code.Access Γ .loads s a (o.shown line) c ∧ code.Access Γ .loads u c (o.shown line) d ∧
      code.At d .call 1 (o.shown line) ∧ code.Access Γ .loads t (d + 2) (o.shown line) e ∧
      code.At e (if tail then .tailCall else .call) 1 (o.shown line) ∧ b = e + 2 := by
  obtain ⟨_, _, e, hraise, hk, hat, rfl⟩ := Layout.call_one_inv h
  obtain ⟨_, c, d, harg, heffect, hatRaise, rfl⟩ := hraise.call_one_inv
  obtain ⟨rfl, s, hs, hloadArg⟩ := harg.name_inv
  obtain ⟨rfl, u, hu, hloadEffect⟩ := heffect.name_inv
  obtain ⟨rfl, t, ht, hloadK⟩ := hk.name_inv
  exact ⟨s, u, t, c, d, e, hs, hu, ht, hloadArg, hloadEffect, hatRaise, hloadK, hat, rfl⟩

end Access

namespace Meaning

/-- Symbols of different names have different numbers. -/
theorem Ground.ne_of_ne {G : Ground} {name name' : String} {s t : Symbol}
    (hname : G.reading.names.find? name = some s) (hname' : G.reading.names.find? name' = some t)
    (hne : name ≠ name') : (s == t) = false := by
  by_contra hsame
  rw [Bool.not_eq_false] at hsame
  exact hne (G.distinct name name' s t hname hname' hsame).1

namespace Based

variable {G : Ground} {p : PathFunction} {locals : List Local} {u : Symbol}

theorem slot_arg (h : Based G p locals) (hu : G.reading.names.find? p.arg = some u) :
    slotIn locals u = some 0 := by
  obtain ⟨_, s, t, hs, ht, rfl⟩ := h
  rw [hs] at hu
  cases hu
  have hne := Ground.ne_of_ne ht hs p.arg_ne_k.symm
  simp [slotIn, hne, Symbol.beq_iff]

theorem slot_k (h : Based G p locals) (hu : G.reading.names.find? p.k = some u) :
    slotIn locals u = some 1 := by
  obtain ⟨_, s, t, hs, ht, rfl⟩ := h
  rw [ht] at hu
  cases hu
  simp [slotIn, Symbol.beq_iff]

theorem slot_effect (h : Based G p locals) (hu : G.reading.names.find? p.effect = some u) :
    slotIn locals u = none := by
  obtain ⟨_, s, t, hs, ht, rfl⟩ := h
  have hne := Ground.ne_of_ne hs hu p.effect_ne_arg.symm
  have hne' := Ground.ne_of_ne ht hu p.effect_ne_k.symm
  simp [slotIn, hne, hne']

end Based

/-- Programs cannot hide a name that they do not write. -/
theorem slotIn_declared {G : Ground} {Γ : Lexical} {s t : Symbol} (hs : G.shows s = true)
    (ht : G.shows t = false) : slotIn (Γ.declared s).locals t = slotIn Γ.locals t := by
  have hne : (s == t) = false := by
    by_contra hsame
    rw [Bool.not_eq_false] at hsame
    rw [Ground.shows_congr hsame, ht] at hs
    cases hs
  rw [slotIn, slotIn, Lexical.declared, List.find?_cons_of_neg (by simp [hne])]

/-- In a block the same names are visible. -/
theorem Bears.opened {R : Value → Value → Prop} {G : Ground} {choosing : Choosing} {Γ : Lexical}
    {extra : List Value} {a : Activity} {b : Activation} (h : Bears R G choosing Γ extra a b) :
    Bears R G choosing Γ.opened extra a b :=
  { h with
    locals := h.locals.congr rfl
    copied := h.copied.congr rfl }

/-- Which clause is tried next does not depend on those that have been tried. -/
theorem Raised.select_congr (r : Raised) (a : Activity) (rest : List (Clause Expr)) :
    r.select a rest = r.select { a with locals := [], contexts := [] } rest := by
  induction rest with
  | nil =>
    unfold Raised.select
    cases r.choice.clauses.find? fun c => c.guard.isNone <;> rfl
  | cons c rest ih =>
    unfold Raised.select
    cases c.guard with
    | none => exact ih
    | some => rfl

@[simp]
theorem Raised.handler_select (r : Raised) (a : Activity) (rest : List (Clause Expr)) :
    (r.select a rest).1.handler = a.handler := by
  induction rest with
  | nil =>
    unfold Raised.select
    cases r.choice.clauses.find? fun c => c.guard.isNone <;> rfl
  | cons c rest ih =>
    unfold Raised.select
    cases c.guard with
    | none => exact ih
    | some => rfl

namespace Hosts

variable {σ : State} {m : Machine} {pre : List Activation} {b : Activation} {a : Activity}
  {acts : List Activity} {G : Ground} {choosing : Choosing} {Γ Γ₁ : Lexical} {v w : Value}
  {c d line line' : Nat}

/-- A value becomes a local, and is gone from the stack. -/
theorem keeps {slot next line'' : Nat} (h : Hosts σ m .running)
    (hat : b.code.Indexed b.ip .storeLocal slot line next) (hnone : b.code.At next .pushNone 0 line')
    (hpop : b.code.At (next + 1) .pop 0 line'') (w : Value) :
    Progress.Leads (.more (m.showing (pre ++ [b]) [w]))
      (.more (m.showing
        (pre ++ [{ b with ip := next + 2, locals := setSlot b.locals slot w }]) [])) := by
  obtain ⟨b', hb⟩ : ∃ b', b' = { b with ip := next, locals := setSlot b.locals slot w } := ⟨_, rfl⟩
  have hnone' : b'.code.At b'.ip .pushNone 0 line' := by rwa [hb]
  have hpop' : { b' with ip := next + 1 }.code.At { b' with ip := next + 1 }.ip .pop 0 line'' := by
    rwa [hb]
  have hip : b'.ip + 1 + Op.pushNone.width = next + 1 := by rw [hb]; rfl
  refine .move ?_
  rw [h.sole.running.advance_indexed_over rfl hat, ← List.nil_append [w], Exec.execute_storeLocal]
  refine .move ?_
  rw [← hb, h.sole.running.advance_over hnone', show Op.pushNone.narrow = .pushNone from rfl,
    Exec.execute_pushNone, hip]
  refine .move ?_
  rw [h.sole.running.advance_over hpop', show Op.pop.narrow = .pop from rfl, Exec.execute_pop, hb]
  exact .refl _

/-- A name of a clause is bound to the value of a local. -/
theorem rebinds {name other : String} {t : Symbol} {i : Nat} (h : Hosts σ m .running)
    (hbears : Bears (Means σ.memory) G choosing Γ [] a b)
    (hlaid : Layout G.reading.options G.reading.names b.code Γ false
      (.declare line name (.name line other)) b.ip Γ₁ c)
    (hpop : b.code.At c .pop 0 line') (hlocal : Γ.isGlobal = false) (hwritten : G.written name)
    (hother : G.reading.names.find? other = some t) (hslot : slotIn Γ.locals t = some i)
    (hw : b.locals[i]? = some w) (hv : Means σ.memory v w) :
    Γ₁ = Γ.declared (G.reading.symbol name) ∧ G.shows (G.reading.symbol name) = true ∧ ∃ b',
      Progress.Leads (.more (m.showing (pre ++ [b]) [])) (.more (m.showing (pre ++ [b']) [])) ∧
      b'.ip = c + 1 ∧ b'.code = b.code ∧
      (∀ j < Γ.locals.length, b'.locals[j]? = b.locals[j]?) ∧
      Bears (Means σ.memory) G choosing Γ₁ [] (a.bindLocal (G.reading.symbol name) v) b' := by
  cases hlaid with
  | literal hliteral => cases hliteral
  | declareGlobal hvalue hglobal =>
    obtain ⟨rfl, _⟩ := hvalue.name_inv
    simp [hlocal] at hglobal
  | @declareLocal _ _ Γ₀ _ _ _ loaded next _ s _ hvalue _ hname hroom hat hnone =>
    obtain ⟨rfl, t', hother', haccess⟩ := hvalue.name_inv
    rw [hother] at hother'
    cases hother'
    have hs := G.shows_of_written hwritten hname
    have hsize := Nat.lt_of_lt_of_le hroom hbears.locals.size
    rw [Ground.symbol_eq hname]
    refine ⟨rfl, hs, { b with ip := next + 2, locals := setSlot b.locals Γ₀.locals.length w },
      .move ?_, rfl, rfl, ?_, ?_⟩
    · rw [h.loads_slot (haccess.slot_inv hslot) hw]
      exact h.keeps (b := { b with ip := loaded }) hat hnone hpop w
    · intro j hj
      rw [getElem?_setSlot hsize, if_neg (by omega)]
    · exact
        { hbears with
          locals := hbears.locals.declare hs hroom hv
          copied := hbears.copied.congr rfl }

variable {r : Raised} {p : PathFunction}

/-- The body of the clause that has been chosen is evaluated, with its names bound to the payload and the
continuation. -/
theorem chosen {clause : Clause Expr} {body' : Expr} (h : Hosts σ m .running)
    (hacts : List.Forall₂ (Waits (Means σ.memory)) acts pre.reverse)
    (hbears : Bears (Means σ.memory) G (some (r, p)) Γ [] a b) (hlocals : a.locals = [])
    (hcontexts : a.contexts = []) (hprogram : a.isProgram = false)
    (hreading : r.choice.reading = G.reading) (hbased : Based G p Γ.locals)
    (hnamed : ClauseNamed G clause) (hbody : clause.body.Lowered body')
    (hlaid : Layout G.reading.options G.reading.names b.code Γ true
      ((clause.lowered body').bound p.arg p.k) b.ip Γ₁ d)
    (hrest : ∀ Γ', Γ.opened.Grows Γ' → Awaits G b.code false (some (r, p)) Γ' d []) :
    Arrives (σ.goes ((r.choice.body a clause r.payload r.k).1 :: acts)
      (r.choice.body a clause r.payload r.k).2) (.more (m.showing (pre ++ [b]) [])) := by
  obtain ⟨_, s, t, hs, ht, _⟩ := id hbased
  obtain ⟨payload, hpayload, hmeans⟩ := hbears.locals.payload r p rfl
  obtain ⟨k, hk, hmeansK⟩ := hbears.locals.k r p rfl
  have hinside : Γ.opened.isGlobal = false := by simp [Lexical.isGlobal, Lexical.opened]
  have hlength : Γ.opened.locals.length = 2 := hbased.length_eq
  have hhidden : G.shows t = false := Ground.not_shows hbased.1.k ht
  obtain ⟨reading, isProgram, locals, captured, contexts, handler⟩ := a
  obtain rfl : locals = [] := hlocals
  obtain rfl : contexts = [] := hcontexts
  obtain rfl : isProgram = false := hprogram
  rw [Choice.body, hreading]
  cases hresume : clause.resume with
  | none =>
    simp only [LoweredClause.bound, Clause.lowered, hresume, List.nil_append] at hlaid
    cases hlaid with
    | literal hliteral => cases hliteral
    | block hstatements =>
      cases hstatements with
      | cons hfirst hpop hmore =>
        obtain ⟨rfl, hshows, b₁, hleads, hip, hcode, hkept, hbears₁⟩ := h.rebinds hbears.opened hfirst hpop
          hinside hnamed.param hs (hbased.slot_arg hs) hpayload hmeans
        rw [← hip, ← hcode] at hmore
        cases hmore with
        | last hlast =>
          refine .of_leads hleads (NextMeans.arrives (h.goes (Or.inr rfl) hacts
            ⟨G, some (r, p), _, hbears₁, .eval ⟨hnamed.body, body', hbody, hlast⟩ ?_⟩))
          have hgrows := hlast.passes.grows
          rw [hcode]
          exact hrest _ ((Lexical.grows_declared _ _).trans hgrows)
        | cons _ _ hnil => cases hnil
  | some name =>
    simp only [LoweredClause.bound, Clause.lowered, hresume, List.singleton_append] at hlaid
    cases hlaid with
    | literal hliteral => cases hliteral
    | block hstatements =>
      cases hstatements with
      | cons hfirst hpop hmore =>
        obtain ⟨rfl, hshows, b₁, hleads, hip, hcode, hkept, hbears₁⟩ := h.rebinds hbears.opened hfirst hpop
          hinside hnamed.param hs (hbased.slot_arg hs) hpayload hmeans
        rw [← hip, ← hcode] at hmore
        cases hmore with
        | cons hsecond hpop' hmore =>
          obtain ⟨rfl, _, b₂, hleads', hip', hcode', _, hbears₂⟩ := h.rebinds hbears₁ hsecond hpop'
            hinside (hnamed.resume name hresume) ht
            ((slotIn_declared hshows hhidden).trans (hbased.slot_k ht))
            ((hkept 1 (by omega)).trans hk) hmeansK
          rw [← hip', ← hcode'] at hmore
          cases hmore with
          | last hlast =>
            refine .of_leads (hleads.trans hleads') (NextMeans.arrives (h.goes (Or.inr rfl) hacts
              ⟨G, some (r, p), _, hbears₂, .eval ⟨hnamed.body, body', hbody, hlast⟩ ?_⟩))
            have hgrows := hlast.passes.grows
            rw [hcode', hcode]
            exact hrest _ (((Lexical.grows_declared _ _).trans (Lexical.grows_declared _ _)).trans hgrows)
          | cons _ _ hnil => cases hnil

/-- The effect is raised again, and its answer goes to the continuation. -/
theorem raises_again (h : Hosts σ m .running)
    (hacts : List.Forall₂ (Waits (Means σ.memory)) acts pre.reverse)
    (hbears : Bears (Means σ.memory) G (some (r, p)) Γ [] a b) (hlocals : a.locals = [])
    (hcontexts : a.contexts = []) (hprogram : a.isProgram = false) (hbased : Based G p Γ.locals)
    (hinside : Γ.isGlobal = false)
    (heffect : ∀ s, G.reading.names.find? p.effect = some s → Γ.isOuter s = true)
    (hlaid : Layout G.reading.options G.reading.names b.code Γ true
      (raiseAgain line p.effect p.arg p.k) b.ip Γ₁ d) (hret : b.code.At d .ret 0 line') :
    Arrives (σ.goes ({ a with locals := [], contexts := [.answer (G.reading.shown line) r.k] } :: acts)
      (.call (G.reading.shown line) (.effect r.effect) [r.payload]))
      (.more (m.showing (pre ++ [b]) [])) := by
  obtain ⟨payload, hpayload, hmeans⟩ := hbears.locals.payload r p rfl
  obtain ⟨reading, isProgram, locals, captured, contexts, handler⟩ := a
  obtain rfl : locals = [] := hlocals
  obtain rfl : contexts = [] := hcontexts
  obtain rfl : isProgram = false := hprogram
  obtain ⟨s, u, t, c, e, e', hs, hu, ht, hloadArg, hloadEffect, hatRaise, hloadK, hat, rfl⟩ :=
    hlaid.raiseAgain_inv
  obtain ⟨hcaptures, i, hsymbol, hloadEffect⟩ :=
    hloadEffect.captured_inv (hbased.slot_effect hu) (heffect u hu)
  have hsymbol := hbears.covers.symbol hu hsymbol
  obtain ⟨b₁, hb₁⟩ : ∃ b₁, b₁ = { b with ip := c }.pushAll [payload] := ⟨_, rfl⟩
  obtain ⟨b₂, hb₂⟩ : ∃ b₂, b₂ = { b₁ with ip := e }.pushAll [.effect r.effect] := ⟨_, rfl⟩
  have hleads : Progress.Leads (.more (m.showing (pre ++ [b]) []))
      (.more (m.showing (pre ++ [b₂]) [])) := by
    have hload : b₁.code.Indexed b₁.ip .loadCaptured i (G.reading.shown line) e := by
      rw [hb₁]
      exact hloadEffect
    have hconstant : b₁.code.constants[i]? = some (.symbol u) := by
      rw [hb₁]
      exact hsymbol
    have hget : Env.get? b₁.env u = some (.effect r.effect) := by
      rw [hb₁]
      exact hbears.effect r p rfl u hu hcaptures
    refine .move ?_
    rw [h.loads_slot (hloadArg.slot_inv (hbased.slot_arg hs)) hpayload, ← List.append_nil [payload],
      ← Machine.showing_pushAll, ← hb₁]
    refine .move ?_
    rw [h.loads_captured hload hconstant hget, ← List.append_nil [Value.effect r.effect],
      ← Machine.showing_pushAll, ← hb₂]
    exact .refl _
  refine .of_leads hleads (NextMeans.arrives (h.goes (Or.inr rfl) hacts ⟨G, some (r, p), Γ, ?_, ?_⟩))
  · have hbears₁ : Bears (Means σ.memory) G (some (r, p)) Γ [r.payload]
        ⟨reading, false, [], captured, [.answer (G.reading.shown line) r.k], handler⟩ b₁ := by
      rw [hb₁]
      exact @Bears.pushed _ _ _ _ [] _ _ _ _ { hbears with } (.cons hmeans .nil)
    rw [hb₂]
    exact Bears.pushed { hbears₁ with } (.cons ((meaning σ.memory).effect ⟨rfl, rfl⟩) .nil)
  · rw [hb₂, hb₁]
    exact .call hatRaise (.answer rfl hbased hinside ht hloadK hat hret)

/-- The clauses that remain are tried in order: the first guard among them is evaluated, or the clause
without a guard is chosen, or the effect is raised again. -/
theorem select {rest : List (Clause Expr)} (h : Hosts σ m .running)
    (hacts : List.Forall₂ (Waits (Means σ.memory)) acts pre.reverse)
    (hbears : Bears (Means σ.memory) G (some (r, p)) Γ [] a b) (hlocals : a.locals = [])
    (hcontexts : a.contexts = []) (hprogram : a.isProgram = false)
    (htries : LaidTries G b.code Γ p r.choice rest b.ip) :
    Arrives (σ.goes ((r.select a rest).1 :: acts) (r.select a rest).2)
      (.more (m.showing (pre ++ [b]) [])) := by
  obtain ⟨e', Γ', d, line, hlowered, hlaid, hret⟩ := htries.laid
  have hends : ∀ Γ', Γ.opened.Grows Γ' → Awaits G b.code false (some (r, p)) Γ' d [] :=
    fun Γ' hgrows => .ret hgrows.inner hret
  induction rest with
  | nil =>
    rw [Raised.select]
    cases hlowered with
    | catchAll hfind hbody =>
      simp only [hfind]
      have hnamed := htries.named _ (List.mem_of_find?_eq_some hfind)
      exact h.chosen hacts hbears hlocals hcontexts hprogram htries.reading htries.based hnamed hbody hlaid
        hends
    | again hfind =>
      simp only [hfind, htries.reading]
      exact h.raises_again hacts hbears hlocals hcontexts hprogram htries.based htries.inside
        htries.effect hlaid hret
  | cons clause rest ih =>
    obtain ⟨hmem, hknown⟩ := List.forall_mem_cons.1 htries.known
    cases hlowered with
    | unguarded hnone hnext =>
      rw [Raised.select]
      simp only [hnone]
      exact ih { htries with known := hknown, laid := ⟨e', Γ', d, line, hnext, hlaid, hret⟩ } hnext
    | guarded hsome hguard hbody hnext =>
      obtain ⟨_, s, _, hs, _⟩ := id htries.based
      obtain ⟨payload, hpayload, hmeans⟩ := hbears.locals.payload r p rfl
      have hnamed := htries.named clause hmem
      have hinside : Γ.opened.isGlobal = false := by simp [Lexical.isGlobal, Lexical.opened]
      obtain ⟨reading, isProgram, locals, captured, contexts, handler⟩ := a
      obtain rfl : locals = [] := hlocals
      obtain rfl : contexts = [] := hcontexts
      obtain rfl : isProgram = false := hprogram
      rw [Raised.select]
      simp only [hsome, htries.reading]
      cases hlaid with
      | literal hliteral => cases hliteral
      | condElse htest hatElse hm htrue hatEnd hn hfalse =>
        obtain rfl := htrue.block_eq
        cases htest with
        | literal hliteral => cases hliteral
        | block hstatements =>
          cases hstatements with
          | cons hfirst hpop hmore =>
            obtain ⟨rfl, _, b₁, hleads, hip, hcode, _, hbears₁⟩ := h.rebinds hbears.opened hfirst hpop
              hinside hnamed.param hs (htries.based.slot_arg hs) hpayload hmeans
            rw [← hip, ← hcode] at hmore
            cases hmore with
            | cons _ _ hnil => cases hnil
            | last hlast =>
              refine .of_leads hleads (NextMeans.arrives (h.goes (Or.inr rfl) hacts
                ⟨G, some (r, p), _, { hbears₁ with },
                  .eval ⟨hnamed.guard _ hsome, _, hguard, hlast⟩ ?_⟩))
              have hgrows := (Lexical.grows_declared _ _).trans hlast.passes.grows
              rw [hcode]
              exact .guard rfl rfl hgrows hatElse hm hmem hbody htrue hatEnd ⟨_, by rwa [hn]⟩
                { htries with known := hknown, laid := ⟨_, _, _, _, hnext, hfalse, hret⟩ }

end Hosts

end Meaning

end Resumable
