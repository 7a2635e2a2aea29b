import Resumable.Proofs.Meaning.Simulation

/-!
Instructions of an activity that goes on in the same activation: constants, reads and writes of
variables, and what is done with operands.
-/

namespace Resumable

namespace Lexical

variable {Γ : Lexical} {s : Symbol}

theorem slotIn_of_lookup {n : Nat} (hlookup : Γ.lookup s = .slot n) : slotIn Γ.locals s = some n := by
  unfold lookup at hlookup
  split at hlookup
  next hslot =>
    cases hlookup
    exact hslot
  next => split at hlookup <;> cases hlookup

theorem isOuter_of_lookup (hlookup : Γ.lookup s = .captured) :
    slotIn Γ.locals s = none ∧ Γ.isOuter s = true := by
  unfold lookup at hlookup
  split at hlookup
  next => cases hlookup
  next hslot =>
    split at hlookup
    next houter => exact ⟨hslot, houter⟩
    next => cases hlookup

theorem not_isOuter_of_lookup (hlookup : Γ.lookup s = .global) :
    slotIn Γ.locals s = none ∧ Γ.isOuter s = false := by
  unfold lookup at hlookup
  split at hlookup
  next => cases hlookup
  next hslot =>
    split at hlookup
    next => cases hlookup
    next houter => exact ⟨hslot, by simpa using houter⟩

end Lexical

namespace Meaning

/-- All symbols in some code are those of names. -/
theorem Ground.Covers.symbol {G : Ground} {code : Code Value} (hcovers : G.Covers code) {i : Nat}
    {name : String} {s : Symbol} (hname : G.reading.names.find? name = some s)
    (hsymbol : code.HasSymbol i s) : code.constants[i]? = some (.symbol s) := by
  obtain ⟨t, ht, hsame⟩ := hsymbol
  cases hcovers with
  | intro hsymbols _ _ =>
    obtain ⟨other, hother⟩ := hsymbols t (Array.mem_of_getElem? ht)
    obtain ⟨-, rfl⟩ := G.distinct other name t s hother hname hsame
    exact ht

/-- Values on top belong to no context. -/
theorem Bears.split {R : Value → Value → Prop} {G : Ground} {choosing : Choosing} {Γ : Lexical}
    {extra : List Value} {a : Activity} {b : Activation} (h : Bears R G choosing Γ extra a b) :
    ∃ ops vs, b.operands = ops ++ vs ∧ List.Forall₂ R extra vs ∧
      Bears R G choosing Γ [] a { b with operands := ops } := by
  obtain ⟨ops, vs, hops, hvs, hoperands⟩ := forall₂_split h.operands
  exact ⟨ops, vs, hoperands, hvs, { h with operands := by rwa [List.append_nil] }⟩

theorem Bears.pushed {R : Value → Value → Prop} {G : Ground} {choosing : Choosing} {Γ : Lexical}
    {extra vs ws : List Value} {a : Activity} {b : Activation} (h : Bears R G choosing Γ extra a b)
    (hvs : List.Forall₂ R vs ws) : Bears R G choosing Γ (extra ++ vs) a (b.pushAll ws) :=
  { h with
    operands := by
      rw [← List.append_assoc]
      exact List.rel_append h.operands hvs }

namespace Hosts

variable {σ : State} {m : Machine} {pre : List Activation} {b : Activation} {a : Activity}
  {acts : List Activity} {G : Ground} {choosing : Choosing} {Γ : Lexical} {extra : List Value}
  {v w : Value} {s : Symbol} {i line next : Nat}

/-- The innermost activity goes on with a value, which the machine has on top of its stack. -/
theorem gives (h : Hosts σ m .running) (hacts : List.Forall₂ (Waits (Means σ.memory)) acts pre.reverse)
    (hbears : Bears (Means σ.memory) G choosing Γ [] a b) (hv : Means σ.memory v w)
    (hawaits : Awaits G b.code a.isProgram choosing Γ b.ip a.contexts) :
    NextMeans (σ.goes (a :: acts) (.give v)) (.more (m.showing (pre ++ [b]) [w])) := by
  rw [← List.append_nil [w], ← Machine.showing_pushAll]
  exact h.goes (Or.inr rfl) hacts (Waits.give ⟨G, choosing, Γ, hbears, hawaits⟩ hv)

/-- An assignment or a declaration has the value `none`. -/
theorem gives_none (h : Hosts σ m .running)
    (hacts : List.Forall₂ (Waits (Means σ.memory)) acts pre.reverse)
    (hbears : Bears (Means σ.memory) G choosing Γ [] a b) (hat : b.code.At b.ip .pushNone 0 line)
    (hawaits : Awaits G b.code a.isProgram choosing Γ (b.ip + 1) a.contexts) :
    NextMeans (σ.goes (a :: acts) (.give .none)) (m.showing (pre ++ [b]) []).advance := by
  rw [h.sole.running.advance_execute rfl hat (List.append_nil b.operands).symm,
    show Op.pushNone.narrow = .pushNone from rfl, Exec.execute_pushNone, List.nil_append]
  exact h.gives hacts { hbears with } ((meaning σ.memory).flat rfl) hawaits

/-- A value has been given to a global variable. -/
theorem setGlobal (h : Hosts σ m .running)
    (hacts : List.Forall₂ (Waits (Means σ.memory)) acts pre.reverse)
    (hbears : Bears (Means σ.memory) G choosing Γ [] a b) (s : Symbol) (hv : Means σ.memory v w)
    (hnone : b.code.At b.ip .pushNone 0 line)
    (hawaits : Awaits G b.code a.isProgram choosing Γ (b.ip + 1) a.contexts) :
    Arrives ((σ.withMemory (σ.memory.setGlobal s v)).goes (a :: acts) (.give .none))
      (.more ((m.setGlobal s w).showing (pre ++ [b]) [])) := by
  have hgrows := σ.memory.grows_withWorld
    { σ.memory.world with globals := σ.memory.world.globals.set s v }
  have hset : Hosts (σ.withMemory (σ.memory.setGlobal s v)) (m.setGlobal s w) .running :=
    h.withWorld (h.world.setGlobal s hv) (.of_tasks rfl (Nat.le_refl _))
  refine ⟨_, .move (.refl _), hset.gives_none ?_ (hbears.mono fun hu => hu.grow hgrows) hnone hawaits⟩
  exact hacts.imp fun _ _ hwaits => hwaits.mono fun hu => hu.grow hgrows

/-- Reading a local from its slot. -/
theorem loads_slot_over (h : Hosts σ m .running) (hat : b.code.Indexed b.ip .loadLocal i line next)
    (hslot : b.locals[i]? = some w) (vs : List Value) :
    (m.showing (pre ++ [b]) vs).advance =
      .more (m.showing (pre ++ [{ b with ip := next }]) (vs ++ [w])) := by
  have hslot' : { b with ip := next }.locals[i]? = some w := hslot
  rw [h.sole.running.advance_indexed_over rfl hat, Exec.execute_loadLocal m pre _ vs b.ip line hslot']
  rfl

theorem loads_slot (h : Hosts σ m .running) (hat : b.code.Indexed b.ip .loadLocal i line next)
    (hslot : b.locals[i]? = some w) :
    (m.showing (pre ++ [b]) []).advance =
      .more (m.showing (pre ++ [{ b with ip := next }]) [w]) :=
  h.loads_slot_over hat hslot []

/-- Reading a captured name. -/
theorem loads_captured (h : Hosts σ m .running) (hat : b.code.Indexed b.ip .loadCaptured i line next)
    (hconstant : b.code.constants[i]? = some (.symbol s)) (hget : Env.get? b.env s = some w) :
    (m.showing (pre ++ [b]) []).advance =
      .more (m.showing (pre ++ [{ b with ip := next }]) [w]) := by
  have hconstant' : { b with ip := next }.code.constants[i]? = some (.symbol s) := hconstant
  have hget' : Env.get? { b with ip := next }.env s = some w := hget
  rw [h.sole.running.advance_indexed rfl hat (List.append_nil b.operands).symm,
    Exec.execute_loadCaptured m pre _ [] b.ip line hconstant' hget']
  rfl

/-- The value of a name is put on the stack, or there is none. -/
theorem loads (pre : List Activation) (h : Hosts σ m .running) (hbears : Bears (Means σ.memory) G choosing Γ extra a b)
    {name : String} (hs : G.shows s = true) (hname : G.reading.names.find? name = some s)
    (haccess : b.code.Access Γ .loads s b.ip line next) :
    match a.read σ.memory.world.globals s with
    | some v => ∃ w, Means σ.memory v w ∧ (m.showing (pre ++ [b]) []).advance =
        .more (m.showing (pre ++ [{ b with ip := next }]) [w])
    | none => (m.showing (pre ++ [b]) []).advance =
        (m.showing (pre ++ [{ b with ip := next }]) []).stop line
          (.error (.undefinedVariable s.name)) := by
  rw [Activity.read, Activity.visible, Env.get?_append]
  cases haccess with
  | @slot n _ hlookup hroom hat =>
    obtain ⟨v, w, hv, hw, hrel⟩ := hbears.locals.get?_slot hs (Lexical.slotIn_of_lookup hlookup)
    rw [hv]
    exact ⟨w, hrel, h.loads_slot hat hw⟩
  | captured hlookup hcaptures hsymbol hat =>
    obtain ⟨hslot, _⟩ := Lexical.isOuter_of_lookup hlookup
    obtain ⟨w, hw⟩ := hbears.copied.bound s hcaptures
    obtain ⟨v, hv, hrel⟩ := hbears.copied.values s w hs hcaptures hw
    rw [hbears.locals.get?_none hs hslot, hv]
    exact ⟨w, hrel, h.loads_captured hat (hbears.covers.symbol hname hsymbol) hw⟩
  | @global i _ hlookup hsymbol hat =>
    obtain ⟨hslot, houter⟩ := Lexical.not_isOuter_of_lookup hlookup
    have hfree : Env.get? a.captured s = none := by
      rw [hbears.copied.outer s hs, binds_eq] at houter
      simpa using houter
    rw [hbears.locals.get?_none hs hslot, hfree]
    have hglobal := h.world.globals s
    have hat : b.code.Indexed b.ip .loadGlobal i line next := hat
    have hconstant : { b with ip := next }.code.constants[i]? = some (.symbol s) :=
      hbears.covers.symbol hname hsymbol
    rw [h.sole.running.advance_indexed rfl hat (List.append_nil b.operands).symm,
      Exec.execute_loadGlobal m pre _ [] b.ip line hconstant]
    simp only [Option.none_or]
    generalize σ.memory.world.globals.get? s = x at hglobal
    generalize m.world.globals.get? s = y at hglobal
    cases hglobal with
    | some hrel => exact ⟨_, hrel, rfl⟩
    | none => rfl

/-- The value of an assignment goes to the place of the variable. -/
theorem stores (h : Hosts σ m .running) (hacts : List.Forall₂ (Waits (Means σ.memory)) acts pre.reverse)
    (hbears : Bears (Means σ.memory) G choosing Γ [v] a b) {name : String} (hs : G.shows s = true)
    (hname : G.reading.names.find? name = some s) (haccess : b.code.Access Γ .stores s b.ip line next)
    {line' : Nat} (hnone : b.code.At next .pushNone 0 line')
    (hawaits : Awaits G b.code a.isProgram choosing Γ (next + 1) a.contexts) :
    Arrives (σ.write a acts s v) (m.showing (pre ++ [b]) []).advance := by
  obtain ⟨ops, vs, hoperands, hvs, hbears⟩ := hbears.split
  obtain ⟨w, hrel, rfl⟩ := forall₂_singleton_left hvs
  rw [State.write]
  cases haccess with
  | @slot n _ hlookup hroom hat =>
    have hslot := Lexical.slotIn_of_lookup hlookup
    have hat : b.code.Indexed b.ip .storeLocal n line next := hat
    rw [if_pos (by rw [hbears.locals.binds_eq hs, hslot]; rfl), h.sole.running.advance_indexed rfl hat hoperands,
      ← List.nil_append [w], Exec.execute_storeLocal]
    refine ⟨_, .move (.refl _), h.gives_none hacts ?_ hnone hawaits⟩
    exact { hbears with locals := hbears.locals.assign hs hslot hrel }
  | @captured i _ hlookup hcaptures hsymbol hat =>
    obtain ⟨hslot, houter⟩ := Lexical.isOuter_of_lookup hlookup
    have hat : b.code.Indexed b.ip .storeCaptured i line next := hat
    obtain ⟨u, hu⟩ := hbears.copied.bound s hcaptures
    obtain ⟨env, hset⟩ := Env.set?_of_bound (Option.isSome_iff_exists.2 ⟨u, hu⟩) w
    have hset' : Env.set? { b with ip := next, operands := ops }.env s w = some env := hset
    have hconstant : { b with ip := next, operands := ops }.code.constants[i]? = some (.symbol s) :=
      hbears.covers.symbol hname hsymbol
    rw [if_neg (by rw [hbears.locals.binds_eq hs, hslot]; simp),
      if_pos (by rw [← hbears.copied.outer s hs, houter]), h.sole.running.advance_indexed rfl hat hoperands,
      ← List.nil_append [w], Exec.execute_storeCaptured m pre _ [] b.ip line w hconstant hset']
    refine ⟨_, .move (.refl _), h.gives_none hacts ?_ hnone hawaits⟩
    refine { hbears with copied := hbears.copied.store hset hrel, effect := ?_ }
    intro r p hchoosing t ht hcaptured
    rw [Env.get?_set? hset, if_neg, hbears.effect r p hchoosing t ht hcaptured]
    intro hsame
    obtain ⟨_, hbase, _⟩ := hbears.locals.based r p hchoosing
    have hhidden := Ground.not_shows hbase.1.effect ht
    rw [← Ground.shows_congr hsame, hs] at hhidden
    cases hhidden
  | @global i _ hlookup hsymbol hat =>
    obtain ⟨hslot, houter⟩ := Lexical.not_isOuter_of_lookup hlookup
    have hat : b.code.Indexed b.ip .storeGlobal i line next := hat
    have hconstant : { b with ip := next, operands := ops }.code.constants[i]? = some (.symbol s) :=
      hbears.covers.symbol hname hsymbol
    rw [if_neg (by rw [hbears.locals.binds_eq hs, hslot]; simp),
      if_neg (by rw [← hbears.copied.outer s hs, houter]; simp), h.sole.running.advance_indexed rfl hat hoperands,
      ← List.nil_append [w], Exec.execute_storeGlobal m pre _ [] b.ip line w hconstant]
    exact h.setGlobal (b := { b with ip := next, operands := ops }) hacts { hbears with } s hrel hnone
      hawaits

end Hosts

end Meaning

end Resumable
