import Resumable.Proofs.Meaning.Variables

/-!
What is done with values once all of them are known. Steps that the machine does not see only take an
expression apart, and so there are finitely many of them in a row.
-/

namespace Resumable.Meaning

namespace Control

/-- A bound on the steps in a row that take apart what is to be done next. -/
noncomputable def weight : Control → Nat
  | eval e => 2 * sizeOf e
  | run es => 2 * sizeOf es
  | give _ | call _ _ _ => 0

end Control

/-- A bound on the steps in a row that take apart some expressions one after the other. -/
noncomputable def weightOf (es : List Expr) : Nat :=
  (es.map fun e => 2 * sizeOf e + 1).sum

theorem weightOf_le (es : List Expr) : weightOf es ≤ 2 * sizeOf es := by
  induction es with
  | nil => exact Nat.zero_le _
  | cons e es ih =>
    simp only [weightOf, List.map_cons, List.sum_cons, List.cons.sizeOf_spec] at ih ⊢
    omega

/-- A bound on the steps in a row with a value that is given to a context. -/
noncomputable def Context.weight : Context → Nat
  | operands _ _ rest => weightOf rest + 1
  | passing _ | scope _ => 1
  | _ => 0

noncomputable def Activity.weight (a : Activity) : Nat :=
  (a.contexts.map Context.weight).sum

/-- A bound on the steps in a row that the machine does not see. -/
noncomputable def State.weight (σ : State) : Nat :=
  σ.control.weight + (σ.acts.head?.map Activity.weight).getD 0

/-- A step is matched by moves of the machine, or it leaves less than `n` to take apart. -/
def Follows (n : Nat) (next : Next) (m : Machine) : Prop :=
  Arrives next m.advance ∨ ∃ σ, next = .more σ ∧ MachineMeans σ m ∧ σ.weight < n

theorem Arrives.follows {next : Next} {m : Machine} (h : Arrives next m.advance) (n : Nat) :
    Follows n next m :=
  Or.inl h

theorem NextMeans.follows {next : Next} {m : Machine} (h : NextMeans next m.advance) (n : Nat) :
    Follows n next m :=
  Or.inl h.arrives

namespace Activity

variable (a : Activity) (c : Context)

theorem weight_wait : (a.wait c).weight = c.weight + a.weight := by
  simp [weight, wait]

theorem held_wait : (a.wait c).held = a.held ++ c.held := by
  simp [held, wait]

theorem isGlobal_eq_of_awaits {G : Ground} {code : Code Value} {choosing : Choosing} {Γ : Lexical}
    {ip : Nat} {a : Activity} (h : Awaits G code a.isProgram choosing Γ ip a.contexts) :
    a.isGlobal = Γ.isGlobal :=
  h.isGlobal_eq.symm

end Activity

section Bears

variable {R : Value → Value → Prop} {G : Ground} {choosing : Choosing} {Γ : Lexical}
  {extra : List Value} {a : Activity} {b : Activation} {c : Context}

/-- Values that are known are held while others are awaited. -/
theorem Bears.wait (h : Bears R G choosing Γ extra a b) (hheld : c.held = extra) :
    Bears R G choosing Γ [] (a.wait c) b :=
  { h with
    operands := by
      rw [List.append_nil, Activity.held_wait, hheld]
      exact h.operands }

/-- The awaited value joins those that are known. -/
theorem Bears.arrive (h : Bears R G choosing Γ extra (a.wait c) b) :
    Bears R G choosing Γ (c.held ++ extra) a b :=
  { h with
    operands := by
      have hoperands := h.operands
      rwa [Activity.held_wait, List.append_assoc] at hoperands }

end Bears

section Laid

variable {G : Ground} {code : Code Value} {Γ Γ' : Lexical} {a b : Nat} {e : Expr}

theorem LaidAll.nil_inv (h : LaidAll G code Γ [] a Γ' b) : Γ' = Γ ∧ b = a := by
  obtain ⟨_, _, hlowered, hlayout⟩ := h
  cases hlowered
  cases hlayout
  exact ⟨rfl, rfl⟩

theorem LaidAll.cons_inv {es : List Expr} (h : LaidAll G code Γ (e :: es) a Γ' b) :
    ∃ Γ₁ c, Laid G code Γ false e a Γ₁ c ∧ LaidAll G code Γ₁ es c Γ' b := by
  obtain ⟨hnamed, _, hlowered, hlayout⟩ := h
  obtain ⟨he, hes⟩ := List.forall_mem_cons.1 hnamed
  cases hlowered with
  | cons hfirst hrest =>
    cases hlayout with
    | cons hlaid hlaids => exact ⟨_, _, ⟨he, _, hfirst, hlaid⟩, hes, _, hrest, hlaids⟩

theorem LaidFields.nil_inv {line : Nat} (h : LaidFields G code Γ line [] a Γ' b) : Γ' = Γ ∧ b = a := by
  obtain ⟨_, _, hlowered, hlayout⟩ := h
  cases hlowered
  cases hlayout
  exact ⟨rfl, rfl⟩

/-- The name of a field is a constant. -/
theorem LaidFields.cons_inv {line : Nat} {name : String} {fields : List (String × Expr)}
    (h : LaidFields G code Γ line ((name, e) :: fields) a Γ' b) :
    ∃ s i c Γ₁ d, G.reading.names.find? name = some s ∧ code.constants[i]? = some (.symbol s) ∧
      code.Indexed a .constant i line c ∧ Laid G code Γ false e c Γ₁ d ∧
      LaidFields G code Γ₁ line fields d Γ' b := by
  obtain ⟨hnamed, _, hlowered, hlayout⟩ := h
  obtain ⟨he, hes⟩ := List.forall_mem_cons.1 hnamed
  cases hlowered with
  | cons hfirst hrest =>
    cases hlayout with
    | cons hname hsymbol hat hlaid hlaids =>
      exact ⟨_, _, _, _, _, hname, hsymbol, hat, ⟨he, _, hfirst, hlaid⟩, hes, _, hrest, hlaids⟩

end Laid

namespace Hosts

variable {σ : State} {m : Machine} {pre : List Activation} {b : Activation} {a : Activity}
  {acts : List Activity} {G : Ground} {choosing : Choosing} {Γ Γ₁ Γ₂ : Lexical} {n c d : Nat}

/-- A step that the machine does not see. -/
theorem stays {control : Control} (h : Hosts σ m .running)
    (hacts : List.Forall₂ (Waits (Means σ.memory)) acts pre.reverse)
    (hruns : Runs (Means σ.memory) control a b) (hweight : control.weight + a.weight < n) :
    Follows n (σ.goes (a :: acts) control) (m.showing (pre ++ [b]) []) := by
  have hgoes := h.goes (Or.inr rfl) hacts hruns
  rw [State.goes] at hgoes
  cases hgoes with
  | more hm => exact Or.inr ⟨_, rfl, hm, hweight⟩

/-- Values become a list, a tuple, a field, a declaration, an assignment or a call. -/
theorem conclude {values : List Value} {work : Work} (h : Hosts σ m .running)
    (hacts : List.Forall₂ (Waits (Means σ.memory)) acts pre.reverse)
    (hbears : Bears (Means σ.memory) G choosing Γ values a b)
    (hconcludes : Concludes G b.code (a.contexts.all Context.isTransparent) work values.length Γ b.ip
      Γ₁ c)
    (hawaits : Awaits G b.code a.isProgram choosing Γ₁ c a.contexts) (hweight : a.weight < n) :
    Follows n (σ.conclude a acts values work) (m.showing (pre ++ [b]) []) := by
  have hglobal := Activity.isGlobal_eq_of_awaits hawaits
  obtain ⟨ops, vs, hoperands, hvs, hbears'⟩ := hbears.split
  generalize hlength : values.length = count at hconcludes
  cases hconcludes with
  | @call _ _ k line hat =>
    obtain ⟨args, callee, rfl⟩ := (List.eq_nil_or_concat' values).resolve_left
      (by rintro rfl; cases hlength)
    obtain rfl : args.length = k := by simpa using hlength
    rw [State.conclude, List.dropLast_concat, hbears.reading, List.getLastD_concat]
    exact h.stays hacts ⟨G, choosing, Γ, hbears, .call hat hawaits⟩
      (by simpa [Control.weight] using hweight)
  | list hat =>
    refine NextMeans.follows ?_ n
    rw [h.sole.running.advance_execute rfl hat hoperands, show Op.buildList.narrow = .buildList from rfl,
      ← List.nil_append vs, Exec.execute_buildList m _ [] b.ip _ (hvs.length_eq.symm.trans hlength)]
    exact h.gives hacts { hbears' with } ((meaning σ.memory).list hvs) hawaits
  | tuple hat =>
    refine NextMeans.follows ?_ n
    rw [h.sole.running.advance_execute rfl hat hoperands, show Op.buildTuple.narrow = .buildTuple from rfl,
      ← List.nil_append vs, Exec.execute_buildTuple m _ [] b.ip _ (hvs.length_eq.symm.trans hlength)]
    exact h.gives hacts { hbears' with } ((meaning σ.memory).tuple hvs) hawaits
  | @field _ _ _ i line name s hname hsymbol hat =>
    obtain ⟨v, rfl⟩ := List.length_eq_one_iff.1 hlength
    obtain ⟨w, hv, rfl⟩ := forall₂_singleton_left hvs
    have hconstant : { b with ip := c, operands := ops }.code.constants[i]? = some (.symbol s) :=
      hbears.covers.symbol hname hsymbol
    have hproject := project_related (L := meaning σ.memory) hv s
    refine NextMeans.follows ?_ n
    rw [State.conclude, hbears.reading, Ground.symbol_eq hname, h.sole.running.advance_indexed rfl hat hoperands,
      ← List.nil_append [w], Exec.execute_getField m pre _ [] b.ip _ w hconstant]
    simp only [List.headD_cons]
    generalize v.project s = result at hproject
    generalize w.project s = result' at hproject
    obtain ⟨u, u', rfl, rfl, hu⟩ | ⟨e, rfl, rfl⟩ := hproject.inv
    · exact h.gives hacts { hbears' with } hu hawaits
    · exact h.fail _ _ _ _
  | @declareGlobal _ _ d i line name s hinside hname hsymbol hat hnone =>
    obtain ⟨v, rfl⟩ := List.length_eq_one_iff.1 hlength
    obtain ⟨w, hv, rfl⟩ := forall₂_singleton_left hvs
    have hconstant : { b with ip := d, operands := ops }.code.constants[i]? = some (.symbol s) :=
      hbears.covers.symbol hname hsymbol
    refine Arrives.follows ?_ n
    rw [State.conclude, hbears.reading, Ground.symbol_eq hname, State.declare, hglobal, if_pos hinside,
      h.sole.running.advance_indexed rfl hat hoperands, ← List.nil_append [w],
      Exec.execute_storeGlobal m pre _ [] b.ip _ w hconstant]
    exact h.setGlobal (b := { b with ip := d, operands := ops }) hacts { hbears' with } s hv hnone hawaits
  | @declareLocal _ _ d line name s hwritten hlocal hname hroom hat hnone =>
    obtain ⟨v, rfl⟩ := List.length_eq_one_iff.1 hlength
    obtain ⟨w, hv, rfl⟩ := forall₂_singleton_left hvs
    have hs := G.shows_of_written hwritten hname
    refine Arrives.follows ?_ n
    rw [State.conclude, hbears.reading, Ground.symbol_eq hname, State.declare, hglobal,
      if_neg (by simpa [Lexical.isGlobal, Lexical.declared] using hlocal),
      h.sole.running.advance_indexed rfl hat hoperands, ← List.nil_append [w], Exec.execute_storeLocal]
    refine ⟨_, .move (.refl _), h.gives_none hacts ?_ hnone hawaits⟩
    exact
      { hbears' with
        locals := hbears'.locals.declare hs hroom hv
        copied := hbears'.copied.congr rfl }
  | @assign _ _ d line name s hwritten hname haccess hnone =>
    obtain ⟨v, rfl⟩ := List.length_eq_one_iff.1 hlength
    refine Arrives.follows ?_ n
    rw [State.conclude, hbears.reading, Ground.symbol_eq hname]
    exact h.stores hacts hbears (G.shows_of_written hwritten hname) hname haccess hnone hawaits

/-- Expressions whose values are all kept are evaluated in order. -/
theorem operate {done : List Value} {work : Work} {rest : List Expr} (h : Hosts σ m .running)
    (hacts : List.Forall₂ (Waits (Means σ.memory)) acts pre.reverse)
    (hbears : Bears (Means σ.memory) G choosing Γ done a b)
    (hlaid : LaidAll G b.code Γ rest b.ip Γ₁ c)
    (hconcludes : Concludes G b.code (a.contexts.all Context.isTransparent) work
      (done.length + rest.length) Γ₁ c Γ₂ d)
    (hawaits : Awaits G b.code a.isProgram choosing Γ₂ d a.contexts)
    (hweight : weightOf rest + a.weight < n) :
    Follows n (σ.operate a acts work done rest) (m.showing (pre ++ [b]) []) := by
  cases rest with
  | nil =>
    obtain ⟨rfl, rfl⟩ := hlaid.nil_inv
    exact h.conclude hacts hbears hconcludes hawaits (by simpa [weightOf] using hweight)
  | cons e rest =>
    obtain ⟨Γ', c', hfirst, hrest⟩ := hlaid.cons_inv
    refine h.stays hacts ⟨G, choosing, Γ, hbears.wait (c := .operands work done rest) rfl, ?_⟩ ?_
    · refine .eval hfirst (.operands hrest ?_ hawaits)
      rwa [List.length_cons, ← Nat.add_assoc, Nat.add_right_comm] at hconcludes
    · simp only [weightOf, List.map_cons, List.sum_cons] at hweight
      simp only [Activity.weight_wait, Control.weight, Context.weight, weightOf]
      omega

end Hosts

end Resumable.Meaning
