import Resumable.Proofs.Meaning.Closures

/-!
Each form of expression without a handler is evaluated by the machine as it is written.
-/

namespace Resumable

theorem LoweredAll.concat {es es' : List Expr} {e e' : Expr} (hes : LoweredAll es es')
    (he : e.Lowered e') : LoweredAll (es ++ [e]) (es' ++ [e']) := by
  induction es generalizing es' with
  | nil =>
    cases hes
    exact .cons he .nil
  | cons first es ih =>
    cases hes with
    | cons hfirst hrest => exact .cons hfirst (ih hrest)

theorem LoweredAll.length_eq {es es' : List Expr} (h : LoweredAll es es') : es'.length = es.length := by
  induction es generalizing es' with
  | nil =>
    cases h
    rfl
  | cons e es ih =>
    cases h with
    | cons _ hrest => rw [List.length_cons, List.length_cons, ih hrest]

theorem LoweredFields.length_eq {fields fields' : List (String × Expr)}
    (h : LoweredFields fields fields') : fields'.length = fields.length := by
  induction fields generalizing fields' with
  | nil =>
    cases h
    rfl
  | cons f fields ih =>
    cases h with
    | cons _ hrest => rw [List.length_cons, List.length_cons, ih hrest]

theorem LayoutAll.concat {o : CompileOptions} {names : Names} {code : Code Value} {Γ Γ₁ Γ₂ : Lexical}
    {es : List Expr} {e : Expr} {a b c : Nat} (hes : LayoutAll o names code Γ es a Γ₁ b)
    (he : Layout o names code Γ₁ false e b Γ₂ c) :
    LayoutAll o names code Γ (es ++ [e]) a Γ₂ c := by
  induction es generalizing Γ a with
  | nil =>
    cases hes
    exact .cons he .nil
  | cons first es ih =>
    cases hes with
    | cons hfirst hrest => exact .cons hfirst (ih hrest)

namespace Meaning

/-- Names and values in turn mean names and values in turn. -/
theorem keyed_inv {μ : Memory} {fields : List (Symbol × Value)} {vs : List Value}
    (h : List.Forall₂ (Means μ) (Exec.keyed fields) vs) :
    ∃ fields', vs = Exec.keyed fields' ∧ Env.Related (Means μ) fields fields' := by
  induction fields generalizing vs with
  | nil =>
    cases h
    exact ⟨[], rfl, .nil⟩
  | cons f fields ih =>
    obtain ⟨key, rest, hkey, hrest, rfl⟩ := List.forall₂_cons_left_iff.1 h
    obtain ⟨w, vs, hw, hvs, rfl⟩ := List.forall₂_cons_left_iff.1 hrest
    obtain ⟨fields', rfl, hfields⟩ := ih hvs
    cases hkey.unfold.alike with
    | flat => exact ⟨(f.1, w) :: fields', rfl, .cons ⟨rfl, hw⟩ hfields⟩

/-- Literals mean themselves. -/
theorem means_literal {μ : Memory} {e : Expr} {v : Value} (hliteral : e.literal? = some v) :
    Means μ v v := by
  have hsimple : v.isSimple = true := by cases e <;> cases hliteral <;> rfl
  exact (meaning μ).flat hsimple

section Inversion

variable {G : Ground} {code : Code Value} {Γ Γ' : Lexical} {tail : Bool} {a b line : Nat}

theorem Laid.nothing_inv (h : Laid G code Γ tail (.nothing line) a Γ' b) :
    Γ' = Γ ∧ b = a + 1 ∧ code.At a .pushNone 0 (G.reading.shown line) := by
  obtain ⟨_, _, hlowered, hlayout⟩ := h
  cases hlowered
  cases hlayout with
  | nothing hat => exact ⟨rfl, rfl, hat⟩
  | literal hliteral => cases hliteral

theorem Laid.literal_inv {e : Expr} {v : Value} (h : Laid G code Γ tail e a Γ' b)
    (hliteral : e.literal? = some v) :
    Γ' = Γ ∧ ∃ i, code.constants[i]? = some v ∧
      code.Indexed a .constant i (G.reading.shown e.line) b := by
  obtain ⟨_, _, hlowered, hlayout⟩ := h
  have hatom : e.isAtom = true := by cases e <;> cases hliteral <;> rfl
  cases hlowered with
  | atom =>
    cases hlayout with
    | literal hliteral' hconstant hat =>
      rw [hliteral] at hliteral'
      cases hliteral'
      exact ⟨rfl, _, hconstant, hat⟩
    | _ => cases hliteral
  | _ => cases hatom

theorem Laid.name_inv {name : String} (h : Laid G code Γ tail (.name line name) a Γ' b) :
    Γ' = Γ ∧ G.written name ∧ ∃ s, G.reading.names.find? name = some s ∧
      code.Access Γ .loads s a (G.reading.shown line) b := by
  obtain ⟨hnamed, _, hlowered, hlayout⟩ := h
  cases hlowered
  cases hlayout with
  | name hname haccess => exact ⟨rfl, hnamed.here, _, hname, haccess⟩
  | literal hliteral => cases hliteral

/-- The arguments of a call come before the function. -/
theorem Laid.call_inv {callee : Expr} {args : List Expr}
    (h : Laid G code Γ tail (.call line callee args) a Γ' b) :
    ∃ c, LaidAll G code Γ (args ++ [callee]) a Γ' c ∧
      Concludes G code tail (.call line) (args ++ [callee]).length Γ' c Γ' b := by
  obtain ⟨hnamed, _, hlowered, hlayout⟩ := h
  cases hlowered with
  | atom hatom => cases hatom
  | call hcallee hargs =>
    cases hlayout with
    | literal hliteral => cases hliteral
    | call hlaids hlaid hat =>
      have hall : ∀ e ∈ args ++ [callee], e.Named G.written := by
        intro e he
        refine hnamed.part ?_
        obtain he | he := List.mem_append.1 he
        · exact .tail _ he
        · obtain rfl := List.mem_singleton.1 he
          exact .head _
      refine ⟨_, ⟨hall, _, hargs.concat hcallee, hlaids.concat hlaid⟩, ?_⟩
      rw [List.length_append, List.length_singleton]
      rw [hargs.length_eq] at hat
      exact .call hat

/-- An operation on one value. -/
theorem Laid.single {e : Expr} {c : Nat} (h : Laid G code Γ false e a Γ' b) (hc : b = c) :
    LaidAll G code Γ [e] a Γ' c := by
  obtain ⟨hnamed, _, hlowered, hlayout⟩ := h
  subst hc
  exact ⟨by simpa using hnamed, _, .cons hlowered .nil, .cons hlayout .nil⟩

theorem Laid.list_inv {items : List Expr} (h : Laid G code Γ tail (.list line items) a Γ' b) :
    ∃ c, LaidAll G code Γ items a Γ' c ∧ Concludes G code tail .list items.length Γ' c Γ' b := by
  obtain ⟨hnamed, _, hlowered, hlayout⟩ := h
  cases hlowered with
  | atom hatom => cases hatom
  | list hitems =>
    cases hlayout with
    | literal hliteral => cases hliteral
    | list hlaids hat =>
      rw [hitems.length_eq] at hat
      exact ⟨_, ⟨fun e he => hnamed.part he, _, hitems, hlaids⟩, .list hat⟩

theorem Laid.tuple_inv {items : List Expr} (h : Laid G code Γ tail (.tuple line items) a Γ' b) :
    ∃ c, LaidAll G code Γ items a Γ' c ∧ Concludes G code tail .tuple items.length Γ' c Γ' b := by
  obtain ⟨hnamed, _, hlowered, hlayout⟩ := h
  cases hlowered with
  | atom hatom => cases hatom
  | tuple hitems =>
    cases hlayout with
    | literal hliteral => cases hliteral
    | tuple hlaids hat =>
      rw [hitems.length_eq] at hat
      exact ⟨_, ⟨fun e he => hnamed.part he, _, hitems, hlaids⟩, .tuple hat⟩

theorem Laid.field_inv {target : Expr} {name : String}
    (h : Laid G code Γ tail (.field line target name) a Γ' b) :
    ∃ c, Laid G code Γ false target a Γ' c ∧
      Concludes G code tail (.field line name) 1 Γ' c Γ' b := by
  obtain ⟨hnamed, _, hlowered, hlayout⟩ := h
  cases hlowered with
  | atom hatom => cases hatom
  | field htarget =>
    cases hlayout with
    | literal hliteral => cases hliteral
    | field hlaid hname hsymbol hat =>
      exact ⟨_, ⟨hnamed.part (.head _), _, htarget, hlaid⟩, .field hname hsymbol hat⟩

theorem Laid.declare_inv {value : Expr} {name : String}
    (h : Laid G code Γ tail (.declare line name value) a Γ' b) :
    ∃ Γ₁ c, Laid G code Γ false value a Γ₁ c ∧
      Concludes G code tail (.declare name) 1 Γ₁ c Γ' b := by
  obtain ⟨hnamed, _, hlowered, hlayout⟩ := h
  have hvalue : value.Named G.written := hnamed.part (.head _)
  cases hlowered with
  | atom hatom => cases hatom
  | declare hlower =>
    cases hlayout with
    | literal hliteral => cases hliteral
    | declareGlobal hlaid hglobal hname hsymbol hat hnone =>
      exact ⟨_, _, ⟨hvalue, _, hlower, hlaid⟩, .declareGlobal hglobal hname hsymbol hat hnone⟩
    | declareLocal hlaid hlocal hname hroom hat hnone =>
      exact ⟨_, _, ⟨hvalue, _, hlower, hlaid⟩,
        .declareLocal hnamed.here hlocal hname hroom hat hnone⟩

theorem Laid.assign_inv {value : Expr} {name : String}
    (h : Laid G code Γ tail (.assign line name value) a Γ' b) :
    ∃ c, Laid G code Γ false value a Γ' c ∧ Concludes G code tail (.assign name) 1 Γ' c Γ' b := by
  obtain ⟨hnamed, _, hlowered, hlayout⟩ := h
  cases hlowered with
  | atom hatom => cases hatom
  | assign hlower =>
    cases hlayout with
    | literal hliteral => cases hliteral
    | assign hlaid hname haccess hnone =>
      exact ⟨_, ⟨hnamed.part (.head _), _, hlower, hlaid⟩, .assign hnamed.here hname haccess hnone⟩

theorem Laid.record_inv {fields : List (String × Expr)}
    (h : Laid G code Γ tail (.record line fields) a Γ' b) :
    ∃ c, LaidFields G code Γ (G.reading.shown line) fields a Γ' c ∧
      code.At c .buildRecord fields.length (G.reading.shown line) ∧ b = c + 2 := by
  obtain ⟨hnamed, _, hlowered, hlayout⟩ := h
  cases hlowered with
  | atom hatom => cases hatom
  | record hfields =>
    cases hlayout with
    | literal hliteral => cases hliteral
    | record hlaids hat =>
      rw [hfields.length_eq] at hat
      exact ⟨_, ⟨fun f hf => hnamed.part (List.mem_map_of_mem hf), _, hfields, hlaids⟩, hat, rfl⟩

/-- What a conditional expression awaits first is its test. -/
theorem Laid.cond_inv {test whenTrue : Expr} {whenFalse : Option Expr} {isProgram : Bool}
    {choosing : Choosing} {cs : List Context}
    (h : Laid G code Γ (cs.all Context.isTransparent) (.cond line test whenTrue whenFalse) a Γ' b)
    (hawaits : Awaits G code isProgram choosing Γ' b cs) :
    Stands G code isProgram choosing Γ a (.test whenTrue whenFalse :: cs) (.eval test) := by
  obtain ⟨hnamed, _, hlowered, hlayout⟩ := h
  have htest : test.Named G.written := hnamed.part (by cases whenFalse <;> simp [Expr.parts])
  have htrue : whenTrue.Named G.written := hnamed.part (by cases whenFalse <;> simp [Expr.parts])
  cases hlowered with
  | atom hatom => cases hatom
  | condElse hlowerTest hlowerTrue hlowerFalse =>
    have hfalse : Expr.Named G.written _ := hnamed.part (.tail _ (.tail _ (.head _)))
    cases hlayout with
    | literal hliteral => cases hliteral
    | condElse hlaid hat hm hlaidTrue hend hn hlaidFalse =>
      exact .eval ⟨htest, _, hlowerTest, hlaid⟩
        (.testElse hat hm ⟨htrue, _, hlowerTrue, hlaidTrue⟩ hend hn ⟨hfalse, _, hlowerFalse, hlaidFalse⟩
          hawaits)
  | condOnly hlowerTest hlowerTrue =>
    cases hlayout with
    | literal hliteral => cases hliteral
    | condOnly hlaid hat hm hlaidTrue hend hn hnone =>
      exact .eval ⟨htest, _, hlowerTest, hlaid⟩
        (.testOnly hat hm ⟨htrue, _, hlowerTrue, hlaidTrue⟩ hend hn hnone hawaits)

theorem Laid.blockEmpty_inv (h : Laid G code Γ tail (.block line []) a Γ' b) :
    Γ' = Γ ∧ b = a + 1 ∧ code.At a .pushNone 0 (G.reading.shown line) := by
  obtain ⟨_, _, hlowered, hlayout⟩ := h
  cases hlowered with
  | atom hatom => cases hatom
  | block hbody =>
    cases hbody
    cases hlayout with
    | literal hliteral => cases hliteral
    | blockEmpty hat => exact ⟨rfl, rfl, hat⟩
    | block hstatements => cases hstatements

theorem Laid.block_inv {e : Expr} {es : List Expr} (h : Laid G code Γ tail (.block line (e :: es)) a Γ' b) :
    Γ' = Γ ∧ ∃ Γ₁, LaidStatements G code Γ.opened tail (e :: es) a Γ₁ b := by
  obtain ⟨hnamed, _, hlowered, hlayout⟩ := h
  cases hlowered with
  | atom hatom => cases hatom
  | block hbody =>
    cases hlayout with
    | literal hliteral => cases hliteral
    | blockEmpty => cases hbody
    | block hstatements => exact ⟨rfl, _, fun e he => hnamed.part he, _, hbody, hstatements⟩

theorem Laid.lambda_inv {name : Option String} {params : List String} {body : Expr}
    (h : Laid G code Γ tail (.lambda line name params body) a Γ' b) :
    Γ' = Γ ∧ ((∀ n ∈ name, G.written n) ∧ ∀ param ∈ params, G.written param) ∧
      body.Named G.written ∧ ∃ body' f i id, body.Lowered body' ∧
      LayoutFunction G.reading.options G.reading.names code Γ (G.reading.shown line) name params body' f ∧
      code.constants[i]? = some (.code id f) ∧ code.Indexed a .lambda i (G.reading.shown line) b := by
  obtain ⟨hnamed, _, hlowered, hlayout⟩ := h
  cases hlowered with
  | atom hatom => cases hatom
  | lambda hbody =>
    cases hlayout with
    | literal hliteral => cases hliteral
    | lambda hfunction hconstant hat =>
      exact ⟨rfl, hnamed.here, hnamed.part (.head _), _, _, _, _, hbody, hfunction, hconstant, hat⟩

theorem LaidStatements.last_inv {e : Expr} (h : LaidStatements G code Γ tail [e] a Γ' b) :
    Laid G code Γ tail e a Γ' b := by
  obtain ⟨hnamed, _, hlowered, hlayout⟩ := h
  cases hlowered with
  | cons hfirst hnil =>
    cases hnil
    cases hlayout with
    | last hlast => exact ⟨by simpa using hnamed, _, hfirst, hlast⟩
    | cons _ _ hrest => cases hrest

theorem LaidStatements.cons_inv {e e' : Expr} {es : List Expr}
    (h : LaidStatements G code Γ tail (e :: e' :: es) a Γ' b) :
    ∃ Γ₁ c line, Laid G code Γ false e a Γ₁ c ∧ code.At c .pop 0 line ∧
      LaidStatements G code Γ₁ tail (e' :: es) (c + 1) Γ' b := by
  obtain ⟨hnamed, _, hlowered, hlayout⟩ := h
  obtain ⟨he, hes⟩ := List.forall_mem_cons.1 hnamed
  cases hlowered with
  | cons hfirst hrest =>
    cases hlayout with
    | last => cases hrest
    | cons hlaid hat hlaids => exact ⟨_, _, _, ⟨he, _, hfirst, hlaid⟩, hat, hes, _, hrest, hlaids⟩

end Inversion

namespace Hosts

variable {σ : State} {m : Machine} {pre : List Activation} {b : Activation} {a : Activity}
  {acts : List Activity} {G : Ground} {choosing : Choosing} {Γ Γ₁ Γ₂ : Lexical} {n c d line : Nat}

/-- The values of fields are evaluated in order, and then there is a record. -/
theorem build {done : List (Symbol × Value)} {rest : List (String × Expr)} (h : Hosts σ m .running)
    (hacts : List.Forall₂ (Waits (Means σ.memory)) acts pre.reverse)
    (hbears : Bears (Means σ.memory) G choosing Γ (Exec.keyed done) a b)
    (hlaid : LaidFields G b.code Γ line rest b.ip Γ₁ c)
    (hat : b.code.At c .buildRecord (done.length + rest.length) line)
    (hawaits : Awaits G b.code a.isProgram choosing Γ₁ (c + 2) a.contexts) :
    Arrives (σ.build a acts done rest) (m.showing (pre ++ [b]) []).advance := by
  cases rest with
  | nil =>
    obtain ⟨rfl, rfl⟩ := hlaid.nil_inv
    obtain ⟨ops, vs, hoperands, hvs, hbears'⟩ := hbears.split
    obtain ⟨fields, rfl, hfields⟩ := keyed_inv hvs
    rw [List.length_nil, Nat.add_zero, hfields.length_eq] at hat
    rw [h.sole.running.advance_execute rfl hat hoperands, show Op.buildRecord.narrow = .buildRecord from rfl,
      ← List.nil_append (Exec.keyed fields), Exec.execute_buildRecord]
    have hrecord := (meaning σ.memory).record (keyed_related (L := meaning σ.memory) hfields .nil)
    exact NextMeans.arrives (h.gives hacts { hbears' with } hrecord hawaits)
  | cons field rest =>
    obtain ⟨name, e⟩ := field
    obtain ⟨s, i, c', Γ', d, hname, hsymbol, hatKey, hfirst, hrest⟩ := hlaid.cons_inv
    have hconstant : { b with ip := c' }.code.constants[i]? = some (.symbol s) := hsymbol
    have hpushed : Bears (Means σ.memory) G choosing Γ (Exec.keyed done ++ [.symbol s]) a
        ({ b with ip := c' }.pushAll [.symbol s]) :=
      Bears.pushed { hbears with } (.cons (means_symbol s) .nil)
    rw [h.sole.running.advance_indexed rfl hatKey (List.append_nil b.operands).symm,
      Exec.execute_constant m pre _ [] b.ip line hconstant, List.nil_append, State.build,
      hbears.reading, Ground.symbol_eq hname, ← List.append_nil [Value.symbol s],
      ← Machine.showing_pushAll]
    refine NextMeans.arrives (h.goes (Or.inr rfl) hacts
      ⟨G, choosing, Γ, hpushed.wait (c := .fields done s rest) rfl, ?_⟩)
    rw [List.length_cons, ← Nat.add_assoc, Nat.add_right_comm] at hat
    exact .eval hfirst (.fields hrest hat hawaits)

/-- Statements are evaluated in order. -/
theorem statements {es : List Expr} (h : Hosts σ m .running)
    (hacts : List.Forall₂ (Waits (Means σ.memory)) acts pre.reverse)
    (hbears : Bears (Means σ.memory) G choosing Γ [] a b)
    (hlaid : LaidStatements G b.code Γ (a.contexts.all Context.isTransparent) es b.ip Γ₁ c)
    (hawaits : Awaits G b.code a.isProgram choosing Γ₁ c a.contexts)
    (hweight : 2 * sizeOf es + a.weight < n + 1) :
    Follows n (σ.statements a acts es) (m.showing (pre ++ [b]) []) := by
  match es with
  | [] =>
    obtain ⟨_, _, hlowered, hlayout⟩ := hlaid
    cases hlowered
    cases hlayout
  | [e] =>
    refine h.stays hacts ⟨G, choosing, Γ, hbears, .eval hlaid.last_inv hawaits⟩ ?_
    simp only [List.cons.sizeOf_spec] at hweight
    simp only [Control.weight]
    omega
  | e :: e' :: es =>
    obtain ⟨Γ', c', line, hfirst, hat, hrest⟩ := hlaid.cons_inv
    refine h.stays hacts ⟨G, choosing, Γ, hbears.wait (c := .statements (e' :: es)) rfl,
      .eval hfirst (.statements hat hrest hawaits)⟩ ?_
    simp only [List.cons.sizeOf_spec] at hweight
    simp only [Activity.weight_wait, Control.weight, Context.weight]
    omega

/-- The value of a literal. -/
theorem literal {e : Expr} {v : Value} (h : Hosts σ m .running)
    (hacts : List.Forall₂ (Waits (Means σ.memory)) acts pre.reverse)
    (hbears : Bears (Means σ.memory) G choosing Γ [] a b) {tail : Bool}
    (hlaid : Laid G b.code Γ tail e b.ip Γ₁ c)
    (hawaits : Awaits G b.code a.isProgram choosing Γ₁ c a.contexts) (hliteral : e.literal? = some v) :
    NextMeans (σ.goes (a :: acts) (.give v)) (m.showing (pre ++ [b]) []).advance := by
  obtain ⟨rfl, i, hconstant, hat⟩ := hlaid.literal_inv hliteral
  have hconstant' : { b with ip := c }.code.constants[i]? = some v := hconstant
  rw [h.sole.running.advance_indexed rfl hat (List.append_nil b.operands).symm,
    Exec.execute_constant m pre _ [] b.ip _ hconstant']
  exact h.gives hacts { hbears with } (means_literal hliteral) hawaits

/-- The value of a name. -/
theorem name {name : String} (h : Hosts σ m .running)
    (hacts : List.Forall₂ (Waits (Means σ.memory)) acts pre.reverse)
    (hbears : Bears (Means σ.memory) G choosing Γ [] a b) {tail : Bool}
    (hlaid : Laid G b.code Γ tail (.name line name) b.ip Γ₁ c)
    (hawaits : Awaits G b.code a.isProgram choosing Γ₁ c a.contexts) :
    NextMeans (σ.eval a acts (.name line name)) (m.showing (pre ++ [b]) []).advance := by
  obtain ⟨rfl, hwritten, s, hname, haccess⟩ := hlaid.name_inv
  have hloads := h.loads pre hbears (G.shows_of_written hwritten hname) hname haccess
  rw [State.eval, hbears.reading, Ground.symbol_eq hname]
  split
  next v hread =>
    rw [hread] at hloads
    obtain ⟨w, hv, hmove⟩ := hloads
    rw [hmove]
    exact h.gives hacts { hbears with } hv hawaits
  next hread =>
    rw [hread] at hloads
    rw [hloads]
    exact h.fail _ _ _ _

/-- One step of the evaluation of an expression that is no handler. -/
theorem eval {e : Expr} (h : Hosts σ m .running)
    (hacts : List.Forall₂ (Waits (Means σ.memory)) acts pre.reverse)
    (hbears : Bears (Means σ.memory) G choosing Γ [] a b)
    (hlaid : Laid G b.code Γ (a.contexts.all Context.isTransparent) e b.ip Γ₁ c)
    (hawaits : Awaits G b.code a.isProgram choosing Γ₁ c a.contexts)
    (hweight : 2 * sizeOf e + a.weight < n + 1) (hplain : e.isHandle = false) :
    Follows n (σ.eval a acts e) (m.showing (pre ++ [b]) []) := by
  cases e with
  | nothing line =>
    obtain ⟨rfl, rfl, hat⟩ := hlaid.nothing_inv
    exact (h.gives_none hacts hbears hat hawaits).follows n
  | bool line v => exact (h.literal hacts hbears hlaid hawaits rfl).follows n
  | int line v => exact (h.literal hacts hbears hlaid hawaits rfl).follows n
  | float line v => exact (h.literal hacts hbears hlaid hawaits rfl).follows n
  | str line v => exact (h.literal hacts hbears hlaid hawaits rfl).follows n
  | name line text => exact (h.name hacts hbears hlaid hawaits).follows n
  | call line callee args =>
    obtain ⟨c, hlaids, hconcludes⟩ := hlaid.call_inv
    refine h.operate hacts hbears hlaids (by simpa using hconcludes) hawaits ?_
    have hle := weightOf_le args
    simp only [weightOf, Expr.call.sizeOf_spec, List.map_append, List.sum_append, List.map_singleton,
      List.sum_singleton] at hle hweight ⊢
    omega
  | list line items =>
    obtain ⟨c, hlaids, hconcludes⟩ := hlaid.list_inv
    refine h.operate hacts hbears hlaids (by simpa using hconcludes) hawaits ?_
    have hle := weightOf_le items
    simp only [Expr.list.sizeOf_spec] at hweight
    omega
  | tuple line items =>
    obtain ⟨c, hlaids, hconcludes⟩ := hlaid.tuple_inv
    refine h.operate hacts hbears hlaids (by simpa using hconcludes) hawaits ?_
    have hle := weightOf_le items
    simp only [Expr.tuple.sizeOf_spec] at hweight
    omega
  | field line target text =>
    obtain ⟨c, hlaid, hconcludes⟩ := hlaid.field_inv
    refine h.operate hacts hbears (hlaid.single rfl) hconcludes hawaits ?_
    simp only [weightOf, Expr.field.sizeOf_spec, List.map_singleton, List.sum_singleton] at hweight ⊢
    omega
  | declare line text value =>
    obtain ⟨Γ', c, hlaid, hconcludes⟩ := hlaid.declare_inv
    refine h.operate hacts hbears (hlaid.single rfl) hconcludes hawaits ?_
    simp only [weightOf, Expr.declare.sizeOf_spec, List.map_singleton, List.sum_singleton] at hweight ⊢
    omega
  | assign line text value =>
    obtain ⟨c, hlaid, hconcludes⟩ := hlaid.assign_inv
    refine h.operate hacts hbears (hlaid.single rfl) hconcludes hawaits ?_
    simp only [weightOf, Expr.assign.sizeOf_spec, List.map_singleton, List.sum_singleton] at hweight ⊢
    omega
  | record line fields =>
    obtain ⟨c, hlaids, hat, rfl⟩ := hlaid.record_inv
    refine (h.build hacts hbears hlaids ?_ hawaits).follows n
    rwa [List.length_nil, Nat.zero_add]
  | cond line test whenTrue whenFalse =>
    refine h.stays hacts
      ⟨G, choosing, Γ, hbears.wait (c := .test whenTrue whenFalse) rfl, hlaid.cond_inv hawaits⟩ ?_
    simp only [Expr.cond.sizeOf_spec] at hweight
    simp only [Activity.weight_wait, Control.weight, Context.weight]
    omega
  | lambda line text params body =>
    obtain ⟨rfl, hwritten, hbody, body', f, i, id, hlowered, hfunction, hconstant, hat⟩ :=
      hlaid.lambda_inv
    exact (h.lambda hacts hbears hfunction hconstant hat hwritten hbody hlowered hawaits).follows n
  | block line body =>
    cases body with
    | nil =>
      obtain ⟨rfl, rfl, hat⟩ := hlaid.blockEmpty_inv
      exact (h.gives_none hacts hbears hat hawaits).follows n
    | cons e es =>
      obtain ⟨rfl, Γ', hstatements⟩ := hlaid.block_inv
      have hopened : Bears (Means σ.memory) G choosing Γ₁.opened [] a b :=
        { hbears with
          locals := hbears.locals.congr rfl
          copied := hbears.copied.congr rfl }
      refine h.stays hacts ⟨G, choosing, Γ₁.opened,
        hopened.wait (c := .scope a.locals.length) rfl, ?_⟩ ?_
      · refine .run hstatements (.scope hstatements.grows ?_ hbears.locals.based hawaits)
        exact hbears.locals.shown.length_eq.symm
      · simp only [Expr.block.sizeOf_spec] at hweight
        simp only [Activity.weight_wait, Control.weight, Context.weight]
        omega
  | handle => cases hplain
  | handled => exact hlaid.1.here.elim

end Hosts

end Meaning

end Resumable
