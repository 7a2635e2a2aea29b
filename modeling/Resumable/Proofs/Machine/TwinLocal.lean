import Resumable.Proofs.Machine.Twin

/-!
Instructions that stay within the last activation of a thread: all but calls and the installing of a
handler. In two threads whose last activations are twins, handlers apart, they do the same, whatever
lies below.
-/

namespace Resumable

variable {κ : Kind} {ids : Nat → Nat → Prop} {R : Value → Value → Prop}
  {pairs : List (Value × Value)}

theorem joins_replicate {n : Nat}
    (hpairs : List.Forall₂ (κ.Joins ids R) (List.replicate n .value) pairs) :
    pairs.length = n ∧ List.Forall₂ R (pairs.map Prod.fst) (pairs.map Prod.snd) := by
  induction n generalizing pairs with
  | zero =>
    cases hpairs
    exact ⟨rfl, .nil⟩
  | succ n ih =>
    obtain ⟨p, rest, hp, hrest, rfl⟩ := List.forall₂_cons_left_iff.1 hpairs
    obtain ⟨hlength, hrel⟩ := ih hrest
    exact ⟨congrArg (· + 1) hlength, .cons hp hrel⟩

/-- The arguments of a call and what is called. -/
theorem joins_call {n : Nat}
    (hpairs : List.Forall₂ (κ.Joins ids R) (List.replicate n .value ++ [.value]) pairs) :
    ∃ args args' callee callee', pairs.map Prod.fst = args ++ [callee] ∧
      pairs.map Prod.snd = args' ++ [callee'] ∧ args.length = n ∧ args'.length = n ∧
      List.Forall₂ R args args' ∧ R callee callee' := by
  obtain ⟨ps, qs, hps, hqs, rfl⟩ := forall₂_split hpairs
  obtain ⟨p, hp, rfl⟩ := forall₂_singleton_left hqs
  obtain ⟨hlength, hrel⟩ := joins_replicate hps
  exact ⟨ps.map Prod.fst, ps.map Prod.snd, p.1, p.2, by simp, by simp, by simpa using hlength,
    by simpa using hlength, hrel, hp⟩

/-- Names and values in turn make the fields of a record. -/
theorem joins_keyed {n : Nat}
    (hpairs : List.Forall₂ (κ.Joins ids R) (List.replicate n [Kind.key, .value]).flatten pairs) :
    ∃ fields fields', fields.length = n ∧ fields'.length = n ∧
      pairs.map Prod.fst = Exec.keyed fields ∧ pairs.map Prod.snd = Exec.keyed fields' ∧
      Env.Related R fields fields' := by
  induction n generalizing pairs with
  | zero =>
    cases hpairs
    exact ⟨[], [], rfl, rfl, rfl, rfl, .nil⟩
  | succ n ih =>
    rw [List.replicate_succ, List.flatten_cons] at hpairs
    obtain ⟨ps, qs, hps, hqs, rfl⟩ := forall₂_split hpairs
    obtain ⟨key, _, ⟨s, rfl⟩, hrest, rfl⟩ := List.forall₂_cons_left_iff.1 hps
    obtain ⟨p, hp, rfl⟩ := forall₂_singleton_left hrest
    obtain ⟨fields, fields', hlength, hlength', hfst, hsnd, hrel⟩ := ih hqs
    refine ⟨(s, p.1) :: fields, (s, p.2) :: fields', by simp [hlength], by simp [hlength'], ?_, ?_,
      .cons ⟨rfl, hp⟩ hrel⟩
    · simp [hfst, Exec.keyed]
    · simp [hsnd, Exec.keyed]

/-- Effects and clauses in turn. -/
theorem joins_clauses {n : Nat} (hκ : κ = .value ∨ κ = .clause)
    (hpairs : List.Forall₂ (κ.Joins ids R) (List.replicate n [Kind.value, κ]).flatten pairs) :
    ∃ ps ps' : List (Value × Value), ps.length = n ∧ ps'.length = n ∧
      pairs.map Prod.fst = ps.flatMap (fun p => [p.1, p.2]) ∧
      pairs.map Prod.snd = ps'.flatMap (fun p => [p.1, p.2]) ∧
      List.Forall₂ (fun p p' => R p.1 p'.1 ∧ R p.2 p'.2) ps ps' ∧ ∀ p ∈ ps, κ.Fits p.2 := by
  induction n generalizing pairs with
  | zero =>
    cases hpairs
    exact ⟨[], [], rfl, rfl, rfl, rfl, .nil, nofun⟩
  | succ n ih =>
    rw [List.replicate_succ, List.flatten_cons] at hpairs
    obtain ⟨ps, qs, hps, hqs, rfl⟩ := forall₂_split hpairs
    obtain ⟨e, _, he, hrest, rfl⟩ := List.forall₂_cons_left_iff.1 hps
    obtain ⟨c, hc, rfl⟩ := forall₂_singleton_left hrest
    have hclause : R c.1 c.2 ∧ κ.Fits c.1 := by
      obtain rfl | rfl := hκ
      · exact ⟨hc, trivial⟩
      · exact hc
    obtain ⟨ps, ps', hlength, hlength', hfst, hsnd, hrel, hfits⟩ := ih hqs
    refine ⟨(e.1, c.1) :: ps, (e.2, c.2) :: ps', by simp [hlength], by simp [hlength'], ?_, ?_,
      .cons ⟨he, hclause.1⟩ hrel, List.forall_mem_cons.2 ⟨hclause.2, hfits⟩⟩
    · simp [hfst]
    · simp [hsnd]

theorem ClausesRelated.twin {clauses clauses' : List (Effect × Value)}
    (hrel : ClausesRelated ids R clauses clauses') (hfits : ∀ c ∈ clauses, κ.Fits c.2) :
    ClausesTwin κ ids R clauses clauses' := by
  induction hrel with
  | nil => exact .nil
  | cons hfirst _ ih =>
    obtain ⟨hfit, hfits⟩ := List.forall_mem_cons.1 hfits
    exact .cons ⟨hfirst.1, hfirst.2, hfit⟩ (ih hfits)

namespace Activation

/-- An activation without its handler. -/
def bare (a : Activation) : Activation :=
  { a with handler := none }

variable {awaited : List Kind} {a a' : Activation}

theorem bindAll_bare (a : Activation) (env : List (Symbol × Value)) (captures : List Capture) :
    a.bare.bindAll env captures = a.bindAll env captures := by
  induction captures generalizing env with
  | nil => rfl
  | cons c captures ih =>
    rw [bindAll, bindAll]
    exact bind_congr fun v => ih _

theorem Twins.bare (h : a.Twins κ ids R awaited a') : a.bare.Twins κ ids R awaited a'.bare :=
  ⟨h.code, h.ip, h.sound, h.room, h.supplied, h.env, h.locals, h.typed, .none⟩

/-- Activations with their handlers. -/
theorem Twins.guarded (h : a.bare.Twins κ ids R awaited a'.bare)
    (hhandler : Option.Rel (fun bound bound' => ClausesTwin κ ids R bound.1 bound'.1) a.handler a'.handler) :
    a.Twins κ ids R awaited a' :=
  ⟨h.code, h.ip, h.sound, h.room, h.supplied, h.env, h.locals, h.typed, hhandler⟩

end Activation

namespace Exec

/-- What an instruction comes to in two threads that stays within their last activations `a` and `a'`:
these go on with the values that it leaves, with related shared states, or it fails in both. -/
inductive StayWithin (κ : Kind) (L : Likeness) (m m' : Machine) (pre pre' : List Activation)
    (a a' : Activation) (leaves : List Kind) :
    EStateM.Result Stop Machine (Option Value) → EStateM.Result Stop Machine (Option Value) → Prop
  | goesOn {w w' : World} {b b' : Activation} {pairs : List (Value × Value)} (hw : w.Related L w')
    (hb : b.bare.Twins κ L.ids L.rel leaves b'.bare) (hhandler : b.handler = a.handler)
    (hhandler' : b'.handler = a'.handler) (hpairs : List.Forall₂ (κ.Joins L.ids L.rel) leaves pairs) :
    StayWithin κ L m m' pre pre' a a' leaves
      (.ok none (({ m with world := w } : Machine).showing (pre ++ [b]) (pairs.map Prod.fst)))
      (.ok none (({ m' with world := w' } : Machine).showing (pre' ++ [b']) (pairs.map Prod.snd)))
  | fails (e : RuntimeError) :
    StayWithin κ L m m' pre pre' a a' leaves (.error (.error e) (m.showing (pre ++ [a]) []))
      (.error (.error e) (m'.showing (pre' ++ [a']) []))

variable {L : Likeness} {m m' : Machine} {pre pre' : List Activation} {a a' : Activation}

namespace StayWithin

/-- The shared states stay as they are. -/
theorem same {leaves : List Kind} {b b' : Activation} (hworld : m.world.Related L m'.world)
    (hb : b.bare.Twins κ L.ids L.rel leaves b'.bare) (hhandler : b.handler = a.handler)
    (hhandler' : b'.handler = a'.handler) (pairs : List (Value × Value))
    (hpairs : List.Forall₂ (κ.Joins L.ids L.rel) leaves pairs) :
    StayWithin κ L m m' pre pre' a a' leaves (.ok none (m.showing (pre ++ [b]) (pairs.map Prod.fst)))
      (.ok none (m'.showing (pre' ++ [b']) (pairs.map Prod.snd))) :=
  .goesOn hworld hb hhandler hhandler' hpairs

theorem value {v v' : Value} (hworld : m.world.Related L m'.world)
    (ha : a.bare.Twins κ L.ids L.rel [.value] a'.bare) (hv : L.rel v v') :
    StayWithin κ L m m' pre pre' a a' [.value] (.ok none (m.showing (pre ++ [a]) [v]))
      (.ok none (m'.showing (pre' ++ [a']) [v'])) :=
  same hworld ha rfl rfl [(v, v')] (.cons hv .nil)

end StayWithin

/-- An instruction that neither calls nor installs a handler stays within the last activations. -/
theorem stays_within {op : Op} {operand : Nat} {takes leaves : List Kind}
    (hclosures : ∀ {id id' : Nat} {f : Code Value} {env env' : List (Symbol × Value)}, L.ids id id' →
      f.Sound κ → f.SuppliedBy env → Env.Related L.rel env env' →
      L.rel (.closure id f env) (.closure id' f env'))
    (hworld : m.world.Related L m'.world) (ha : a.bare.Twins κ L.ids L.rel leaves a'.bare)
    (hκ : κ = .value ∨ κ = .clause) (hstraight : a.code.Straight κ op operand takes leaves)
    (hpairs : List.Forall₂ (κ.Joins L.ids L.rel) takes pairs)
    (hop : op ≠ .call ∧ op ≠ .tailCall ∧ op ≠ .handle) (start line : Nat) :
    StayWithin κ L m m' pre pre' a a' leaves
      (execute { op, operand, start, line } (m.showing (pre ++ [a]) (pairs.map Prod.fst)))
      (execute { op, operand, start, line } (m'.showing (pre' ++ [a']) (pairs.map Prod.snd))) := by
  have hconstants : ∀ {i : Nat} {v : Value}, a.code.constants[i]? = some v →
      a'.code.constants[i]? = some v := by
    intro i v h
    have hcode : a'.code = a.code := ha.code
    rwa [hcode]
  cases hstraight with
  | @literal i v hconstant hliteral =>
    cases hpairs
    simp only [List.map_nil]
    rw [execute_constant m pre a [] start line hconstant,
      execute_constant m' pre' a' [] start line (hconstants hconstant)]
    have hsimple : v.isSimple = true := by cases v <;> first | rfl | cases hliteral
    exact StayWithin.value hworld ha (L.flat hsimple)
  | @key i name hconstant =>
    cases hpairs
    simp only [List.map_nil]
    rw [execute_constant m pre a [] start line hconstant,
      execute_constant m' pre' a' [] start line (hconstants hconstant)]
    exact StayWithin.same hworld ha rfl rfl [(.symbol name, .symbol name)] (.cons ⟨name, rfl⟩ .nil)
  | pushNone =>
    cases hpairs
    simp only [List.map_nil]
    rw [execute_pushNone, execute_pushNone]
    exact StayWithin.value hworld ha (L.flat rfl)
  | pop =>
    obtain ⟨p, hp, rfl⟩ := forall₂_singleton_left hpairs
    simp only [List.map_cons, List.map_nil]
    rw [← List.nil_append [p.1], ← List.nil_append [p.2], execute_pop, execute_pop]
    exact StayWithin.same hworld ha rfl rfl [] .nil
  | loadLocal hroom =>
    cases hpairs
    simp only [List.map_nil]
    have hlocal : operand < a.locals.size := Nat.lt_of_lt_of_le hroom ha.room
    have hrel : Option.Rel L.rel a.locals[operand]? a'.locals[operand]? :=
      getElem?_locals_related ha.locals operand
    rw [Array.getElem?_eq_getElem hlocal] at hrel
    generalize hlocal' : a'.locals[operand]? = found at hrel
    cases hrel with
    | some hv =>
      rw [execute_loadLocal m pre a [] start line (Array.getElem?_eq_getElem hlocal),
        execute_loadLocal m' pre' a' [] start line hlocal']
      exact StayWithin.value hworld ha hv
  | storeLocal hroom =>
    obtain ⟨p, hp, rfl⟩ := forall₂_singleton_left hpairs
    simp only [List.map_cons, List.map_nil]
    rw [← List.nil_append [p.1], ← List.nil_append [p.2], execute_storeLocal, execute_storeLocal]
    have hnext : ({ a with locals := setSlot a.locals operand p.1 } : Activation).bare.Twins κ L.ids L.rel []
        ({ a' with locals := setSlot a'.locals operand p.2 } : Activation).bare :=
      ha.setLocal operand hp
    exact StayWithin.same hworld hnext (show _ = a.handler from rfl) (show _ = a'.handler from rfl) []
      .nil
  | @loadCaptured _ name hconstant hcaptures =>
    cases hpairs
    simp only [List.map_nil]
    obtain ⟨v, hv⟩ := ha.shape.captured hcaptures
    have hrel : Option.Rel L.rel (Env.get? a.env name) (Env.get? a'.env name) :=
      Env.Related.get? ha.env name
    have hv : Env.get? a.env name = some v := hv
    rw [hv] at hrel
    generalize hget : Env.get? a'.env name = found at hrel
    cases hrel with
    | some hrel =>
      rw [execute_loadCaptured m pre a [] start line hconstant hv,
        execute_loadCaptured m' pre' a' [] start line (hconstants hconstant) hget]
      exact StayWithin.value hworld ha hrel
  | @storeCaptured _ name hconstant hcaptures =>
    obtain ⟨p, hp, rfl⟩ := forall₂_singleton_left hpairs
    simp only [List.map_cons, List.map_nil]
    obtain ⟨w, hw⟩ := ha.shape.captured hcaptures
    obtain ⟨env, henv⟩ := Env.set?_of_bound (Option.isSome_iff_exists.2 ⟨w, hw⟩) p.1
    obtain ⟨env', henv', hset⟩ := ha.setCaptured henv hp
    have hnext : ({ a with env } : Activation).bare.Twins κ L.ids L.rel []
        ({ a' with env := env' } : Activation).bare := hset
    rw [← List.nil_append [p.1], ← List.nil_append [p.2],
      execute_storeCaptured m pre a [] start line p.1 hconstant henv,
      execute_storeCaptured m' pre' a' [] start line p.2 (hconstants hconstant) henv']
    exact StayWithin.same hworld hnext (show _ = a.handler from rfl) (show _ = a'.handler from rfl) []
      .nil
  | @loadGlobal _ name hconstant =>
    cases hpairs
    simp only [List.map_nil]
    rw [execute_loadGlobal m pre a [] start line hconstant,
      execute_loadGlobal m' pre' a' [] start line (hconstants hconstant)]
    have hrel := hworld.globals name
    generalize m.world.globals.get? name = found at hrel
    generalize m'.world.globals.get? name = found' at hrel
    cases hrel with
    | some hv => exact StayWithin.value hworld ha hv
    | none => exact StayWithin.fails _
  | @storeGlobal _ name hconstant =>
    obtain ⟨p, hp, rfl⟩ := forall₂_singleton_left hpairs
    simp only [List.map_cons, List.map_nil]
    rw [← List.nil_append [p.1], ← List.nil_append [p.2],
      execute_storeGlobal m pre a [] start line p.1 hconstant,
      execute_storeGlobal m' pre' a' [] start line p.2 (hconstants hconstant)]
    exact .goesOn (hworld.setGlobal name hp) ha rfl rfl .nil
  | @lambda _ id f k hconstant hsupplied hkind =>
    cases hpairs
    simp only [List.map_nil]
    obtain ⟨env, env', hbound, hbound', hf, hnames, henv⟩ := ha.makes hconstant hsupplied
    rw [Activation.bindAll_bare] at hbound hbound'
    obtain ⟨hid, hdrawn⟩ := hworld.draw
    have hclosure : L.rel (.closure m.world.draw.1 f env) (.closure m'.world.draw.1 f env') :=
      hclosures hid hf hnames henv
    rw [execute_lambda m pre a [] start line hconstant hbound,
      execute_lambda m' pre' a' [] start line (hconstants hconstant) hbound']
    have hjoins : κ.Joins L.ids L.rel k
        (.closure m.world.draw.1 f env, .closure m'.world.draw.1 f env') := by
      obtain rfl | ⟨rfl, harity⟩ := hkind
      · exact hclosure
      · exact ⟨hclosure, _, _, _, rfl, harity⟩
    exact .goesOn hdrawn ha rfl rfl (.cons hjoins .nil)
  | call => exact absurd rfl hop.1
  | tailCall => exact absurd rfl hop.2.1
  | buildList =>
    obtain ⟨hlength, hrel⟩ := joins_replicate hpairs
    rw [← List.nil_append (pairs.map Prod.fst), ← List.nil_append (pairs.map Prod.snd),
      execute_buildList m _ [] start line (by simpa using hlength),
      execute_buildList m' _ [] start line (by simpa using hlength)]
    exact StayWithin.value hworld ha (L.list hrel)
  | buildTuple =>
    obtain ⟨hlength, hrel⟩ := joins_replicate hpairs
    rw [← List.nil_append (pairs.map Prod.fst), ← List.nil_append (pairs.map Prod.snd),
      execute_buildTuple m _ [] start line (by simpa using hlength),
      execute_buildTuple m' _ [] start line (by simpa using hlength)]
    exact StayWithin.value hworld ha (L.tuple hrel)
  | buildRecord =>
    obtain ⟨fields, fields', rfl, hlength', hfst, hsnd, hrel⟩ := joins_keyed hpairs
    rw [hfst, hsnd, ← List.nil_append (keyed fields), ← List.nil_append (keyed fields'),
      execute_buildRecord, ← hlength', execute_buildRecord]
    exact StayWithin.value hworld ha (L.record (keyed_related hrel .nil))
  | @getField _ name hconstant =>
    obtain ⟨p, hp, rfl⟩ := forall₂_singleton_left hpairs
    simp only [List.map_cons, List.map_nil]
    rw [← List.nil_append [p.1], ← List.nil_append [p.2],
      execute_getField m pre a [] start line p.1 hconstant,
      execute_getField m' pre' a' [] start line p.2 (hconstants hconstant)]
    obtain ⟨w, w', hw, hw', hrel⟩ | ⟨e, he, he'⟩ := (project_related hp name).inv
    · rw [hw, hw']
      exact StayWithin.value hworld ha hrel
    · rw [he, he']
      exact StayWithin.fails e
  | makeHandler =>
    obtain ⟨ps, ps', hlength, hlength', hfst, hsnd, hrel, hfits⟩ := joins_clauses hκ hpairs
    rw [hfst, hsnd, ← List.nil_append (ps.flatMap _), ← List.nil_append (ps'.flatMap _),
      execute_makeHandler m _ [] start line ps hlength,
      execute_makeHandler m' _ [] start line ps' hlength']
    obtain ⟨hid, hdrawn⟩ := hworld.draw
    obtain ⟨clauses, clauses', hc, hc', hclauses⟩ | ⟨e, he, he'⟩ :=
      (clausesFrom_related hrel).inv
    · rw [hc, hc']
      have hshape : ∀ c ∈ clauses, κ.Fits c.2 := by
        intro c hc₁
        refine hfits (.effect c.1, c.2) ?_
        rw [clausesFrom_eq_ok hc]
        exact List.mem_map_of_mem (f := fun c : Effect × Value => (Value.effect c.1, c.2)) hc₁
      exact .goesOn hdrawn ha rfl rfl
        (.cons ⟨_, _, clauses, clauses', rfl, hid, hclauses.twin hshape⟩ .nil)
    · rw [he, he']
      exact StayWithin.fails e
  | handle => exact absurd rfl hop.2.2

end Exec

end Resumable
