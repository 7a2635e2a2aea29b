import Resumable.Proofs.Machine.Transfer

/-!
Every move of a sound machine leads to a sound machine or to a sound outcome. Instructions find what
they need on the stack, in the locals, among the captured bindings and among the constants.
-/

namespace Resumable

theorem setSlot_size_le (locals : Array Value) (slot : Nat) (v : Value) :
    locals.size ≤ (setSlot locals slot v).size := by
  unfold setSlot
  split <;> simp

theorem mem_setSlot {locals : Array Value} {slot : Nat} {v w : Value}
    (hw : w ∈ setSlot locals slot v) : w = v ∨ w = .none ∨ w ∈ locals := by
  unfold setSlot at hw
  split at hw
  · obtain hw | hw := Array.mem_or_eq_of_mem_setIfInBounds hw
    · exact Or.inr (Or.inr hw)
    · exact Or.inl hw
  · simp only [Array.mem_push, Array.mem_append, Array.mem_replicate] at hw
    grind

namespace Activation

variable {κ : Kind} {a : Activation} {awaited : List Kind}

/-- A name that the code of an activation captures has a value. -/
theorem Shape.captured (hshape : a.Shape κ awaited) {s : Symbol} (hs : a.code.Captures s) :
    ∃ v, Env.get? a.env s = some v := by
  obtain ⟨c, hmem, hsame⟩ := hs
  have hbound := hshape.env c hmem
  rw [Env.get?_congr hsame] at hbound
  exact Option.isSome_iff_exists.1 hbound

/-- What code promises to supply is there. -/
theorem Shape.supplies (hshape : a.Shape κ awaited) {c : Capture} (hc : a.code.CanSupply c) :
    ∃ v, a.supply c = some v := by
  unfold Code.CanSupply at hc
  unfold supply
  cases hsource : c.source with
  | slot n =>
    rw [hsource] at hc
    have hroom : n < a.locals.size := Nat.lt_of_lt_of_le hc hshape.locals
    exact ⟨_, Array.getElem?_eq_getElem hroom⟩
  | enclosing =>
    rw [hsource] at hc
    exact hshape.captured hc

theorem mem_of_supply {c : Capture} {v : Value} (hsupply : a.supply c = some v) :
    v ∈ a.parts := by
  unfold supply at hsupply
  split at hsupply
  next n _ =>
    have hmem := Array.mem_of_getElem? hsupply
    simp [parts, hmem]
  next =>
    have hmem := Env.mem_of_get? hsupply
    simp only [parts, List.mem_append]
    exact Or.inl (Or.inl (Or.inl hmem))

theorem Sound.setLocal {v : Value} (ha : a.Sound κ awaited) (slot : Nat) (hv : v.Sound κ) :
    { a with locals := setSlot a.locals slot v }.Sound κ awaited := by
  refine ⟨⟨ha.shape.code, ha.shape.typed, ?_, ha.shape.env, ha.shape.clauses⟩, ?_⟩
  · exact Nat.le_trans ha.shape.locals (setSlot_size_le a.locals slot v)
  · intro w hw
    have hold := ha.parts w
    simp only [Activation.parts, List.mem_append, Array.mem_toList_iff] at hw hold
    obtain ((hw | hw) | hw) | hw := hw
    · exact hold (Or.inl (Or.inl (Or.inl hw)))
    · obtain rfl | rfl | hw := mem_setSlot hw
      · exact hv
      · exact Value.every_of_isFlat rfl
      · exact hold (Or.inl (Or.inl (Or.inr hw)))
    · exact hold (Or.inl (Or.inr hw))
    · exact hold (Or.inr hw)

theorem Sound.setCaptured {s : Symbol} {v : Value} {env : List (Symbol × Value)}
    (ha : a.Sound κ awaited) (henv : Env.set? a.env s v = some env) (hv : v.Sound κ) :
    { a with env }.Sound κ awaited := by
  refine ⟨⟨ha.shape.code, ha.shape.typed, ha.shape.locals, ?_, ha.shape.clauses⟩, ?_⟩
  · intro c hc
    rw [Env.get?_set? henv]
    split
    · rfl
    · exact ha.shape.env c hc
  · intro w hw
    have hold := ha.parts w
    simp only [Activation.parts, List.mem_append] at hw hold
    obtain ((hw | hw) | hw) | hw := hw
    · obtain rfl | hw := Env.mem_of_set? henv hw
      · exact hv
      · exact hold (Or.inl (Or.inl (Or.inl hw)))
    · exact hold (Or.inl (Or.inl (Or.inr hw)))
    · exact hold (Or.inl (Or.inr hw))
    · exact hold (Or.inr hw)

/-- A function that is made in an activation captures all that it needs. -/
theorem bindAll_eq_some {captures : List Capture} (env : List (Symbol × Value))
    (hsupplies : ∀ c ∈ captures, ∃ v, a.supply c = some v) :
    ∃ env', a.bindAll env captures = some env' ∧
      (∀ s, (Env.get? env s).isSome = true → (Env.get? env' s).isSome = true) ∧
      (∀ c ∈ captures, (Env.get? env' c.name).isSome = true) ∧
      ∀ v ∈ env'.map Prod.snd, v ∈ env.map Prod.snd ∨ v ∈ a.parts := by
  induction captures generalizing env with
  | nil => exact ⟨env, rfl, fun _ h => h, nofun, fun _ h => Or.inl h⟩
  | cons c captures ih =>
    obtain ⟨v, hv⟩ := hsupplies c (.head _)
    obtain ⟨env', hbound, hkeeps, hnames, hvalues⟩ :=
      ih (Env.define env c.name v) fun c hc => hsupplies c (.tail _ hc)
    refine ⟨env', ?_, ?_, ?_, ?_⟩
    · rw [bindAll, hv]
      exact hbound
    · intro s hs
      refine hkeeps s ?_
      rw [Env.get?_define]
      split
      · rfl
      · exact hs
    · intro c' hc'
      obtain rfl | hc' := List.mem_cons.1 hc'
      · refine hkeeps _ ?_
        rw [Env.get?_define, if_pos (Symbol.beq_iff.2 rfl)]
        rfl
      · exact hnames c' hc'
    · intro w hw
      obtain hw | hw := hvalues w hw
      · obtain rfl | hw := Env.mem_of_define hw
        · exact Or.inr (mem_of_supply hv)
        · exact Or.inl hw
      · exact Or.inr hw

end Activation

/-- How an instruction may fail: in ordinary ways, with the failure of a task whose result a call
takes, or because a global variable has no value. -/
def Op.MayFail (op : Op) (w : World) (e : RuntimeError) : Prop :=
  e.Ordinary ∨ (op.narrow = .call ∨ op.narrow = .tailCall) ∧ w.Keeps e ∨
    op.narrow = .loadGlobal ∧ ∃ name, e = .undefinedVariable name

theorem Op.MayFail.admissible {κ : Kind} {op : Op} {w : World} {e : RuntimeError}
    (hmay : op.MayFail w e) (hw : w.Sound κ) : e.Admissible := by
  obtain hordinary | ⟨_, hkept⟩ | ⟨_, name, rfl⟩ := hmay
  · exact hordinary.1
  · exact hw.failures e hkept
  · intro detail h
    cases h

namespace Machine

/-- What an instruction comes to: a sound machine, or the value of the innermost call, or a failure
that leaves the activations below that call alone. -/
def Executes (κ : Kind) (m : Machine) (below : List Activation) (op : Op) :
    EStateM.Result Stop Machine (Option Value) → Prop
  | .ok none m' => m'.Sound κ ∧ Onward m.waiting m.thread.levels below m'
  | .ok (some v) m' => v.Sound κ ∧ m' = m.showing below []
  | .error (.error e) m' => op.MayFail m.world e ∧ m'.world.Sound κ ∧ m.Retains m' below
  | .error .corrupt _ => False

variable {κ : Kind} {m : Machine} {below pre : List Activation} {a : Activation} {level : Level}
  {levels : List Level}

theorem Executes.of_narrow {op : Op} {r : EStateM.Result Stop Machine (Option Value)}
    (hexecutes : m.Executes κ below op.narrow r) : m.Executes κ below op r := by
  have hnarrow : op.narrow.narrow = op.narrow := by cases op <;> rfl
  unfold Executes Op.MayFail at hexecutes ⊢
  rwa [hnarrow] at hexecutes

theorem Safe.executes {x : Exec Unit} {s : Machine} {op : Op} (hsafe : m.Safe κ below (x s))
    (hop : op.narrow = .call ∨ op.narrow = .tailCall) :
    m.Executes κ below op ((do x; return none : Exec (Option Value)) s) := by
  cases hx : x s with
  | ok u m' =>
    rw [hx] at hsafe
    rw [bind_of_ok hx]
    exact hsafe
  | error stop m' =>
    rw [hx] at hsafe
    rw [bind_of_error hx]
    cases stop with
    | error e =>
      obtain ⟨he, hworld, hretains⟩ := hsafe
      exact ⟨he.imp_right fun hkept => Or.inl ⟨hop, hkept⟩, hworld, hretains⟩
    | corrupt => exact hsafe

/-- The last activation goes on with the values that an instruction leaves. -/
theorem Ready.went_on {leaves : List Kind} {vs : List Value}
    (hready : m.Ready κ below level levels) (hpre : ∀ b ∈ pre, b.Sound κ [.value])
    (hphase : level.phase = .running) (ha : a.Sound κ leaves) (hground : Grounded κ (pre ++ [a]))
    (hfits : List.Forall₂ Kind.Fits leaves vs) (hvs : ∀ v ∈ vs, v.Sound κ) :
    (m.showing (below ++ pre ++ [a]) vs).Sound κ ∧
      Onward m.waiting m.thread.levels below (m.showing (below ++ pre ++ [a]) vs) := by
  have hsame : m.showing (below ++ pre ++ [a]) vs =
      m.showing (below ++ (pre ++ [a.pushAll vs])) [] := by
    rw [← List.append_assoc, showing_pushAll, List.append_nil]
  rw [hsame]
  exact hready.entered hpre (Or.inr hphase) (ha.pushAll hfits hvs) (hground.replaceLast rfl)

/-- An instruction that fails in an ordinary way. -/
theorem Ready.executes_error (hready : m.Ready κ below level levels) (op : Op) {e : RuntimeError}
    (he : e.isOrdinary = true) (above : List Activation) (extra : List Value) :
    m.Executes κ below op (.error (.error e) (m.showing (below ++ above) extra)) :=
  ⟨Or.inl (RuntimeError.ordinary_of_isOrdinary he), hready.world,
    m.retains_showing below above extra⟩

/-- A handler is installed around a function without parameters. -/
theorem Ready.install_executes {op : Op} {clauses : List (Effect × Value)} {body : Value}
    (hready : m.Ready κ below level levels) (hpre : ∀ b ∈ pre, b.Sound κ [.value])
    (hphase : level.phase = .running) (ha : a.Sound κ [.value]) (hground : Grounded κ (pre ++ [a]))
    (hclauses : ∀ c ∈ clauses, κ.Fits c.2 ∧ c.2.Sound κ) (hbody : body.Sound κ) :
    m.Executes κ below op ((do Exec.install clauses body; return none : Exec (Option Value))
      (m.showing (below ++ pre ++ [a]) [])) := by
  have hrefuse : m.Executes κ below op (.error (.error (.typeError
      ("handled body must be a zero-argument function, got " ++ body.typeName)))
        (m.showing (below ++ pre ++ [a]) [])) := by
    rw [List.append_assoc]
    exact hready.executes_error op rfl (pre ++ [a]) []
  cases body with
  | closure id code env =>
    by_cases harity : code.arity = 0
    · obtain ⟨_, detail, m', herror, hworld, hretains⟩ | ⟨_, hok⟩ :=
        Exec.install_showing m (below ++ pre ++ [a]) clauses id code env harity
      · rw [bind_of_error herror]
        refine ⟨Or.inl (RuntimeError.ordinary_of_isOrdinary rfl), hworld ▸ hready.world,
          hretains.waiting, hretains.levels, ?_⟩
        have hextends := hretains.extends
        rw [List.append_assoc] at hextends
        exact hextends.prefix
      · rw [bind_of_ok hok]
        have hready' : m.relabeled.Ready κ below level levels := hready.congr hready.world rfl rfl
        have hsound : ∀ b ∈ pre ++ [a], b.Sound κ [.value] :=
          List.forall_mem_append.2 ⟨hpre, by simpa using ha⟩
        have hinner : (Activation.enter (.closure id code env) code env []
            (some (clauses, m.thread.lastLabel + 1))).Sound κ [] := by
          refine Activation.sound_enter hbody (by simp) ?_
          rintro _ ⟨⟩
          exact hclauses
        have hentered := hready'.entered hsound (Or.inr hphase) hinner (hground.append (by simp) _)
        rwa [← List.append_assoc, ← List.append_assoc] at hentered
    · have hrun : Exec.install clauses (.closure id code env)
          (m.showing (below ++ pre ++ [a]) []) = .error (.error (.typeError
            ("handled body must be a zero-argument function, got " ++
              (Value.closure id code env).typeName))) (m.showing (below ++ pre ++ [a]) []) := by
        simp only [Exec.install, if_neg harity]
        rfl
      rw [bind_of_error hrun]
      exact hrefuse
  | _ => exact hrefuse

theorem fits_replicate {n : Nat} {vs : List Value}
    (hfits : List.Forall₂ Kind.Fits (List.replicate n .value) vs) : vs.length = n := by
  rw [← hfits.length_eq, List.length_replicate]

/-- Names and values in turn come in pairs. -/
theorem fits_keyed {n : Nat} {vs : List Value}
    (hfits : List.Forall₂ Kind.Fits (List.replicate n [Kind.key, .value]).flatten vs) :
    ∃ fields, fields.length = n ∧ vs = Exec.keyed fields := by
  induction n generalizing vs with
  | zero =>
    cases hfits
    exact ⟨[], rfl, rfl⟩
  | succ n ih =>
    rw [List.replicate_succ, List.flatten_cons] at hfits
    obtain ⟨us, ws, hus, hws, rfl⟩ := forall₂_split hfits
    obtain ⟨key, us, ⟨s, rfl⟩, hrest, rfl⟩ := List.forall₂_cons_left_iff.1 hus
    obtain ⟨v, _, rfl⟩ := forall₂_singleton_left hrest
    obtain ⟨fields, hlength, rfl⟩ := ih hws
    exact ⟨(s, v) :: fields, by simp [hlength], rfl⟩

/-- Effects and clauses in turn come in pairs. -/
theorem fits_clauses {n : Nat} {vs : List Value}
    (hfits : List.Forall₂ Kind.Fits (List.replicate n [Kind.value, κ]).flatten vs) :
    ∃ pairs : List (Value × Value), pairs.length = n ∧ vs = pairs.flatMap (fun p => [p.1, p.2]) ∧
      ∀ p ∈ pairs, κ.Fits p.2 := by
  induction n generalizing vs with
  | zero =>
    cases hfits
    exact ⟨[], rfl, rfl, nofun⟩
  | succ n ih =>
    rw [List.replicate_succ, List.flatten_cons] at hfits
    obtain ⟨us, ws, hus, hws, rfl⟩ := forall₂_split hfits
    obtain ⟨v, us, _, hrest, rfl⟩ := List.forall₂_cons_left_iff.1 hus
    obtain ⟨w, hw, rfl⟩ := forall₂_singleton_left hrest
    obtain ⟨pairs, hlength, rfl, hpairs⟩ := ih hws
    refine ⟨(v, w) :: pairs, by simp [hlength], rfl, ?_⟩
    intro p hp
    obtain rfl | hp := List.mem_cons.1 hp
    · exact hw
    · exact hpairs p hp

theorem sound_setFields {fields done : List (Symbol × Value)}
    (hdone : ∀ v ∈ done.map Prod.snd, v.Sound κ) (hfields : ∀ v ∈ Exec.keyed fields, v.Sound κ) :
    (Value.record (fields.foldl (fun done f => setField done f.1 f.2) done)).Sound κ := by
  induction fields generalizing done with
  | nil => exact Value.every_record_iff.2 hdone
  | cons f fields ih =>
    refine ih ?_ fun v hv => hfields v (by simp [Exec.keyed] at hv ⊢; grind)
    intro v hv
    obtain rfl | hv := Env.mem_of_define hv
    · exact hfields _ (by simp [Exec.keyed])
    · exact hdone v hv

/-- A value is called with the arguments on the stack. -/
theorem Ready.callTop_executes {op : Op} {n : Nat} {args : List Value} {callee : Value}
    (hready : m.Ready κ below level levels) (hpre : ∀ b ∈ pre, b.Sound κ [.value])
    (hphase : level.phase = .running) (ha : a.Sound κ [.value]) (hground : Grounded κ (pre ++ [a]))
    (hop : op.narrow = .call ∨ op.narrow = .tailCall) (hlength : args.length = n)
    (hcallee : callee.Sound κ) (hargs : ∀ v ∈ args, v.Sound κ) (tail : Bool) (line : Nat) :
    m.Executes κ below op ((do Exec.callTop n line tail; return none : Exec (Option Value))
      (m.showing (below ++ pre ++ [a]) ([] ++ (args ++ [callee])))) := by
  have hsound : ∀ b ∈ pre ++ [a], b.Sound κ [.value] :=
    List.forall_mem_append.2 ⟨hpre, by simpa using ha⟩
  refine Safe.executes ?_ hop
  rw [Exec.callTop_showing m _ [] line hlength callee tail, List.append_assoc]
  cases tail with
  | true => exact hready.call_tail_safe hsound hground hphase hcallee hargs line
  | false =>
    exact hready.call_safe hsound hground (Or.inr ⟨hphase, by simp⟩) hcallee hargs
      (fun _ h => by simp at h) line

/-- The function that a `lambda` instruction makes is sound. -/
theorem sound_lambda {i id' : Nat} {f : Code Value} {leaves : List Kind} (ha : a.Sound κ leaves)
    (hconstant : a.code.constants[i]? = some (.code id' f))
    (hsupplied : ∀ c ∈ f.captures, a.code.CanSupply c) (id : Nat) :
    ∃ env, a.bindAll [] f.captures = some env ∧ (Value.closure id f env).Sound κ := by
  obtain ⟨env, hbound, _, hnames, hvalues⟩ := Activation.bindAll_eq_some (a := a) []
    fun c hc => ha.shape.supplies (hsupplied c hc)
  refine ⟨env, hbound, .intro ⟨?_, hnames⟩ ?_⟩
  · cases ha.shape.code with
    | intro _ _ hnested => exact hnested id' f (Array.mem_of_getElem? hconstant)
  · intro v hv
    obtain hv | hv := hvalues v hv
    · cases hv
    · exact ha.parts v hv

/-- What an instruction that neither calls nor installs a handler comes to: its activation goes on with
the values that it leaves, or it fails in an ordinary way or because a global variable has no value. -/
inductive StaysOn (κ : Kind) (m : Machine) (pre : List Activation) (a : Activation) (op : Op)
    (leaves : List Kind) : EStateM.Result Stop Machine (Option Value) → Prop
  | goesOn {w : World} {b : Activation} {us : List Value} (hw : w.Sound κ) (hb : b.Sound κ leaves)
    (hhandler : b.handler = a.handler) (hfits : List.Forall₂ Kind.Fits leaves us)
    (hus : ∀ u ∈ us, u.Sound κ) :
    StaysOn κ m pre a op leaves
      (.ok none (({ m with world := w } : Machine).showing (pre ++ [b]) us))
  | fails {e : RuntimeError}
    (he : e.isOrdinary = true ∨ op.narrow = .loadGlobal ∧ ∃ name, e = .undefinedVariable name) :
    StaysOn κ m pre a op leaves (.error (.error e) (m.showing (pre ++ [a]) []))

/-- The shared state stays as it is. -/
theorem StaysOn.same {b : Activation} {op : Op} {leaves : List Kind} {us : List Value}
    (hworld : m.world.Sound κ) (hb : b.Sound κ leaves) (hhandler : b.handler = a.handler)
    (hfits : List.Forall₂ Kind.Fits leaves us) (hus : ∀ u ∈ us, u.Sound κ) :
    StaysOn κ m pre a op leaves (.ok none (m.showing (pre ++ [b]) us)) :=
  .goesOn hworld hb hhandler hfits hus

theorem StaysOn.value {op : Op} {v : Value} (hworld : m.world.Sound κ) (ha : a.Sound κ [.value])
    (hv : v.Sound κ) : StaysOn κ m pre a op [.value] (.ok none (m.showing (pre ++ [a]) [v])) :=
  .same hworld ha rfl (.cons trivial .nil) (by simpa using hv)

/-- An instruction finds the operands that it takes and leaves those that the activation awaits. -/
theorem stays_on {op : Op} {operand : Nat} {takes leaves : List Kind} {vs : List Value}
    (hworld : m.world.Sound κ) (ha : a.Sound κ leaves)
    (hstraight : a.code.Straight κ op operand takes leaves)
    (hfits : List.Forall₂ Kind.Fits takes vs) (hvs : ∀ v ∈ vs, v.Sound κ)
    (hop : op ≠ .call ∧ op ≠ .tailCall ∧ op ≠ .handle) (start line : Nat) :
    StaysOn κ m pre a op leaves
      (Exec.execute { op, operand, start, line } (m.showing (pre ++ [a]) vs)) := by
  have hdrawn : m.drawn.world.Sound κ := Exec.draw_sound hworld
  cases hstraight with
  | @literal i v hconstant hliteral =>
    cases hfits
    rw [Exec.execute_constant m pre a [] start line hconstant]
    exact .value hworld ha (Value.every_of_isLiteral hliteral)
  | @key i s hconstant =>
    cases hfits
    rw [Exec.execute_constant m pre a [] start line hconstant]
    exact .same hworld ha rfl (.cons ⟨s, rfl⟩ .nil) (by simpa using Value.every_of_isFlat rfl)
  | pushNone =>
    cases hfits
    rw [Exec.execute_pushNone]
    exact .value hworld ha (Value.every_of_isFlat rfl)
  | pop =>
    obtain ⟨v, _, rfl⟩ := forall₂_singleton_left hfits
    rw [← List.nil_append [v], Exec.execute_pop]
    exact .same hworld ha rfl .nil (by simp)
  | loadLocal hroom =>
    cases hfits
    have hlocal : operand < a.locals.size := Nat.lt_of_lt_of_le hroom ha.shape.locals
    rw [Exec.execute_loadLocal m pre a [] start line (Array.getElem?_eq_getElem hlocal)]
    refine .value hworld ha (ha.parts _ ?_)
    simp [Activation.parts]
  | storeLocal hroom =>
    obtain ⟨v, _, rfl⟩ := forall₂_singleton_left hfits
    rw [← List.nil_append [v], Exec.execute_storeLocal]
    exact .same hworld (ha.setLocal operand (hvs v (.head _))) rfl .nil (by simp)
  | @loadCaptured _ s hconstant hcaptures =>
    cases hfits
    obtain ⟨v, hv⟩ := ha.shape.captured hcaptures
    rw [Exec.execute_loadCaptured m pre a [] start line hconstant hv]
    refine .value hworld ha (ha.parts v ?_)
    have hmem := Env.mem_of_get? hv
    simp only [Activation.parts, List.mem_append]
    exact Or.inl (Or.inl (Or.inl hmem))
  | @storeCaptured _ s hconstant hcaptures =>
    obtain ⟨v, _, rfl⟩ := forall₂_singleton_left hfits
    obtain ⟨w, hw⟩ := ha.shape.captured hcaptures
    obtain ⟨env, henv⟩ := Env.set?_of_bound (Option.isSome_iff_exists.2 ⟨w, hw⟩) v
    rw [← List.nil_append [v], Exec.execute_storeCaptured m pre a [] start line v hconstant henv]
    exact .same hworld (ha.setCaptured henv (hvs v (.head _))) rfl .nil (by simp)
  | @loadGlobal _ s hconstant =>
    cases hfits
    rw [Exec.execute_loadGlobal m pre a [] start line hconstant]
    cases hget : m.world.globals.get? s with
    | some v => exact .value hworld ha (hworld.globals s v hget)
    | none => exact .fails (Or.inr ⟨rfl, s.name, rfl⟩)
  | @storeGlobal _ s hconstant =>
    obtain ⟨v, _, rfl⟩ := forall₂_singleton_left hfits
    rw [← List.nil_append [v], Exec.execute_storeGlobal m pre a [] start line v hconstant]
    exact .goesOn (hworld.setGlobal s (hvs v (.head _))) ha rfl .nil (by simp)
  | @lambda _ id f k hconstant hsupplied hkind =>
    cases hfits
    obtain ⟨env, hbound, hclosure⟩ := sound_lambda ha hconstant hsupplied m.world.draw.1
    rw [Exec.execute_lambda m pre a [] start line hconstant hbound]
    refine .goesOn hdrawn ha rfl (.cons ?_ .nil) (by simpa using hclosure)
    obtain rfl | ⟨rfl, harity⟩ := hkind
    · exact trivial
    · exact ⟨_, f, env, rfl, harity⟩
  | call => exact absurd rfl hop.1
  | tailCall => exact absurd rfl hop.2.1
  | buildList =>
    rw [← List.nil_append vs, Exec.execute_buildList m _ [] start line (fits_replicate hfits)]
    exact .value hworld ha (Value.every_list_iff.2 hvs)
  | buildTuple =>
    rw [← List.nil_append vs, Exec.execute_buildTuple m _ [] start line (fits_replicate hfits)]
    exact .value hworld ha (Value.every_tuple_iff.2 hvs)
  | buildRecord =>
    obtain ⟨fields, rfl, rfl⟩ := fits_keyed hfits
    rw [← List.nil_append (Exec.keyed fields), Exec.execute_buildRecord]
    exact .value hworld ha (sound_setFields (by simp) hvs)
  | @getField _ s hconstant =>
    obtain ⟨v, _, rfl⟩ := forall₂_singleton_left hfits
    rw [← List.nil_append [v], Exec.execute_getField m pre a [] start line v hconstant]
    cases hproject : v.project s with
    | ok v' =>
      obtain ⟨fields, rfl, hget⟩ := Value.project_eq_ok hproject
      exact .value hworld ha (Value.every_record_iff.1 (hvs _ (.head _)) v' (Env.mem_of_get? hget))
    | error e =>
      obtain ⟨detail, rfl⟩ := Value.project_eq_error hproject
      exact .fails (Or.inl rfl)
  | makeHandler =>
    obtain ⟨pairs, hlength, rfl, hpairs⟩ := fits_clauses hfits
    rw [← List.nil_append (pairs.flatMap _),
      Exec.execute_makeHandler m (pre ++ [a]) [] start line pairs hlength]
    cases hfrom : clausesFrom pairs with
    | ok clauses =>
      obtain rfl := clausesFrom_eq_ok hfrom
      have hclauses : ∀ c ∈ clauses, κ.Fits c.2 ∧ c.2.Sound κ := by
        intro c hc
        have hpair := List.mem_map_of_mem (f := fun c => (Value.effect c.1, c.2)) hc
        exact ⟨hpairs _ hpair, hvs c.2 (List.mem_flatMap.2 ⟨_, hpair, by simp⟩)⟩
      have hhandler : (Value.handler m.world.draw.1 clauses).Sound κ := by
        refine .intro (fun c hc => (hclauses c hc).1) ?_
        intro part hpart
        obtain ⟨c, hc, rfl⟩ := List.mem_map.1 hpart
        exact (hclauses c hc).2
      exact .goesOn hdrawn ha rfl (.cons ⟨_, clauses, rfl⟩ .nil) (by simpa using hhandler)
    | error e =>
      obtain ⟨detail, rfl⟩ := clausesFrom_eq_error hfrom
      exact .fails (Or.inl rfl)
  | handle => exact absurd rfl hop.2.2

/-- An instruction without jump leads to a sound machine or fails as it may. -/
theorem Ready.straight_executes {op : Op} {operand : Nat} {takes leaves : List Kind}
    {vs : List Value} (hready : m.Ready κ below level levels)
    (hpre : ∀ b ∈ pre, b.Sound κ [.value]) (hphase : level.phase = .running)
    (ha : a.Sound κ leaves) (hground : Grounded κ (pre ++ [a]))
    (hstraight : a.code.Straight κ op operand takes leaves)
    (hfits : List.Forall₂ Kind.Fits takes vs) (hvs : ∀ v ∈ vs, v.Sound κ) (start line : Nat) :
    m.Executes κ below op (Exec.execute { op, operand, start, line }
      (m.showing (below ++ pre ++ [a]) vs)) := by
  by_cases hop : op ≠ .call ∧ op ≠ .tailCall ∧ op ≠ .handle
  · have hstays : StaysOn κ m (below ++ pre) a op leaves _ :=
      stays_on hready.world ha hstraight hfits hvs hop start line
    generalize Exec.execute _ (m.showing (below ++ pre ++ [a]) vs) = r at hstays ⊢
    cases hstays with
    | goesOn hw hb hhandler hfits hus =>
      have hready' : { m with world := _ }.Ready κ below level levels := hready.congr hw rfl rfl
      exact hready'.went_on hpre hphase hb (hground.replaceLast hhandler) hfits hus
    | fails he =>
      rw [List.append_assoc]
      exact ⟨he.imp RuntimeError.ordinary_of_isOrdinary Or.inr, hready.world,
        m.retains_showing below (pre ++ [a]) []⟩
  cases hstraight with
  | call =>
    obtain ⟨args, callee, rfl, hargs, _⟩ := forall₂_concat_left hfits
    rw [← List.nil_append (args ++ [callee])]
    exact hready.callTop_executes hpre hphase ha hground (Or.inl rfl) (fits_replicate hargs)
      (hvs callee (by simp)) (fun v hv => hvs v (by simp [hv])) false line
  | tailCall =>
    obtain ⟨args, callee, rfl, hargs, _⟩ := forall₂_concat_left hfits
    rw [← List.nil_append (args ++ [callee])]
    exact hready.callTop_executes hpre hphase ha hground (Or.inr rfl) (fits_replicate hargs)
      (hvs callee (by simp)) (fun v hv => hvs v (by simp [hv])) true line
  | handle =>
    obtain ⟨handler, _, ⟨id, clauses, rfl⟩, hrest, rfl⟩ := List.forall₂_cons_left_iff.1 hfits
    obtain ⟨body, _, rfl⟩ := forall₂_singleton_left hrest
    have hhandler := hvs _ (.head _)
    rw [← List.nil_append [Value.handler id clauses, body], Exec.execute_handle]
    refine hready.install_executes hpre hphase ha hground ?_ (hvs body (by simp))
    intro c hc
    exact ⟨hhandler.shape c hc, hhandler.part (List.mem_map_of_mem hc)⟩
  | _ => exact absurd (by decide) hop

/-- The last activation of a running call fetches an instruction and executes it. -/
theorem Ready.step_executes (hready : m.Ready κ below level levels)
    (hpre : ∀ b ∈ pre, b.Sound κ [.value]) (hphase : level.phase = .running) (ha : a.Sound κ [])
    (hground : Grounded κ (pre ++ [a])) :
    ∃ i m', Exec.fetch (m.showing (below ++ (pre ++ [a])) []) = .ok i m' ∧
      m.Executes κ below i.op (Exec.execute i m') := by
  rw [← List.append_assoc]
  cases ha.next with
  | @ret line v hat hoperands =>
    refine ⟨_, _, Exec.fetch_showing m (below ++ pre) a [] hat, ?_⟩
    have hone : a.operands = [] ++ [v] := hoperands
    have hv : v.Sound κ := ha.parts v (by simp [Activation.parts, hoperands])
    rw [showing_fetched _ hone, Exec.execute_ret]
    have hreturn := Exec.returnValue_showing m (below ++ pre)
      { a with ip := a.ip + 1 + Op.ret.width, operands := [] } [] v
    rw [List.nil_append] at hreturn
    rw [hreturn, hready.calls]
    simp only [Exec.baseOf, hready.above.depth]
    split
    next hlast =>
      have hnil : pre = [] := by
        rw [List.length_append] at hlast
        exact List.length_eq_zero_iff.1 (by omega)
      subst hnil
      exact ⟨hv, by simp⟩
    next hmore =>
      have hne : pre ≠ [] := by
        rintro rfl
        simp at hmore
      exact hready.given hpre (hground.of_append hne) (Or.inr ⟨hphase, hne⟩) hv
  | @straight op operand line takes leaves ops vs hat hstraight _ hoperands hfits hnext =>
    refine ⟨_, _, Exec.fetch_showing m (below ++ pre) a [] hat, ?_⟩
    have hvs : ∀ v ∈ vs, v.Sound κ :=
      fun v hv => ha.parts v (by simp [Activation.parts, hoperands, hv])
    rw [showing_fetched _ hoperands, Exec.execute_narrow]
    exact Executes.of_narrow (hready.straight_executes hpre hphase hnext (hground.replaceLast rfl)
      hstraight hfits hvs a.ip line)
  | @jump operand line hat htarget =>
    refine ⟨_, _, Exec.fetch_showing m (below ++ pre) a [] hat, ?_⟩
    rw [Exec.execute_jump]
    exact hready.went_on hpre hphase htarget (hground.replaceLast rfl) .nil (by simp)
  | @branch operand line ops v hat hoperands htarget hnext =>
    refine ⟨_, _, Exec.fetch_showing m (below ++ pre) a [] hat, ?_⟩
    rw [showing_fetched _ hoperands, ← List.nil_append [v], Exec.execute_jumpIfFalse]
    split
    · exact hready.went_on hpre hphase hnext (hground.replaceLast rfl) .nil (by simp)
    · exact hready.went_on hpre hphase htarget (hground.replaceLast rfl) .nil (by simp)

/-- What has stopped is ended: calls fail from the inside out. -/
theorem Ready.stop_sound {m' : Machine} {e : RuntimeError} (hready : m.Ready κ below level levels)
    (he : e.Admissible) (hworld : m'.world.Sound κ) (hretains : m.Retains m' below) (line : Nat) :
    (m'.stop line (.error e)).Sound κ := by
  rw [stop, hretains.levels, hready.calls]
  exact unwind_sound hworld (hretains.waiting ▸ hready.waiting) hready.suspended hready.above
    hready.purpose hretains.extends (he.atLine line)

theorem Ready.failure_admissible {e : RuntimeError} (hready : m.Ready κ below level levels)
    (he : e.Ordinary ∨ m.world.Keeps e) : e.Admissible :=
  he.elim And.left (hready.world.failures e)

/-- The machine with the innermost call in another phase. -/
def setPhase (m : Machine) (phase : Phase) : Machine :=
  { m with thread := m.thread.setPhase phase }

theorem Ready.setPhase (hready : m.Ready κ below level levels) (phase : Phase) :
    (m.setPhase phase).Ready κ below { level with phase } levels := by
  refine ⟨hready.world, hready.waiting, ?_, hready.suspended, ⟨hready.above.depth,
    hready.above.height, hready.above.handlers⟩, hready.purpose⟩
  simp [Machine.setPhase, Thread.setPhase, hready.calls]

theorem setPhase_showing {acts : List Activation} {extra : List Value}
    (hshows : m = m.showing acts extra) (phase : Phase) :
    m.setPhase phase = (m.setPhase phase).showing acts extra := by
  rw [hshows]
  simp only [setPhase, Thread.setPhase, showing_thread, Thread.showing_levels]
  split <;> rfl

/-- The innermost call is made. -/
theorem Ready.opening_safe {callee : Value} {args : List Value}
    (hready : m.Ready κ below level levels) (hshows : m = m.showing (below ++ []) [])
    (hcallee : callee.Sound κ) (hargs : ∀ v ∈ args, v.Sound κ) (hfew : κ ≠ .clause → args = []) :
    (m.setPhase .opening).Safe κ below (Exec.call callee args 0 false (m.setPhase .opening)) := by
  have hsafe : (m.setPhase .opening).Safe κ below
      (Exec.call callee args 0 false ((m.setPhase .opening).showing (below ++ []) [])) :=
    (hready.setPhase .opening).call_safe (by simp) (by simp [Grounded]) (Or.inl ⟨rfl, rfl⟩)
      hcallee hargs (fun hκ _ => hfew hκ) 0
  rwa [← setPhase_showing hshows] at hsafe

/-- What stops a move of a machine, with the operation of the instruction that is executed, if there
is one. -/
inductive Stops (m : Machine) : Option Op → Stop → Prop
  | call {level : Level} {levels : List Level} {callee : Value} {args : List Value} {s : Stop}
    {m' : Machine} (hlevels : m.thread.levels = level :: levels)
    (hphase : level.phase = .made callee args)
    (hstop : Exec.call callee args 0 false (m.setPhase .opening) = .error s m') : Stops m none s
  | settle {level : Level} {levels : List Level} {s : Stop} {m' : Machine}
    (hlevels : m.thread.levels = level :: levels) (hphase : level.phase = .opening)
    (hdepth : ¬ level.depth < m.thread.frames.size) (hstop : Exec.pop m = .error s m') :
    Stops m none s
  | fetch {level : Level} {levels : List Level} {s : Stop} {m' : Machine}
    (hlevels : m.thread.levels = level :: levels) (hphase : level.phase = .running)
    (hstop : Exec.fetch m = .error s m') : Stops m none s
  | execute {level : Level} {levels : List Level} {i : Fetched} {s : Stop} {m' m'' : Machine}
    (hlevels : m.thread.levels = level :: levels) (hphase : level.phase = .running)
    (hfetch : Exec.fetch m = .ok i m') (hstop : Exec.execute i m' = .error s m'') :
    Stops m (some i.op) s

/-- How a move may fail. -/
def MayFail (m : Machine) (op : Option Op) (e : RuntimeError) : Prop :=
  match op with
  | some op => op.MayFail m.world e
  | none => e.Ordinary ∨ m.world.Keeps e

/-- The innermost call of a sound machine. -/
theorem Sound.ready (hsound : m.Sound κ) :
    ∃ below above extra level levels, m.Ready κ below level levels ∧
      Underway κ level.phase above extra ∧ m = m.showing (below ++ above) extra := by
  obtain ⟨hworld, ⟨hlevels, hbelow, hlevel, hpurpose, hunderway, hshows⟩, hwaiting⟩ := hsound
  refine ⟨_, _, _, _, _, ⟨hworld, hwaiting, hlevels, hbelow, hlevel, hpurpose⟩, hunderway, ?_⟩
  rw [showing, ← hshows]

/-- A call whose value is there has no frame, and one that runs has some. -/
theorem Ready.depth_lt_iff {above : List Activation} {extra : List Value}
    (hready : m.Ready κ below level levels) (hshows : m = m.showing (below ++ above) extra) :
    level.depth < m.thread.frames.size ↔ above ≠ [] := by
  rw [hshows, hready.above.depth]
  simp [List.length_pos_iff]

theorem pop_given {v : Value} (hshows : m = m.showing (below ++ []) [v]) :
    Exec.pop m = .ok v (m.showing below []) := by
  have hpop := Exec.pop_showing m (below ++ []) [] v
  rw [List.nil_append, ← hshows, List.append_nil] at hpop
  exact hpop

/-- One move of a sound machine. -/
theorem Sound.advance (hsound : m.Sound κ) : m.advance.Sound κ := by
  obtain ⟨below, above, extra, level, levels, hready, hunderway, hshows⟩ := hsound.ready
  rw [Machine.advance, hready.calls]
  simp only []
  generalize hphase : level.phase = phase at hunderway
  cases hunderway with
  | @made callee args hcallee hargs hfew =>
    have hready' := hready.setPhase .opening
    have hsafe := hready.opening_safe hshows hcallee hargs hfew
    change (m.openCall callee args).Sound κ
    rw [openCall, ← Machine.setPhase]
    cases hcall : Exec.call callee args 0 false (m.setPhase .opening) with
    | ok u m' =>
      rw [hcall] at hsafe
      exact .more hsafe.1
    | error s m' =>
      rw [hcall] at hsafe
      cases s with
      | error e => exact hready'.stop_sound (hready'.failure_admissible hsafe.1) hsafe.2.1 hsafe.2.2 0
      | corrupt => exact hsafe.elim
  | @given v hv =>
    change (settleCall m level).Sound κ
    rw [settleCall, if_neg (by rw [hready.depth_lt_iff hshows]; simp), pop_given hshows]
    exact answer_sound hready.world hready.waiting hready.calls hready.suspended hready.purpose rfl hv
  | @entered _ pre a hentered hpre ha hground =>
    obtain rfl | rfl := hentered
    · change (settleCall m level).Sound κ
      rw [settleCall, if_pos ((hready.depth_lt_iff hshows).2 (by simp))]
      have hsound' := ((hready.setPhase .running).entered hpre (Or.inr rfl) ha hground).1
      rw [← setPhase_showing hshows] at hsound'
      exact .more hsound'
    · change (runInstruction m).Sound κ
      obtain ⟨i, m', hfetch, hexecutes⟩ := hready.step_executes hpre hphase ha hground
      rw [← hshows] at hfetch
      rw [runInstruction, hfetch]
      simp only []
      cases hrun : Exec.execute i m' with
      | ok result m'' =>
        rw [hrun] at hexecutes
        cases result with
        | none => exact .more hexecutes.1
        | some v =>
          obtain ⟨hv, rfl⟩ := hexecutes
          exact answer_sound hready.world hready.waiting hready.calls hready.suspended
            hready.purpose rfl hv
      | error s m'' =>
        rw [hrun] at hexecutes
        cases s with
        | error e =>
          exact hready.stop_sound (hexecutes.1.admissible hready.world) hexecutes.2.1 hexecutes.2.2
            i.line
        | corrupt => exact hexecutes.elim

/-- What may stop a sound machine. -/
theorem Sound.stops {op : Option Op} {s : Stop} (hsound : m.Sound κ) (hstops : m.Stops op s) :
    ∃ e, s = .error e ∧ m.MayFail op e := by
  obtain ⟨below, above, extra, level, levels, hready, hunderway, hshows⟩ := hsound.ready
  cases hstops with
  | @call level' levels' callee args _ m' hlevels hphase hstop =>
    rw [hready.calls] at hlevels
    cases hlevels
    rw [hphase] at hunderway
    cases hunderway with
    | made hcallee hargs hfew =>
      have hsafe := hready.opening_safe hshows hcallee hargs hfew
      rw [hstop] at hsafe
      cases s with
      | error e => exact ⟨e, rfl, hsafe.1⟩
      | corrupt => exact hsafe.elim
    | entered hentered => simp at hentered
  | @settle level' levels' _ m' hlevels hphase hdepth hstop =>
    rw [hready.calls] at hlevels
    cases hlevels
    rw [hphase] at hunderway
    cases hunderway with
    | given hv =>
      rw [pop_given hshows] at hstop
      cases hstop
    | entered => exact absurd ((hready.depth_lt_iff hshows).2 (by simp)) hdepth
  | @fetch level' levels' _ m' hlevels hphase hstop =>
    rw [hready.calls] at hlevels
    cases hlevels
    generalize hphase' : level.phase = phase at hunderway
    cases hunderway with
    | entered _ hpre ha hground =>
      obtain ⟨i, m'', hfetch, _⟩ := hready.step_executes hpre hphase ha hground
      rw [← hshows, hstop] at hfetch
      cases hfetch
    | _ => rw [hphase] at hphase'; cases hphase'
  | @execute level' levels' i _ m' m'' hlevels hphase hfetch hstop =>
    rw [hready.calls] at hlevels
    cases hlevels
    generalize hphase' : level.phase = phase at hunderway
    cases hunderway with
    | entered _ hpre ha hground =>
      obtain ⟨i', m₁, hfetch', hexecutes⟩ := hready.step_executes hpre hphase ha hground
      rw [← hshows, hfetch] at hfetch'
      cases hfetch'
      rw [hstop] at hexecutes
      cases s with
      | error e => exact ⟨e, rfl, hexecutes.1⟩
      | corrupt => exact hexecutes.elim
    | _ => rw [hphase] at hphase'; cases hphase'

/-- The machines that a machine comes to, move by move. -/
inductive Reaches (m : Machine) : Machine → Prop
  | refl : Reaches m m
  | next {m' m'' : Machine} (hbefore : Reaches m m') (hmove : m'.advance = .more m'') :
    Reaches m m''

/-- The machine after `n` moves, or fewer if it comes to an end. -/
def after : (n : Nat) → Machine → Machine
  | 0, m => m
  | n + 1, m =>
    match m.advance with
    | .more m => m.after n
    | .ended _ _ => m

theorem Reaches.after {m' : Machine} (hreaches : m.Reaches m') (n : Nat) :
    m.Reaches (m'.after n) := by
  induction n generalizing m' with
  | zero => exact hreaches
  | succ n ih =>
    rw [Machine.after]
    split
    next _ hmove => exact ih (.next hreaches hmove)
    next => exact hreaches

theorem Reaches.cons {m₁ m₂ : Machine} (hmove : m.advance = .more m₁)
    (h : m₁.Reaches m₂) : m.Reaches m₂ := by
  induction h with
  | refl => exact .next .refl hmove
  | next _ hlast ih => exact .next ih hlast

theorem Reaches.trans {m₁ m₂ : Machine} (h : m.Reaches m₁) (h' : m₁.Reaches m₂) :
    m.Reaches m₂ := by
  induction h' with
  | refl => exact h
  | next _ hmove ih => exact .next ih hmove

theorem Reaches.inv {m₂ : Machine} (h : m.Reaches m₂) :
    m₂ = m ∨ ∃ m₁, m.advance = .more m₁ ∧ m₁.Reaches m₂ := by
  induction h with
  | refl => exact Or.inl rfl
  | next _ hmove ih =>
    obtain rfl | ⟨m₁, hfirst, hrest⟩ := ih
    · exact Or.inr ⟨_, hmove, .refl⟩
    · exact Or.inr ⟨m₁, hfirst, .next hrest hmove⟩

/-- Whether a machine comes to an end within some moves, where all states before pass a test. -/
def throughout (test : Machine → Bool) : (fuel : Nat) → Machine → Bool
  | 0, _ => false
  | fuel + 1, m => test m &&
    match m.advance with
    | .more m => m.throughout test fuel
    | .ended _ _ => true

theorem Reaches.of_throughout {test : Machine → Bool} {fuel : Nat} {x : Machine} (h : m.Reaches x)
    (hpasses : m.throughout test fuel = true) : test x = true := by
  induction fuel generalizing m with
  | zero => cases hpasses
  | succ fuel ih =>
    rw [throughout, Bool.and_eq_true] at hpasses
    obtain rfl | ⟨m₁, hmove, hrest⟩ := h.inv
    · exact hpasses.1
    · rw [hmove] at hpasses
      exact ih hrest hpasses.2

theorem Sound.reaches {m' : Machine} (hsound : m.Sound κ) (hreaches : m.Reaches m') :
    m'.Sound κ := by
  induction hreaches with
  | refl => exact hsound
  | next _ hmove ih =>
    have hadvance := ih.advance
    rw [hmove] at hadvance
    cases hadvance with
    | more hm => exact hm

/-- A sound machine that comes to an end comes to a sound outcome. -/
theorem Sound.run {fuel : Nat} {outcome : Outcome} {m' : Machine} (hsound : m.Sound κ)
    (hrun : m.run fuel = some (outcome, m')) : Progress.Sound κ (.ended outcome m') := by
  induction fuel generalizing m with
  | zero => cases hrun
  | succ fuel ih =>
    have hadvance := hsound.advance
    rw [Machine.run] at hrun
    cases hmove : m.advance with
    | more m'' =>
      rw [hmove] at hadvance hrun
      cases hadvance with
      | more hm => exact ih hm hrun
    | ended outcome' m'' =>
      rw [hmove] at hadvance hrun
      cases hrun
      exact hadvance

end Machine

end Resumable
