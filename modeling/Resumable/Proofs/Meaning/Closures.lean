import Resumable.Proofs.Machine.Twin
import Resumable.Proofs.Meaning.Operands

/-!
Functions that are made while a program is evaluated. The machine copies what their code mentions of the
bindings around, from slots or from what has been copied before; their meaning keeps all that is
visible.
-/

namespace Resumable

/-- The captured bindings of a function are those that the activation supplies. -/
theorem Activation.get?_bindAll {b : Activation} {env env' : Env Value} {captures : List Capture}
    (hbound : b.bindAll env captures = some env')
    (hdistinct : captures.Pairwise fun c d => (c.name == d.name) = false) (s : Symbol) :
    (∀ c ∈ captures, (c.name == s) = true → Env.get? env' s = b.supply c) ∧
      ((∀ c ∈ captures, (c.name == s) = false) → Env.get? env' s = Env.get? env s) := by
  induction captures generalizing env with
  | nil =>
    cases hbound
    exact ⟨nofun, fun _ => rfl⟩
  | cons c captures ih =>
    rw [bindAll, Option.bind_eq_some_iff] at hbound
    obtain ⟨v, hv, hbound⟩ := hbound
    obtain ⟨hfirst, hrest⟩ := List.pairwise_cons.1 hdistinct
    obtain ⟨hfound, hkept⟩ := ih hbound hrest
    rw [Env.get?_define] at hkept
    constructor
    · intro d hd hsame
      obtain rfl | hd := List.mem_cons.1 hd
      · rw [hkept fun d' hd' => ?_, if_pos hsame, hv]
        have hne := hfirst d' hd'
        rw [Bool.eq_false_iff, Ne, Symbol.beq_iff] at hne ⊢
        rw [Symbol.beq_iff] at hsame
        omega
      · exact hfound d hd hsame
    · intro hnone
      obtain ⟨hc, hnone⟩ := List.forall_mem_cons.1 hnone
      rw [hkept hnone, if_neg (by simp [hc])]

/-- What is captured depends neither on the place in the code nor on the operands. -/
theorem Activation.bindAll_moved (b : Activation) (ip : Nat) (operands : List Value) (env : Env Value)
    (captures : List Capture) : { b with ip, operands }.bindAll env captures = b.bindAll env captures := by
  induction captures generalizing env with
  | nil => rfl
  | cons c captures ih =>
    have hsupply : { b with ip, operands }.supply c = b.supply c := rfl
    simp only [bindAll, hsupply, ih]

namespace Meaning

theorem Memory.Fresh.drawn {μ : Memory} (h : μ.Fresh) : μ.drawn.Fresh :=
  ⟨fun id F hF => Nat.lt_succ_of_lt (h.functions id F hF),
    fun id part hpart => Nat.lt_succ_of_lt (h.continuations id part hpart)⟩

section Memory

variable {μ : Memory}

theorem lookup_cons_fresh {α : Type} {entries : List (Nat × α)} {new id : Nat} {x y : α}
    (hfresh : ∀ id z, entries.lookup id = some z → id < new) (hid : entries.lookup id = some y) :
    ((new, x) :: entries).lookup id = some y := by
  have hlt := hfresh id y hid
  rw [List.lookup_cons, beq_eq_false_iff_ne.2 (by omega)]
  exact hid

theorem lookup_lt_succ {α : Type} {entries : List (Nat × α)} {new id : Nat} {x y : α}
    (hfresh : ∀ id z, entries.lookup id = some z → id < new)
    (hid : ((new, x) :: entries).lookup id = some y) : id < new + 1 := by
  rw [List.lookup_cons] at hid
  split at hid
  next hsame =>
    rw [beq_iff_eq] at hsame
    omega
  next => exact Nat.lt_succ_of_lt (hfresh id y hid)

theorem Memory.Fresh.makeFunction (h : μ.Fresh) (name : Option Symbol) (F : Function) :
    μ.Grows (μ.makeFunction name F).2 ∧ (μ.makeFunction name F).2.Fresh :=
  ⟨⟨fun _ _ hG => lookup_cons_fresh h.functions hG, fun _ _ hpart => hpart⟩,
    ⟨fun _ _ hG => lookup_lt_succ h.functions hG, h.drawn.continuations⟩⟩

theorem Memory.Fresh.suspend (h : μ.Fresh) (part : List Activity) :
    μ.Grows (μ.suspend part).2 ∧ (μ.suspend part).2.Fresh :=
  ⟨⟨fun _ _ hG => hG, fun _ _ hpart => lookup_cons_fresh h.continuations hpart⟩,
    ⟨h.drawn.functions, fun _ _ hpart => lookup_lt_succ h.continuations hpart⟩⟩

end Memory

section Bears

variable {R : Value → Value → Prop} {G : Ground} {choosing : Choosing} {Γ : Lexical}
  {extra : List Value} {a : Activity} {b : Activation} {f : Code Value} {env : Env Value}

/-- What a function needs is there where it is made. -/
theorem Bears.supplies (h : Bears R G choosing Γ extra a b) {c : Capture} (hc : Γ.Supplies b.code c) :
    ∃ w, b.supply c = some w := by
  obtain ⟨name, source⟩ := c
  cases source with
  | slot n => exact ⟨_, Array.getElem?_eq_getElem (Nat.lt_of_lt_of_le hc.2 h.locals.size)⟩
  | enclosing => exact h.copied.bound _ hc.2

/-- A function that is made captures what its code mentions of what is visible. -/
theorem Bears.copies (h : Bears R G choosing Γ extra a b)
    (hcaptures : ∀ c ∈ f.captures, Γ.Supplies b.code c)
    (hdistinct : f.captures.Pairwise fun c d => (c.name == d.name) = false)
    (hbound : b.bindAll [] f.captures = some env) :
    Copied R G f (Γ.bodyOf f) env a.visible := by
  have hget : ∀ s, f.Captures s → ∃ c ∈ f.captures, (c.name == s) = true ∧
      Env.get? env s = b.supply c := by
    rintro s ⟨c, hc, hsame⟩
    exact ⟨c, hc, hsame, (Activation.get?_bindAll hbound hdistinct s).1 c hc hsame⟩
  refine ⟨?_, ?_, ?_⟩
  · intro s hs
    obtain ⟨c, hc, _, hsupply⟩ := hget s hs
    obtain ⟨w, hw⟩ := h.supplies (hcaptures c hc)
    exact ⟨w, by rw [hsupply, hw]⟩
  · intro s hs
    rw [Lexical.isOuter, Lexical.outer_bodyOf, List.any_cons, ← Lexical.isOuter, h.copied.outer s hs,
      ← h.locals.binds_eq hs, binds, binds, binds, Activity.visible, List.any_append]
  · intro s w hs hcaptured hw
    obtain ⟨c, hc, hsame, hsupply⟩ := hget s hcaptured
    have hshows : G.shows c.name = true := by rw [Ground.shows_congr hsame, hs]
    have hsource := hcaptures c hc
    rw [hsupply] at hw
    rw [Activity.visible, Env.get?_append, ← Env.get?_congr hsame, ← Env.get?_congr hsame]
    unfold Lexical.Supplies at hsource
    unfold Activation.supply at hw
    split at hsource
    next n hslot =>
      rw [hslot] at hw
      obtain ⟨v, w', hv, hw', hrel⟩ := h.locals.get?_slot hshows hsource.1
      obtain rfl : w = w' := Option.some.inj (hw.symm.trans hw')
      exact ⟨v, by rw [hv]; rfl, hrel⟩
    next henclosing =>
      rw [henclosing] at hw
      obtain ⟨v, hv, hrel⟩ := h.copied.values c.name w hshows hsource.2 hw
      exact ⟨v, by rw [h.locals.get?_none hshows hsource.1, hv]; rfl, hrel⟩

end Bears

/-- The symbols of names that are known. -/
theorem Ground.map_symbol {G : Ground} {params : List String} {symbols : List Symbol}
    (hparams : List.Forall₂ (fun param symbol => G.reading.names.find? param = some symbol) params symbols) :
    params.map G.reading.symbol = symbols := by
  induction hparams with
  | nil => rfl
  | cons hfirst _ ih => rw [List.map_cons, Ground.symbol_eq hfirst, ih]

namespace Hosts

variable {σ : State} {m : Machine} {pre : List Activation} {b : Activation} {a : Activity}
  {acts : List Activity} {G : Ground} {choosing : Choosing} {Γ : Lexical} {extra : List Value}

/-- A function in the code of an activation. -/
theorem function_in {name : Option String} {params : List String} {body body' : Expr} {f : Code Value}
    {env : Env Value} {line i id : Nat}
    (hbears : Bears (Means σ.memory) G choosing Γ extra a b)
    (hfunction : LayoutFunction G.reading.options G.reading.names b.code Γ line name params body' f)
    (hconstant : b.code.constants[i]? = some (.code id f))
    (hwritten : (∀ n ∈ name, G.written n) ∧ ∀ param ∈ params, G.written param)
    (hnamed : body.Named G.written) (hlowered : body.Lowered body')
    (hbound : b.bindAll [] f.captures = some env) :
    f.name = name.map G.reading.symbol ∧ FunctionIn (Means σ.memory) G Γ
      { reading := G.reading
        selfName := selfNameOf (name.map G.reading.symbol) (params.map G.reading.symbol)
        params := params.map G.reading.symbol
        body
        captured := a.visible } f env := by
  cases hfunction with
  | intro hheader hbody hret hsize =>
    have hparams := Ground.map_symbol hheader.params_eq
    have hname : f.name = name.map G.reading.symbol := by
      rw [hheader.name_eq]
      cases hn : name with
      | none => rfl
      | some n =>
        obtain ⟨s, hs⟩ := Option.isSome_iff_exists.1 (hheader.name_known n hn)
        simp [hs, Ground.symbol_eq hs]
    have hshown : ∀ s ∈ f.params, G.shows s = true := by
      intro s hs
      have hflip : List.Forall₂ (fun s param => G.reading.names.find? param = some s) f.params params :=
        hheader.params_eq.flip
      obtain ⟨param, hparam, hfind⟩ := exists_of_mem_left hflip hs
      exact G.shows_of_written (hwritten.2 param hparam) hfind
    refine ⟨hname, rfl, hparams.symm, ?_, ?_, hheader.room, ?_, ?_, ?_⟩
    · rw [hheader.selfName_eq, hname, hparams]
    · intro s hs
      obtain hs | hs := List.mem_append.1 hs
      · exact hshown s hs
      · rw [hheader.selfName_eq] at hs
        unfold selfNameOf at hs
        split at hs
        next n hn =>
          split at hs
          next => cases hs
          next =>
            obtain rfl : s = n := by simpa using hs
            rw [hheader.name_eq, Option.bind_eq_some_iff] at hn
            obtain ⟨text, htext, hfind⟩ := hn
            exact G.shows_of_written (hwritten.1 text htext) hfind
        next => cases hs
    · have hcovers := hbears.covers
      cases hcovers with
      | intro _ _ hnested => exact hnested id f (Array.mem_of_getElem? hconstant)
    · exact ⟨_, _, _, ⟨hnamed, _, hlowered, hbody⟩, hret⟩
    · exact hbears.copies hheader.captures hheader.distinct hbound

/-- The code of a function becomes a function that has captured what its code mentions. -/
theorem makes (pre : List Activation) {name : Option String} {params : List String} {body : Expr} {f : Code Value}
    {line i id next : Nat} (h : Hosts σ m .running)
    (hbears : Bears (Means σ.memory) G choosing Γ extra a b)
    (hfunction : LayoutFunction G.reading.options G.reading.names b.code Γ line name params body f)
    (hconstant : b.code.constants[i]? = some (.code id f))
    (hat : b.code.Indexed b.ip .lambda i line next) :
    ∃ env, b.bindAll [] f.captures = some env ∧ ∀ vs, (m.showing (pre ++ [b]) vs).advance =
      .more (m.drawn.showing (pre ++ [{ b with ip := next }])
        (vs ++ [.closure σ.memory.world.draw.1 f env])) := by
  have hsupplies : ∀ c ∈ f.captures, ∃ w, b.supply c = some w := by
    cases hfunction with
    | intro hheader _ _ _ => exact fun c hc => hbears.supplies (hheader.captures c hc)
  obtain ⟨env, hbound, -⟩ := Activation.bindAll_eq_some [] hsupplies
  refine ⟨env, hbound, fun vs => ?_⟩
  obtain ⟨b', hb⟩ : ∃ b', b' = { b with ip := next } := ⟨_, rfl⟩
  have hconstant' : b'.code.constants[i]? = some (.code id f) := by rwa [hb]
  have hbound' : b'.bindAll [] f.captures = some env := by
    rw [← hbound, hb]
    exact b.bindAll_moved next b.operands [] f.captures
  obtain ⟨hid, -⟩ := h.world.draw_eq rfl
  rw [h.sole.running.advance_indexed_over rfl hat, ← hb,
    Exec.execute_lambda m pre b' vs b.ip line hconstant' hbound', hid]
  rfl

/-- A function is made. -/
theorem lambda {name : Option String} {params : List String} {body body' : Expr} {f : Code Value}
    {line i id next : Nat} (h : Hosts σ m .running)
    (hacts : List.Forall₂ (Waits (Means σ.memory)) acts pre.reverse)
    (hbears : Bears (Means σ.memory) G choosing Γ [] a b)
    (hfunction : LayoutFunction G.reading.options G.reading.names b.code Γ line name params body' f)
    (hconstant : b.code.constants[i]? = some (.code id f))
    (hat : b.code.Indexed b.ip .lambda i line next)
    (hwritten : (∀ n ∈ name, G.written n) ∧ ∀ param ∈ params, G.written param)
    (hnamed : body.Named G.written) (hlowered : body.Lowered body')
    (hawaits : Awaits G b.code a.isProgram choosing Γ next a.contexts) :
    NextMeans (σ.lambda a acts name params body) (m.showing (pre ++ [b]) []).advance := by
  obtain ⟨env, hbound, hmakes⟩ := h.makes pre hbears hfunction hconstant hat
  obtain ⟨hname, hin⟩ := function_in hbears hfunction hconstant hwritten hnamed hlowered hbound
  rw [State.lambda, hbears.reading, hmakes]
  generalize hF : (⟨G.reading, selfNameOf (name.map G.reading.symbol) (params.map G.reading.symbol),
    params.map G.reading.symbol, body, a.visible⟩ : Function) = F at hin
  obtain ⟨hgrows, hfresh⟩ := h.fresh.makeFunction (name.map G.reading.symbol) F
  have hmade : Means (σ.memory.makeFunction (name.map G.reading.symbol) F).2
      (σ.memory.makeFunction (name.map G.reading.symbol) F).1
      (.closure σ.memory.world.draw.1 f env) :=
    .fold ⟨.closure rfl hname hin.params, F, List.lookup_cons_self,
      G, Γ, { hin with copied := hin.copied.mono fun hu => hu.grow hgrows }⟩
  have hhosts := h.grown hgrows hfresh h.world.draw.2
  refine hhosts.gives ?_ (Bears.mono (fun hu => hu.grow hgrows) { hbears with }) hmade hawaits
  exact hacts.imp fun _ _ hwaits => hwaits.mono fun hu => hu.grow hgrows

end Hosts

end Meaning

end Resumable
