import Resumable.Proofs.Meaning.Comes

/-!
Direct evaluation and evaluation step by step come to the same. Each construct is matched by its steps if
its parts are, and a call if the body of the function is; the induction is on the depth to which the direct
evaluation may go.
-/

namespace Resumable.Meaning

/-- Direct evaluation of expressions is matched by steps. -/
def Matched (n : Nat) : Prop :=
  ∀ (σ : State) (a : Activity) (acts : List Activity) (e : Expr) (b : Surroundings) (μ : Memory),
    e.Simple → μ.Simple → Unhandled (a :: acts) →
    Comes Prod.snd n σ (fun v t => (σ.withMemory t.2).land v (a.within t.1 :: acts))
      ((σ.withMemory μ).goes (a.within b :: acts) (.eval e)) (evaluate n (σ.setting a acts) e (b, μ))

/-- Direct evaluation of calls is matched by steps. -/
def CallsMatched (n : Nat) : Prop :=
  ∀ (σ : State) (acts : List Activity) (line : Nat) (callee : Value) (args : List Value) (μ : Memory),
    μ.Simple → Unhandled acts →
    Comes id n σ (fun v μ => (σ.withMemory μ).land v acts)
      ((σ.withMemory μ).goes acts (.call line callee args)) (call n (σ.place acts) line callee args μ)

section Expressions

variable {n : Nat} {σ : State} {a : Activity} {acts : List Activity} {b : Surroundings} {μ : Memory}

/-- An expression whose value is awaited by something that is left to do. -/
theorem Matched.part (h : Matched n) {c : Context} {e : Expr} {count : Nat}
    {k : Value → Surroundings × Memory → Next} (he : e.Simple) (hμ : μ.Simple)
    (hacts : Unhandled (a :: acts)) (hc : c.isTransparent = false) (hheld : c.held.length = count)
    (hstep : ∀ v t fill, State.step fill { σ with
      memory := t.2, acts := (a.within t.1).wait c :: acts, control := .give v } = k v t) :
    Comes Prod.snd n σ k ((σ.withMemory μ).goes ((a.within b).wait c :: acts) (.eval e))
      (evaluate n ((σ.setting a acts).holding count) e (b, μ)) := by
  have hpart := h σ (a.wait c) acts e b μ he hμ (hacts.wait c)
  rw [setting_holding σ a acts hc hheld] at hpart
  refine hpart.mono fun v t => ?_
  rw [land_of_not_inTail]
  · exact .of_step (hstep v t)
  · rw [show ((a.wait c).within t.1).inTail = (a.wait c).inTail from rfl, inTail_wait, hc]
    rfl

/-- Operands are evaluated one after the other. -/
theorem Matched.each (h : Matched n) (hacts : Unhandled (a :: acts)) (work : Work) {es : List Expr}
    (rest : List Expr) (hes : ∀ e ∈ es, e.Simple) (done : List Value) (hμ : μ.Simple) :
    Comes Prod.snd n σ (fun vs t => (σ.withMemory t.2).operate (a.within t.1) acts work (done ++ vs) rest)
      ((σ.withMemory μ).operate (a.within b) acts work done (es ++ rest))
      (Evaluating.each (fun held => evaluate n ((σ.setting a acts).holding held)) done.length es
        (b, μ)) := by
  induction es generalizing done b μ with
  | nil =>
    refine .ret hμ ?_
    rw [List.append_nil]
    exact .refl _
  | cons e es ih =>
    obtain ⟨he, hes⟩ := List.forall_mem_cons.1 hes
    rw [Evaluating.each]
    refine (h.part (c := .operands work done (es ++ rest)) he hμ hacts rfl rfl fun v t _ => rfl).bind
      fun v t ht => ?_
    have hrest := ih (b := t.1) hes (done ++ [v]) ht
    rw [List.length_append] at hrest
    refine hrest.bind fun vs t' ht' => .ret ht' ?_
    rw [List.append_assoc]
    exact .refl _

/-- Fields are evaluated one after the other. -/
theorem Matched.eachField (h : Matched n) (hacts : Unhandled (a :: acts)) {fields : List (String × Expr)}
    (hfields : ∀ f ∈ fields, f.2.Simple) (done : List (Symbol × Value)) {held : Nat}
    (hheld : held = 2 * done.length) (hμ : μ.Simple) :
    Comes Prod.snd n σ (fun fs t => (σ.withMemory t.2).build (a.within t.1) acts (done ++ fs) [])
      ((σ.withMemory μ).build (a.within b) acts done fields)
      (Evaluating.eachField (σ.setting a acts).symbol
        (fun held => evaluate n ((σ.setting a acts).holding held)) held fields (b, μ)) := by
  induction fields generalizing done held b μ with
  | nil =>
    refine .ret hμ ?_
    rw [List.append_nil]
    exact .refl _
  | cons f fields ih =>
    obtain ⟨name, e⟩ := f
    obtain ⟨he, hfields⟩ := List.forall_mem_cons.1 hfields
    have hcount : (Context.fields done (a.reading.symbol name) fields).held.length = held + 1 := by
      simp [Context.held, hheld, List.length_flatMap, Nat.mul_comm]
    rw [Evaluating.eachField]
    refine (h.part (c := .fields done (a.reading.symbol name) fields) he hμ hacts rfl hcount
      fun v t _ => rfl).bind fun v t ht => ?_
    have hnext : held + 2 = 2 * (done ++ [(a.reading.symbol name, v)]).length := by simp [hheld, Nat.mul_add]
    have hrest := ih (b := t.1) hfields (done ++ [(a.reading.symbol name, v)]) hnext ht
    refine hrest.bind fun fs t' ht' => .ret ht' ?_
    rw [List.append_assoc]
    exact .refl _

/-- Statements are evaluated one after the other. -/
theorem Matched.inTurn (h : Matched n) (hacts : Unhandled (a :: acts)) {es : List Expr}
    (hes : ∀ e ∈ es, e.Simple) (hμ : μ.Simple) :
    Comes Prod.snd n σ (fun v t => (σ.withMemory t.2).land v (a.within t.1 :: acts))
      ((σ.withMemory μ).goes (a.within b :: acts) (.run es))
      (Evaluating.inTurn (evaluate n) (σ.setting a acts) es (b, μ)) := by
  induction es generalizing b μ with
  | nil => exact .ret hμ ((Next.Leads.of_step fun _ => rfl).trans (give_leads _ _ _))
  | cons e es ih =>
    obtain ⟨he, hes⟩ := List.forall_mem_cons.1 hes
    cases es with
    | nil => exact (h σ a acts e b μ he hμ hacts).of_leads (.of_step fun _ => rfl)
    | cons e' es =>
      refine Comes.of_leads (.of_step fun _ => rfl) ?_
      exact (h.part (c := .statements (e' :: es)) he hμ hacts rfl rfl fun v t _ => rfl).bind
        fun v t ht => ih hes ht

/-- What an expression comes to, with its steps and its direct evaluation. -/
abbrev Agrees (n : Nat) (σ : State) (a : Activity) (acts : List Activity) (b : Surroundings) (μ : Memory)
    (e : Expr) (r : Option (Except RuntimeError Value × Surroundings × Memory)) : Prop :=
  Comes Prod.snd n σ (fun v t => (σ.withMemory t.2).land v (a.within t.1 :: acts))
    ((σ.withMemory μ).goes (a.within b :: acts) (.eval e)) r

theorem Agrees.of_step {e : Expr} {next : Next}
    {r : Option (Except RuntimeError Value × Surroundings × Memory)}
    (hstep : ∀ fill, State.step fill { σ with
      memory := μ, acts := a.within b :: acts, control := .eval e } = next)
    (h : Comes Prod.snd n σ (fun v t => (σ.withMemory t.2).land v (a.within t.1 :: acts)) next r) :
    Agrees (n + 1) σ a acts b μ e r :=
  Comes.of_step hstep h

/-- A value that is known at once. -/
theorem Agrees.value {e : Expr} {v : Value} {b' : Surroundings} {μ' : Memory} (hμ : μ'.Simple)
    (hstep : ∀ fill, State.step fill { σ with
      memory := μ, acts := a.within b :: acts, control := .eval e } =
      (σ.withMemory μ').goes (a.within b' :: acts) (.give v)) :
    Agrees (n + 1) σ a acts b μ e (some (.ok v, b', μ')) :=
  .of_step hstep ⟨hμ, give_leads _ _ _⟩

theorem Agrees.failure {e : Expr} {error : RuntimeError} {b' : Surroundings} {μ' : Memory} (hμ : μ'.Simple)
    (hstep : ∀ fill, State.step fill { σ with
      memory := μ, acts := a.within b :: acts, control := .eval e } =
      (σ.withMemory μ').finish (.error error)) :
    Agrees (n + 1) σ a acts b μ e (some (.error error, b', μ')) :=
  .of_step hstep ⟨hμ, .refl _⟩

theorem agrees_name (hμ : μ.Simple) (line : Nat) (name : String) :
    Agrees (n + 1) σ a acts b μ (.name line name)
      (evaluate (n + 1) (σ.setting a acts) (.name line name) (b, μ)) := by
  have hread : Evaluating.read ((σ.setting a acts).symbol name) (b, μ) =
      some (.ok ((a.within b).read μ.world.globals ((a.within b).reading.symbol name)), b, μ) := rfl
  rw [evaluate, run_bind, hread]
  cases hv : (a.within b).read μ.world.globals ((a.within b).reading.symbol name) with
  | some v =>
    refine .value hμ fun fill => ?_
    simp only [State.step, State.eval, hv]
    rfl
  | none =>
    refine .failure hμ fun fill => ?_
    simp only [State.step, State.eval, hv]
    rfl

theorem agrees_lambda (hμ : μ.Simple) {line : Nat} {name : Option String} {params : List String}
    {body : Expr} (he : (Expr.lambda line name params body).Simple) :
    Agrees (n + 1) σ a acts b μ (.lambda line name params body)
      (evaluate (n + 1) (σ.setting a acts) (.lambda line name params body) (b, μ)) := by
  have hbody : body.Simple := he.part (.head _)
  have hmade := hμ.makeFunction (name.map a.reading.symbol) (f :=
    { reading := a.reading
      selfName := selfNameOf (name.map a.reading.symbol) (params.map a.reading.symbol)
      params := params.map a.reading.symbol
      body
      captured := b.locals ++ b.captured }) hbody
  rw [evaluate]
  exact .value hmade fun _ => rfl

section Parts

variable (h : Matched n) (hμ : μ.Simple) (hacts : Unhandled (a :: acts))

include h hμ hacts

theorem agrees_call (hcalls : CallsMatched n) {line : Nat} {callee : Expr} {args : List Expr}
    (he : (Expr.call line callee args).Simple) :
    Agrees (n + 1) σ a acts b μ (.call line callee args)
      (evaluate (n + 1) (σ.setting a acts) (.call line callee args) (b, μ)) := by
  have hargs : ∀ e ∈ args, e.Simple := fun e hmem => he.part (.tail _ hmem)
  have hcallee : callee.Simple := he.part (.head _)
  rw [evaluate]
  refine .of_step (fun _ => rfl) ?_
  refine (h.each hacts (.call line) [callee] hargs [] hμ).bind fun vs t ht => ?_
  rw [List.nil_append]
  refine (h.part (c := .operands (.call line) vs []) (k := fun f t => (σ.withMemory t.2).goes
    (a.within t.1 :: acts) (.call (a.reading.shown line) f vs)) hcallee ht hacts rfl rfl
    fun f t _ => ?_).bind fun f t ht => ?_
  · change (σ.withMemory t.2).goes (a.within t.1 :: acts)
      (.call (a.reading.shown line) ((vs ++ [f]).getLastD .none) (vs ++ [f]).dropLast) = _
    rw [List.getLastD_concat, List.dropLast_concat]
  · have hcall := hcalls σ (a.within t.1 :: acts) (a.reading.shown line) f vs t.2 ht (hacts.within t.1)
    exact hcall.ofCall

/-- The value of an expression is made from the values of its operands. -/
theorem agrees_items (work : Work) {e : Expr} {items : List Expr} {make : List Value → Value}
    (hitems : ∀ item ∈ items, item.Simple)
    (hstep : ∀ fill, State.step fill { σ with
      memory := μ, acts := a.within b :: acts, control := .eval e } =
      (σ.withMemory μ).operate (a.within b) acts work [] items)
    (hmake : ∀ (vs : List Value) (t : Surroundings × Memory),
      (σ.withMemory t.2).operate (a.within t.1) acts work vs [] =
        (σ.withMemory t.2).goes (a.within t.1 :: acts) (.give (make vs))) :
    Agrees (n + 1) σ a acts b μ e ((do
      let vs ← Evaluating.each (fun held => evaluate n ((σ.setting a acts).holding held)) 0 items
      return make vs) (b, μ)) := by
  have heach := h.each (σ := σ) (b := b) hacts work [] hitems [] hμ
  rw [List.append_nil] at heach
  refine .of_step hstep (heach.bind fun vs t ht => .ret ht ?_)
  rw [List.nil_append, hmake]
  exact give_leads _ _ _

theorem agrees_record {line : Nat} {fields : List (String × Expr)}
    (he : (Expr.record line fields).Simple) :
    Agrees (n + 1) σ a acts b μ (.record line fields)
      (evaluate (n + 1) (σ.setting a acts) (.record line fields) (b, μ)) := by
  rw [evaluate]
  refine .of_step (fun _ => rfl) ?_
  exact (h.eachField hacts (fun f hmem => he.part (List.mem_map_of_mem hmem)) [] rfl hμ).bind
    fun fs t ht => .ret ht (give_leads _ _ _)

/-- An expression with one operand. -/
theorem agrees_operand (work : Work) {e operand : Expr} {f : Value → Evaluating Value}
    (hoperand : operand.Simple)
    (hstep : ∀ fill, State.step fill { σ with
      memory := μ, acts := a.within b :: acts, control := .eval e } =
      (σ.withMemory μ).operate (a.within b) acts work [] [operand])
    (hf : ∀ v t, t.2.Simple →
      Comes Prod.snd n σ (fun v t => (σ.withMemory t.2).land v (a.within t.1 :: acts))
        ((σ.withMemory t.2).conclude (a.within t.1) acts [v] work) (f v t)) :
    Agrees (n + 1) σ a acts b μ e ((do
      let v ← evaluate n ((σ.setting a acts).holding 0) operand
      f v) (b, μ)) :=
  .of_step hstep <| (h.part (c := .operands work [] []) hoperand hμ hacts rfl rfl fun _ _ _ => rfl).bind hf

theorem agrees_field {line : Nat} {target : Expr} {name : String}
    (he : (Expr.field line target name).Simple) :
    Agrees (n + 1) σ a acts b μ (.field line target name)
      (evaluate (n + 1) (σ.setting a acts) (.field line target name) (b, μ)) := by
  rw [evaluate]
  refine agrees_operand h hμ hacts (.field line name) (he.part (.head _)) (fun _ => rfl)
    fun v t ht => ?_
  rw [State.conclude]
  have hsymbol : ([v].headD Value.none).project ((a.within t.1).reading.symbol name) =
    v.project ((σ.setting a acts).symbol name) := rfl
  rw [hsymbol]
  cases v.project ((σ.setting a acts).symbol name) with
  | ok v => exact .ret ht (give_leads _ _ _)
  | error e => exact ⟨ht, .refl _⟩

theorem agrees_declare {line : Nat} {name : String} {value : Expr}
    (he : (Expr.declare line name value).Simple) :
    Agrees (n + 1) σ a acts b μ (.declare line name value)
      (evaluate (n + 1) (σ.setting a acts) (.declare line name value) (b, μ)) := by
  rw [evaluate]
  refine agrees_operand h hμ hacts (.declare name) (he.part (.head _)) (fun _ => rfl)
    fun v t ht => ?_
  have hconclude : (σ.withMemory t.2).conclude (a.within t.1) acts [v] (.declare name) =
    (σ.withMemory t.2).declare (a.within t.1) acts (a.reading.symbol name) v := rfl
  have hdeclare : Evaluating.declare (σ.setting a acts) ((σ.setting a acts).symbol name) v t =
      some (.ok (), if a.isGlobal = true then (t.1, t.2.setGlobal (a.reading.symbol name) v)
        else ({ t.1 with locals := (a.reading.symbol name, v) :: t.1.locals }, t.2)) := rfl
  have hglobal : (a.within t.1).isGlobal = a.isGlobal := rfl
  rw [hconclude, run_bind, hdeclare, State.declare, hglobal]
  split_ifs with ha
  · exact .ret (ht.withWorld _) (give_leads _ _ _)
  · exact .ret ht (give_leads _ _ _)

theorem agrees_assign {line : Nat} {name : String} {value : Expr}
    (he : (Expr.assign line name value).Simple) :
    Agrees (n + 1) σ a acts b μ (.assign line name value)
      (evaluate (n + 1) (σ.setting a acts) (.assign line name value) (b, μ)) := by
  rw [evaluate]
  refine agrees_operand h hμ hacts (.assign name) (he.part (.head _)) (fun _ => rfl)
    fun v t ht => ?_
  have hconclude : (σ.withMemory t.2).conclude (a.within t.1) acts [v] (.assign name) =
    (σ.withMemory t.2).write (a.within t.1) acts (a.reading.symbol name) v := rfl
  obtain ⟨x, hx⟩ : ∃ x, x = a.reading.symbol name := ⟨_, rfl⟩
  have hwrite : Evaluating.write ((σ.setting a acts).symbol name) v t =
      some (.ok (), if binds t.1.locals x = true then ({ t.1 with locals := assign x v t.1.locals }, t.2)
        else if binds t.1.captured x = true then
          ({ t.1 with captured := assign x v t.1.captured }, t.2)
        else (t.1, t.2.setGlobal x v)) := by rw [hx]; rfl
  have hlocals : (a.within t.1).locals = t.1.locals := rfl
  have hcaptured : (a.within t.1).captured = t.1.captured := rfl
  rw [hconclude, run_bind, hwrite, State.write, ← hx, hlocals, hcaptured]
  split_ifs
  · exact .ret ht (give_leads _ _ _)
  · exact .ret ht (give_leads _ _ _)
  · exact .ret (ht.withWorld _) (give_leads _ _ _)

/-- What is left of a conditional once its test has a value, where its parts bind nothing. -/
def State.branch (σ : State) (a : Activity) (acts : List Activity) (whenTrue : Expr) :
    Option Expr → Bool → Next
  | some e, true => σ.goes (a.wait (.passing e.declares) :: acts) (.eval whenTrue)
  | none, true => σ.goes (a :: acts) (.eval whenTrue)
  | some e, false => σ.goes (a :: acts) (.eval e)
  | none, false => σ.goes (a :: acts) (.give .none)

theorem agrees_cond {line : Nat} {test whenTrue : Expr} {whenFalse : Option Expr}
    (he : (Expr.cond line test whenTrue whenFalse).Simple) :
    Agrees (n + 1) σ a acts b μ (.cond line test whenTrue whenFalse)
      (evaluate (n + 1) (σ.setting a acts) (.cond line test whenTrue whenFalse) (b, μ)) := by
  have htest : test.Simple := he.part (.head _)
  have htrue : whenTrue.Simple := he.part (.tail _ (.head _))
  have hdeclares : whenTrue.declares = [] := Expr.Simple.declares htrue (he.here _ (.tail _ (.head _)))
  rw [evaluate]
  refine .of_step (fun _ => rfl) ?_
  refine (h.part (c := .test whenTrue whenFalse) (k := fun v t =>
    (σ.withMemory t.2).branch (a.within t.1) acts whenTrue whenFalse v.isTruthy)
    htest hμ hacts rfl rfl fun v t fill => ?_).bind fun v t ht => ?_
  · simp only [State.step, State.give, Activity.wait, hdeclares, pass_nil]
    cases v.isTruthy <;> cases whenFalse <;> rfl
  · cases v.isTruthy with
    | true =>
      cases whenFalse with
      | none => exact h σ a acts whenTrue t.1 t.2 htrue ht hacts
      | some e =>
        have hpart := h σ (a.wait (.passing e.declares)) acts whenTrue t.1 t.2 htrue ht (hacts.wait _)
        rw [setting_passing] at hpart
        refine hpart.mono fun v t => ?_
        have hfalse : e.declares = [] := Expr.Simple.declares (he.part (.tail _ (.tail _ (.head _))))
          (he.here _ (.tail _ (.tail _ (.head _))))
        refine land_wait (a := a.within t.1) rfl rfl fun fill => ?_
        simp only [State.step, State.give, Activity.wait, hfalse, pass_nil]
        rfl
    | false =>
      cases whenFalse with
      | none => exact .ret ht (give_leads _ _ _)
      | some e => exact h σ a acts e t.1 t.2 (he.part (.tail _ (.tail _ (.head _)))) ht hacts

theorem agrees_block {line : Nat} {body : List Expr} (he : (Expr.block line body).Simple) :
    Agrees (n + 1) σ a acts b μ (.block line body)
      (evaluate (n + 1) (σ.setting a acts) (.block line body) (b, μ)) := by
  rw [evaluate]
  cases body with
  | nil =>
    have hdrop : b.locals.drop (b.locals.length - b.locals.length) = b.locals := by
      rw [Nat.sub_self, List.drop_zero]
    have hscope : Evaluating.inScope (Evaluating.inTurn (evaluate n) (σ.setting a acts).inside []) (b, μ) =
        some (.ok .none, { b with locals := b.locals.drop (b.locals.length - b.locals.length) }, μ) := rfl
    rw [hscope, hdrop]
    exact .value hμ fun _ => rfl
  | cons e es =>
    refine .of_step (fun _ => rfl) ?_
    have hbody := h.inTurn (σ := σ) (b := b) (hacts.wait (.scope b.locals.length))
      (fun e hmem => he.part hmem) hμ
    rw [setting_scope] at hbody
    exact hbody.inScope fun v t => land_wait (a := a.within t.1) rfl rfl fun _ => rfl

end Parts

/-- One level deeper. -/
theorem Matched.succ (h : Matched n) (hcalls : CallsMatched n) : Matched (n + 1) := by
  intro σ a acts e b μ he hμ hacts
  cases e with
  | nothing | bool | int | float | str =>
    rw [evaluate]
    exact Agrees.value hμ fun _ => rfl
  | name line name => exact agrees_name hμ line name
  | call => exact agrees_call h hμ hacts hcalls he
  | cond => exact agrees_cond h hμ hacts he
  | lambda => exact agrees_lambda hμ he
  | block => exact agrees_block h hμ hacts he
  | declare => exact agrees_declare h hμ hacts he
  | assign => exact agrees_assign h hμ hacts he
  | list =>
    rw [evaluate]
    exact agrees_items h hμ hacts .list (fun _ hmem => he.part hmem) (fun _ => rfl)
      fun _ _ => rfl
  | tuple =>
    rw [evaluate]
    exact agrees_items h hμ hacts .tuple (fun _ hmem => he.part hmem) (fun _ => rfl)
      fun _ _ => rfl
  | record => exact agrees_record h hμ hacts he
  | field => exact agrees_field h hμ hacts he
  | handle | handled => cases he.here

end Expressions

section Calls

variable {n : Nat} {σ : State} {acts : List Activity} {μ : Memory}

theorem cut?_of_unhandled {acts : List Activity} (h : Unhandled acts) (effect : Effect) :
    cut? effect acts = none := by
  induction acts with
  | nil => rfl
  | cons a acts ih =>
    obtain ⟨ha, hacts⟩ := List.forall_mem_cons.1 h
    have hchoice : a.choice? effect = none := by rw [Activity.choice?, ha]; rfl
    rw [cut?, hchoice, ih hacts]
    rfl

theorem raise_of_unhandled (h : Unhandled σ.acts) (line : Nat) (effect : Effect) (payload : Value) :
    σ.raise line effect payload = σ.fail line (.unhandledEffect effect.name) := by
  rw [State.raise, cut?_of_unhandled h]

theorem height_of_inTail {a : Activity} (hhandler : a.handler = none) (htail : a.inTail = true) :
    a.height = 0 := by
  have hheld : a.held = [] := by
    refine List.flatMap_eq_nil_iff.2 fun c hc => ?_
    have htransparent := List.all_eq_true.1 htail c (List.mem_reverse.1 hc)
    cases c <;> first | rfl | cases htransparent
  rw [Activity.height, hhandler, hheld]
  rfl

/-- The place in the body of a function. -/
theorem setting_activity (σ : State) (acts : List Activity) (f : Function) (callee : Value)
    (args : List Value) :
    σ.setting (f.activity callee args none) acts =
      { limits := σ.limits
        inTail := true
        depth := acts.length + 1
        height := totalHeight acts
        reading := f.reading
        isGlobal := false } := by
  have hheight : totalHeight (f.activity callee args none :: acts) = totalHeight acts :=
    List.sum_cons.trans (Nat.zero_add _)
  rw [State.setting, State.place, hheight]
  rfl

theorem State.enter_of_room {line : Nat} {next : Activity × Control}
    (hfits : σ.limits.room σ.acts.length (totalHeight σ.acts + next.1.handler.toList.length) = .ok ()) :
    σ.enter line next = σ.goes (next.1 :: σ.acts) next.2 := by
  rw [State.enter, hfits]

theorem State.enter_of_full {line : Nat} {next : Activity × Control} {e : RuntimeError}
    (hfull : σ.limits.room σ.acts.length (totalHeight σ.acts + next.1.handler.toList.length) = .error e) :
    σ.enter line next = σ.fail line e := by
  rw [State.enter, hfull]

section Entering

variable (h : Matched n) (hμ : μ.Simple) (hacts : Unhandled acts) {f : Function} (hf : f.body.Simple)
  (line : Nat) (callee : Value) (args : List Value)

include h hμ hacts hf

/-- The body of a function, in an activity of its own. -/
theorem body_comes :
    Comes id n σ (fun v μ => (σ.withMemory μ).hand v acts)
      ((σ.withMemory μ).goes (f.activity callee args none :: acts) (.eval f.body))
      (Calling.within { locals := f.locals callee args, captured := f.captured }
        (evaluate n (σ.setting (f.activity callee args none) acts) f.body) μ) := by
  have hbody := h σ (f.activity callee args none) acts f.body
    { locals := f.locals callee args, captured := f.captured } μ hf hμ
    (List.forall_mem_cons.2 ⟨rfl, hacts⟩)
  refine Comes.within (hbody.mono fun v t => ?_)
  rw [land_of_inTail rfl]
  exact .refl _

/-- A call that is not in tail position needs room. -/
theorem enter_comes (hplace : (σ.place acts).inTail = false) :
    Comes id n σ (fun v μ => (σ.withMemory μ).land v acts)
      (State.enter { σ with memory := μ, acts } line (f.activity callee args none, .eval f.body))
      ((do
        let inner ← Calling.enter (σ.place acts) line
        Calling.within { locals := f.locals callee args, captured := f.captured } (evaluate n
          { inner with reading := f.reading, isGlobal := false } f.body) : Calling Value) μ) := by
  have hbody := body_comes (σ := σ) h hμ hacts hf callee args
  rw [setting_activity] at hbody
  have hroom : (σ.place acts).limits.room (σ.place acts).depth (σ.place acts).height =
    σ.limits.room acts.length (totalHeight acts) := rfl
  rw [run_bind, Calling.enter, hplace, if_neg Bool.false_ne_true, hroom]
  cases hfits : σ.limits.room acts.length (totalHeight acts) with
  | ok _ =>
    have henter : State.enter { σ with memory := μ, acts } line
        (f.activity callee args none, .eval f.body) =
      (σ.withMemory μ).goes (f.activity callee args none :: acts) (.eval f.body) :=
      State.enter_of_room hfits
    rw [henter]
    exact hbody.mono fun v μ => hand_leads _ v acts
  | error e =>
    have henter : State.enter { σ with memory := μ, acts } line
        (f.activity callee args none, .eval f.body) =
      (σ.withMemory μ).fail line e := State.enter_of_full hfits
    rw [henter]
    exact ⟨hμ, .refl _⟩

/-- A function that is called. -/
theorem enterFunction_comes :
    Comes id n σ (fun v μ => (σ.withMemory μ).land v acts)
      (State.enterFunction { σ with memory := μ, acts } line f callee args)
      ((do
        let inner ← Calling.enter (σ.place acts) line
        Calling.within { locals := f.locals callee args, captured := f.captured } (evaluate n
          { inner with reading := f.reading, isGlobal := false } f.body) : Calling Value) μ) := by
  cases acts with
  | nil => exact enter_comes h hμ hacts hf line callee args rfl
  | cons a acts =>
    obtain ⟨ha, hrest⟩ := List.forall_mem_cons.1 hacts
    have henter : State.enterFunction { σ with memory := μ, acts := a :: acts } line f callee args =
        if a.inTail = true then
          (σ.withMemory μ).goes (f.activity callee args a.handler :: acts) (.eval f.body)
        else State.enter { σ with memory := μ, acts := a :: acts } line
          (f.activity callee args none, .eval f.body) := rfl
    rw [henter, ha]
    cases htail : a.inTail with
    | false =>
      rw [if_neg Bool.false_ne_true]
      exact enter_comes h hμ hacts hf line callee args htail
    | true =>
      have hbody := body_comes (σ := σ) h hμ hrest hf callee args
      have hheight : totalHeight (a :: acts) = totalHeight acts := by
        rw [totalHeight, List.map_cons, List.sum_cons, height_of_inTail ha htail, Nat.zero_add]
        rfl
      have hplace : σ.place (a :: acts) =
          { limits := σ.limits, inTail := true, depth := acts.length + 1, height := totalHeight acts } := by
        rw [State.place, hheight, htail]
        rfl
      rw [setting_activity] at hbody
      rw [if_pos rfl, hplace, run_bind, Calling.enter, if_pos rfl]
      refine hbody.mono fun v μ => ?_
      rw [land_of_inTail htail]
      exact .refl _

end Entering

/-- A task runs to its end before its result is kept. -/
theorem spawn_comes (hcalls : CallsMatched n) (hμ : μ.Simple) (task : Value) :
    Comes id n σ (fun v μ => (σ.withMemory μ).land v acts)
      (State.spawn { σ with memory := μ, acts } task)
      (Calling.task
        (call n { limits := σ.limits, inTail := false, depth := 0, height := 0 } 0 task []) μ) := by
  obtain ⟨begun, hbegun⟩ : ∃ begun, begun = μ.withWorld { μ.world with tasks := μ.world.tasks.draw.2 } :=
    ⟨_, rfl⟩
  have hcall : Comes id n _ _ _
      (call n { limits := σ.limits, inTail := false, depth := 0, height := 0 } 0 task [] begun) :=
    hcalls { σ with waiting := (μ.world.tasks.draw.1, acts) :: σ.waiting } [] 0 task [] begun
      (hbegun ▸ hμ.withWorld _) nofun
  have hspawn : State.spawn { σ with memory := μ, acts } task =
      State.goes { σ with memory := begun, waiting := (μ.world.tasks.draw.1, acts) :: σ.waiting } []
        (.call 0 task []) := by rw [hbegun]; rfl
  have htask : ∀ x : Calling Value, Calling.task x μ = (x begun).map fun p =>
      (.ok (.int (Int64.ofInt μ.world.tasks.draw.1)), p.2.withWorld
        { p.2.world with tasks := p.2.world.tasks.store μ.world.tasks.draw.1 p.1 }) := by
    rw [hbegun]
    exact fun _ => rfl
  rw [hspawn, htask]
  generalize call n _ 0 task [] begun = r at hcall
  obtain _ | ⟨_ | v, μ'⟩ := r
  · exact hcall
  · exact ⟨hcall.1.withWorld _, hcall.2.trans (give_leads _ _ acts)⟩
  · exact ⟨hcall.1.withWorld _, hcall.2.trans (give_leads _ _ acts)⟩

theorem CallsMatched.succ (h : Matched n) (hcalls : CallsMatched n) : CallsMatched (n + 1) := by
  intro σ acts line callee args μ hμ hacts
  rw [call]
  refine Comes.of_step (fun _ => rfl) ?_
  change Comes id n σ _ (State.call { σ with memory := μ, acts } line callee args) _
  rw [run_bind, Calling.act, State.call]
  cases Application.apply callee args μ.world with
  | error e world => exact ⟨hμ.withWorld world, .refl _⟩
  | ok t world =>
    have hworld := hμ.withWorld world
    cases t with
    | returned v => exact .ret hworld (hand_leads _ v acts)
    | spawn task => exact spawn_comes hcalls hworld task
    | enter key callee args =>
      change Comes id n σ _ (State.transfer { σ with memory := μ.withWorld world, acts } line
        (.enter key callee args)) _
      simp only [run_bind, Calling.find, State.transfer]
      cases hf : (μ.withWorld world).functions.lookup key with
      | none => exact ⟨hworld, .refl _⟩
      | some f => exact enterFunction_comes h hworld hacts (hworld.functions _ f hf) line callee args
    | raise effect payload =>
      have hraise :=
        raise_of_unhandled (σ := { σ with memory := μ.withWorld world, acts }) hacts line effect payload
      refine ⟨hworld, ?_⟩
      change Next.Leads (State.raise { σ with memory := μ.withWorld world, acts } line effect payload) _
      rw [hraise]
      exact .refl _
    | resume k v =>
      have hnone : (μ.withWorld world).continuations.lookup k = none := by
        rw [hworld.continuations]
        rfl
      change Comes id n σ _ (State.transfer { σ with memory := μ.withWorld world, acts } line
        (.resume k v)) _
      simp only [State.transfer, hnone]
      exact ⟨hworld, .refl _⟩

end Calls

theorem matched (n : Nat) : Matched n ∧ CallsMatched n := by
  induction n with
  | zero =>
    have hzero : ∀ σ : State, (Next.more σ).Lasts 0 := fun σ fills hlength =>
      ⟨σ, by rw [List.length_eq_zero_iff.1 (Nat.le_zero.1 hlength)]; rfl⟩
    refine ⟨fun σ a acts e b μ _ _ _ => ?_, fun σ acts line callee args μ _ _ => ?_⟩
    · rw [evaluate_zero]
      exact hzero _
    · rw [call_zero]
      exact hzero _
  | succ n ih => exact ⟨ih.1.succ ih.2, .succ ih.1 ih.2⟩

/-- What a direct evaluation comes to, as an outcome. -/
def outcomeOf : Except RuntimeError Value → Outcome
  | .ok v => .returned v
  | .error e => .failed e

/-- The evaluation of a program step by step ends with what its direct evaluation comes to, and goes on as
long as this comes to nothing. -/
theorem begin_comes (n : Nat) (limits : Limits) (reading : Reading) {program : Program} {μ : Memory}
    (hprogram : ∀ e ∈ program, e.Simple) (hμ : μ.Simple) :
    (evaluateProgram n limits reading program μ = none → (begin μ limits reading program).Lasts n) ∧
      ∀ r μ', evaluateProgram n limits reading program μ = some (r, μ') →
        μ'.Simple ∧ (begin μ limits reading program).Leads (.ended (outcomeOf r) μ') := by
  obtain ⟨σ, hσ⟩ : ∃ σ : State, σ = { memory := μ.drawn, limits, control := .run program } := ⟨_, rfl⟩
  have hdrawn : μ.drawn.Simple := hμ.withWorld _
  have hbody : Comes Prod.snd n σ (fun v t => .ended (.returned v) t.2)
      (σ.goes [{ reading, isProgram := true }] (.run program))
      (Evaluating.inTurn (evaluate n)
        { limits, inTail := true, depth := 1, height := 0, reading, isGlobal := true } program
        ({}, μ.drawn)) := by
    subst hσ
    have hunhandled : Unhandled [{ reading, isProgram := true }] := List.forall_mem_singleton.2 rfl
    exact (matched n).1.inTurn (b := {}) hunhandled hprogram hdrawn
  have hbegin : begin μ limits reading program =
      σ.enter 0 ({ reading, isProgram := true }, .run program) := by rw [hσ]; rfl
  have hcomes : Comes id n σ (fun v μ' => .ended (.returned v) μ') (begin μ limits reading program)
      (evaluateProgram n limits reading program μ) := by
    have hrun : evaluateProgram n limits reading program μ = (do
        let p ← Calling.enter { limits, inTail := false, depth := 0, height := 0 } 0
        Calling.within {} (Evaluating.inTurn (evaluate n) { p with reading, isGlobal := true } program) :
          Calling Value) μ.drawn := rfl
    rw [hrun, hbegin, run_bind, Calling.enter, if_neg Bool.false_ne_true]
    cases hfits : limits.room 0 0 with
    | ok _ =>
      rw [State.enter_of_room (by rw [hσ]; exact hfits), show σ.acts = [] by rw [hσ]]
      exact hbody.within
    | error e =>
      rw [State.enter_of_full (by rw [hσ]; exact hfits)]
      exact ⟨hdrawn, by rw [hσ]; exact .refl _⟩
  have hend : ∀ e μ', (σ.withMemory μ').finish (.error e) = .ended (.failed e) μ' := by
    rw [hσ]
    exact fun _ _ => rfl
  generalize evaluateProgram n limits reading program μ = r at hcomes ⊢
  constructor
  · rintro rfl
    exact hcomes
  · rintro (e | v) μ' rfl
    · exact ⟨hcomes.1, hend e μ' ▸ hcomes.2⟩
    · exact hcomes

end Resumable.Meaning
