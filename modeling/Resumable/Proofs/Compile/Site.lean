import Resumable.Proofs.Compile.Typed
import Resumable.Proofs.Machine.Contract
import Resumable.Proofs.Meaning.Choosing
import Resumable.Proofs.Meaning.Closures
import Resumable.Proofs.Meaning.Entry

/-!
Evaluating the expressions of a compiled function, rule by rule. For each form of expression there is a
rule that says what its code comes to, given what the code of its parts comes to and what the calls in
it come to. The rules do not depend on where the code stands.
-/

namespace Resumable

open Meaning

theorem Globals.get?_congr {s t : Symbol} (hsame : (s == t) = true) (globals : Globals) :
    globals.get? s = globals.get? t := by
  rw [Symbol.beq_iff] at hsame
  rw [get?, get?, hsame]

namespace Lexical

/-- What the names of a scope stand for in an activation: the value of a variable is in its slot or
among the captured bindings, if the code mentions it there. All other names are global. -/
structure Sees (G : Ground) (Γ : Lexical) (a : Activation) (ρ : List (String × Value)) : Prop where
  bound : ∀ s, a.code.Captures s → (Env.get? a.env s).isSome = true
  size : a.code.localCount ≤ a.locals.size
  visible : ∀ x s v, G.reading.names.find? x = some s → ρ.lookup x = some v →
    (∃ n, Γ.lookup s = .slot n ∧ a.locals[n]? = some v) ∨
      Γ.lookup s = .captured ∧ (a.code.Captures s → Env.get? a.env s = some v)
  hidden : ∀ x s, G.reading.names.find? x = some s → ρ.lookup x = none → Γ.lookup s = .global

/-- A function with the given body has the code `f` and has captured `env`, where the names around it
stand for the values in `ρ`. -/
structure Encloses (G : Ground) (Γ : Lexical) (ρ : List (String × Value)) (name : Option String)
    (params : List String) (body : Expr) (f : Code Value) (env : Env Value) : Prop where
  laid : ∃ code line,
    LayoutFunction G.reading.options G.reading.names code Γ line name params body f
  bound : ∀ s, f.Captures s → (env.get? s).isSome = true
  visible : ∀ x s v, G.reading.names.find? x = some s → ρ.lookup x = some v →
    Γ.entered.lookup s = .captured ∧ (f.Captures s → env.get? s = some v)
  hidden : ∀ x s, G.reading.names.find? x = some s → ρ.lookup x = none →
    Γ.entered.lookup s = .global

/-- The name by which a function calls itself stands for it in its body, unless a parameter has it. -/
def own (name : Option String) (params : List String) (closure : Value) : List (String × Value) :=
  match name with
  | some n => if n ∈ params then [] else [(n, closure)]
  | none => []

variable {G : Ground} {Γ : Lexical} {a : Activation} {ρ : List (String × Value)}

theorem lookup_declared (Γ : Lexical) (s t : Symbol) :
    (Γ.declared s).lookup t = if (s == t) = true then .slot Γ.locals.length else Γ.lookup t := by
  have hslot : slotIn (Γ.declared s).locals t =
      if (s == t) = true then some Γ.locals.length else slotIn Γ.locals t := by
    simp only [slotIn, declared, List.find?_cons]
    split <;> simp_all
  have houter : (Γ.declared s).isOuter t = Γ.isOuter t := rfl
  by_cases hsame : (s == t) = true
  · rw [lookup, hslot, if_pos hsame, if_pos hsame]
  · rw [lookup, hslot, houter, if_neg hsame, if_neg hsame, lookup]

/-- What is visible around a function is captured in it. -/
theorem lookup_entered (Γ : Lexical) (s : Symbol) :
    Γ.entered.lookup s = match Γ.lookup s with
      | .global => .global
      | _ => .captured := by
  have houter : Γ.entered.isOuter s = ((slotIn Γ.locals s).isSome || Γ.isOuter s) := rfl
  have hnone : slotIn Γ.entered.locals s = none := rfl
  simp only [lookup, hnone, houter]
  cases slotIn Γ.locals s with
  | some n => rfl
  | none => cases Γ.isOuter s <;> rfl

/-- A local that is declared is seen before the others. -/
theorem Sees.declared (h : Γ.Sees G a ρ) {x : String} {s : Symbol} {v : Value}
    (hx : G.reading.names.find? x = some s) (hslot : a.locals[Γ.locals.length]? = some v) :
    (Γ.declared s).Sees G a ((x, v) :: ρ) := by
  refine ⟨h.bound, h.size, ?_, ?_⟩
  · intro y t w hy hlookup
    rw [lookup_declared]
    by_cases hsame : y = x
    · subst hsame
      obtain rfl : s = t := Option.some.inj (hx.symm.trans hy)
      rw [List.lookup_cons_self] at hlookup
      cases hlookup
      exact Or.inl ⟨_, if_pos (Symbol.beq_iff.2 rfl), hslot⟩
    · rw [List.lookup_cons, beq_eq_false_iff_ne.2 hsame] at hlookup
      rw [if_neg (by rw [Ground.ne_of_ne hx hy (Ne.symm hsame)]; exact Bool.false_ne_true)]
      exact h.visible y t w hy hlookup
  · intro y t hy hlookup
    have hne : y ≠ x := by
      rintro rfl
      rw [List.lookup_cons_self] at hlookup
      cases hlookup
    rw [List.lookup_cons, beq_eq_false_iff_ne.2 hne] at hlookup
    rw [lookup_declared, if_neg (by rw [Ground.ne_of_ne hx hy hne.symm]; exact Bool.false_ne_true)]
    exact h.hidden y t hy hlookup

/-- Locals that are declared in turn, with values in the next slots. -/
theorem Sees.declaredAll (h : Γ.Sees G a ρ) {xs : List String} {symbols : List Symbol}
    {values : List Value}
    (hxs : List.Forall₂ (fun x s => G.reading.names.find? x = some s) xs symbols)
    (hslots : ∀ i, i < values.length → a.locals[Γ.locals.length + i]? = values[i]?)
    (hlength : values.length = xs.length) :
    (Γ.declaredAll symbols).Sees G a ((xs.zip values).reverse ++ ρ) := by
  induction hxs generalizing Γ ρ values with
  | nil => exact h
  | @cons x s xs symbols hx _ ih =>
    obtain ⟨v, values, rfl⟩ := List.exists_cons_of_length_eq_add_one hlength
    have hfirst := h.declared hx (hslots 0 (Nat.zero_lt_succ _))
    have hrest : ∀ i, i < values.length →
        a.locals[(Γ.declared s).locals.length + i]? = values[i]? := by
      intro i hi
      have hslot := hslots (i + 1) (Nat.succ_lt_succ hi)
      rw [List.getElem?_cons_succ] at hslot
      rw [← hslot, Lexical.declared, List.length_cons]
      congr 1
      omega
    have hall := ih hfirst hrest (Nat.succ.inj hlength)
    rw [List.zip_cons_cons, List.reverse_cons, List.append_assoc]
    exact hall

/-- A parameter has the name of a function if and only if it has its symbol. -/
theorem mem_params_iff {n : String} {s : Symbol} {params : List String} {symbols : List Symbol}
    (hn : G.reading.names.find? n = some s)
    (hparams : List.Forall₂ (fun x t => G.reading.names.find? x = some t) params symbols) :
    symbols.contains s = true ↔ n ∈ params := by
  induction hparams with
  | nil => simp
  | @cons x t params symbols hx _ ih =>
    rw [List.contains_cons, Bool.or_eq_true, ih, List.mem_cons]
    refine or_congr ?_ Iff.rfl
    constructor
    · intro hsame
      exact (G.distinct n x s t hn hx hsame).1
    · rintro rfl
      obtain rfl := Option.some.inj (hn.symm.trans hx)
      exact Symbol.beq_iff.2 rfl

/-- What a function needs is there where it is made. -/
theorem Sees.supplies (h : Γ.Sees G a ρ) {c : Capture} (hc : Γ.Supplies a.code c) :
    ∃ v, a.supply c = some v := by
  obtain ⟨name, source⟩ := c
  cases source with
  | slot n => exact ⟨_, Array.getElem?_eq_getElem (Nat.lt_of_lt_of_le hc.2 h.size)⟩
  | enclosing => exact Option.isSome_iff_exists.1 (h.bound _ hc.2)

/-- A captured variable has the value that it has where it is captured. -/
theorem Sees.supply_eq (h : Γ.Sees G a ρ) {c : Capture} (hc : Γ.Supplies a.code c) {x : String}
    {s : Symbol} {v : Value} (hx : G.reading.names.find? x = some s) (hv : ρ.lookup x = some v)
    (hsame : (c.name == s) = true) : a.supply c = some v := by
  obtain ⟨name, source⟩ := c
  have hslot : slotIn Γ.locals name = slotIn Γ.locals s := slotIn_congr hsame
  obtain ⟨n, hlookup, hvalue⟩ | ⟨hlookup, hvalue⟩ := h.visible x s v hx hv
  · rw [slotIn_of_lookup hlookup] at hslot
    cases source with
    | slot n' =>
      obtain rfl : n' = n := Option.some.inj (hc.1.symm.trans hslot)
      exact hvalue
    | enclosing => exact absurd (hc.1.symm.trans hslot) nofun
  · rw [(isOuter_of_lookup hlookup).1] at hslot
    cases source with
    | slot n' => exact absurd (hc.1.symm.trans hslot) nofun
    | enclosing => exact (Env.get?_congr hsame a.env).trans (hvalue (hc.2.congr (Symbol.beq_iff.2 (Symbol.beq_iff.1 hsame).symm)))

/-- A function that is made sees what is visible. -/
theorem Sees.encloses (h : Γ.Sees G a ρ) {line : Nat} {name : Option String} {params : List String}
    {body : Expr} {f : Code Value} {env : Env Value}
    (hfunction : LayoutFunction G.reading.options G.reading.names a.code Γ line name params body f)
    (hbound : a.bindAll [] f.captures = some env) : Γ.Encloses G ρ name params body f env := by
  obtain ⟨hsupplies, hdistinct⟩ : (∀ c ∈ f.captures, Γ.Supplies a.code c) ∧
      f.captures.Pairwise fun c d => (c.name == d.name) = false := by
    cases hfunction with
    | intro hheader _ _ _ => exact ⟨hheader.captures, hheader.distinct⟩
  have hget : ∀ s, f.Captures s → ∃ c ∈ f.captures, (c.name == s) = true ∧
      env.get? s = a.supply c := by
    rintro s ⟨c, hc, hsame⟩
    exact ⟨c, hc, hsame, (Activation.get?_bindAll hbound hdistinct s).1 c hc hsame⟩
  refine ⟨⟨_, _, hfunction⟩, ?_, ?_, ?_⟩
  · intro s hs
    obtain ⟨c, hc, _, hsupply⟩ := hget s hs
    obtain ⟨v, hv⟩ := h.supplies (hsupplies c hc)
    rw [hsupply, hv]
    rfl
  · intro x s v hx hv
    constructor
    · rw [lookup_entered]
      obtain ⟨n, hlookup, _⟩ | ⟨hlookup, _⟩ := h.visible x s v hx hv <;> rw [hlookup]
    · intro hcaptured
      obtain ⟨c, hc, hsame, hsupply⟩ := hget s hcaptured
      rw [hsupply, h.supply_eq (hsupplies c hc) hx hv hsame]
  · intro x s hx hnone
    rw [lookup_entered, h.hidden x s hx hnone]

namespace Encloses

variable {name : Option String} {params : List String} {body : Expr} {f : Code Value}
  {env : Env Value} {closure : Value} {args : List Value}
  {bound : Option (List (Effect × Value) × Nat)}

theorem params_length (h : Γ.Encloses G ρ name params body f env) : f.params.length = params.length := by
  obtain ⟨_, _, hfunction⟩ := h.laid
  cases hfunction with
  | intro hheader _ _ _ => exact hheader.params_eq.length_eq.symm

/-- What the body of a function sees when it is entered. -/
theorem enter (h : Γ.Encloses G ρ name params body f env) (hlength : args.length = params.length) :
    (Γ.bodyOf f).Sees G (.enter closure f env args bound)
      (own name params closure ++ ((params.zip args).reverse ++ ρ)) := by
  obtain ⟨_, _, hfunction⟩ := h.laid
  cases hfunction with
  | intro hheader _ _ _ =>
    have hparams := hheader.params_eq
    have hroom := hheader.room
    have hstart : Γ.entered.Sees G (.enter closure f env args bound) ρ := by
      refine ⟨h.bound, ?_, fun x s v hx hv => Or.inr (h.visible x s v hx hv), h.hidden⟩
      rw [Activation.size_locals_enter]
      exact Nat.le_max_left _ _
    have hbody : (Γ.entered.declaredAll f.params).Sees G (.enter closure f env args bound)
        ((params.zip args).reverse ++ ρ) := by
      refine hstart.declaredAll hparams ?_ hlength
      intro i hi
      rw [show Γ.entered.locals.length + i = i from Nat.zero_add i]
      exact Activation.getElem?_enter (by rw [hlength, hparams.length_eq]) hi
    have hself := hheader.selfName_eq
    rw [hheader.name_eq] at hself
    have hscope : Γ.bodyOf f = (Γ.entered.declaredAll f.params).declaredAll f.selfName.toList := by
      rw [bodyOf, Lexical.declaredAll, List.foldl_append]
      rfl
    cases name with
    | none =>
      rw [hscope, hself]
      exact hbody
    | some n =>
      obtain ⟨s, hs⟩ := Option.isSome_iff_exists.1 (hheader.name_known n rfl)
      have hmem := mem_params_iff hs hparams
      rw [Option.bind_some, hs, selfNameOf] at hself
      by_cases hparam : n ∈ params
      · rw [if_pos (hmem.2 hparam)] at hself
        rw [hscope, hself, own, if_pos hparam]
        exact hbody
      · rw [if_neg (fun h => hparam (hmem.1 h))] at hself
        rw [hscope, hself, own, if_neg hparam]
        rw [hself] at hroom
        refine hbody.declared hs ?_
        rw [length_declaredAll, show Γ.entered.locals.length = 0 from rfl, Nat.zero_add]
        exact Activation.getElem?_enter_self hself hroom

end Encloses

end Lexical

/-- Where functions are entered in a running machine: above some activations, with a limit for the
number of frames that leaves room for one more. -/
structure Spot where
  machine : Machine
  below : List Activation
  depth : Nat
  running : machine.thread.Running
  base : Exec.baseOf machine.thread.levels ≤ below.length
  room : below.length + 1 ≤ depth

/-- Where the expressions of a function are evaluated: in an activation of it, with the names and the
variables that are visible there. -/
structure Site extends Spot where
  ground : Ground
  scope : Lexical
  act : Activation
  vars : List (String × Value)
  sees : scope.Sees ground act vars

namespace Site

/-- The activation at an offset of its code, with some operands. -/
def active (S : Site) (ip : Nat) (operands : List Value) : Activation :=
  { S.act with ip, operands }

/-- The machine at an offset of the code, with some operands. -/
def showing (S : Site) (w : World) (label ip : Nat) (operands : List Value) : Machine :=
  (S.machine.later w label).showing (S.below ++ [S.active ip operands]) []

/-- Moves lead from one place in the code to another. -/
def Leads (S : Site) (w : World) (label ip : Nat) (operands : List Value) (w' : World)
    (label' ip' : Nat) (operands' : List Value) : Prop :=
  Machine.LeadsWithin S.depth (S.showing w label ip operands) (S.showing w' label' ip' operands')

/-- An expression comes to a value, which is kept above some operands, such that `post`. -/
def Yields (S : Site) (operands : List Value) (e : Expr) (w : World)
    (post : Value → World → Prop) : Prop :=
  ∀ ip Γ next,
    Layout S.ground.reading.options S.ground.reading.names S.act.code S.scope false e ip Γ next →
    ∀ label, ∃ v w' label', post v w' ∧ Γ = S.scope ∧
      S.Leads w label ip operands w' label' next (operands ++ [v])

/-- Expressions come to values, which are kept above some operands, such that `post`. -/
def YieldsAll (S : Site) (operands : List Value) (es : List Expr) (w : World)
    (post : List Value → World → Prop) : Prop :=
  ∀ ip Γ next,
    LayoutAll S.ground.reading.options S.ground.reading.names S.act.code S.scope es ip Γ next →
    ∀ label, ∃ vs w' label', post vs w' ∧ vs.length = es.length ∧ Γ = S.scope ∧
      S.Leads w label ip operands w' label' next (operands ++ vs)

/-- An expression in tail position finishes with a value such that `post`. -/
def Ends (S : Site) (e : Expr) (w : World) (post : Value → World → Prop) : Prop :=
  ∀ ip Γ next,
    Layout S.ground.reading.options S.ground.reading.names S.act.code S.scope true e ip Γ next →
    S.act.code.Returns next → ∀ label, ∃ v w', post v w' ∧
      S.machine.Finishes S.below S.act.handler S.depth (S.showing w label ip []) v w'

/-- Statements in tail position finish with the value of the last one, such that `post`. -/
def EndsAll (S : Site) (es : List Expr) (w : World) (post : Value → World → Prop) : Prop :=
  ∀ ip Γ next, LayoutStatements S.ground.reading.options S.ground.reading.names S.act.code S.scope true es
      ip Γ next →
    S.act.code.Returns next → ∀ label, ∃ v w', post v w' ∧
      S.machine.Finishes S.below S.act.handler S.depth (S.showing w label ip []) v w'

/-- A name stands for a value: that of a variable around, or else that of a global variable. -/
def Denotes (S : Site) (x : String) (w : World) (v : Value) : Prop :=
  S.vars.lookup x = some v ∨ S.vars.lookup x = none ∧
    ∀ s, S.ground.reading.names.find? x = some s → w.globals.get? s = some v

/-- A call at the site that is not in tail position gives the value `v`. -/
def Calls (S : Site) (operands : List Value) (callee : Value) (args : List Value) (w : World)
    (v : Value) (w' : World) : Prop :=
  ∀ ip, S.machine.Calls (S.below ++ [S.active ip operands]) S.depth callee args w v w'

variable {S : Site} {operands vs : List Value} {v : Value} {w w' : World} {label label' ip next : Nat}
  {e : Expr} {es : List Expr} {post : Value → World → Prop} {posts : List Value → World → Prop}

theorem showing_append (w : World) (label ip : Nat) (operands vs : List Value) :
    S.showing w label ip (operands ++ vs) =
      (S.machine.later w label).showing (S.below ++ [S.active ip operands]) vs :=
  Machine.showing_operands rfl

theorem size_frames (w : World) (label ip : Nat) (operands : List Value) :
    (S.showing w label ip operands).thread.frames.size ≤ S.depth := by
  rw [showing, Machine.size_frames_showing, List.length_append]
  exact S.room

theorem leads_refl (w : World) (label ip : Nat) (operands : List Value) :
    S.Leads w label ip operands w label ip operands :=
  .rest (size_frames w label ip operands)

/-- An instruction leads to the next one. -/
theorem leads_of_at {op : Op} {operand line : Nat} {ops : List Value}
    (hat : S.act.code.At ip op operand line)
    (hexecute : Exec.execute { op := op.narrow, operand, start := ip, line }
      ((S.machine.later w label).showing (S.below ++ [S.active (ip + 1 + op.width) operands]) vs) =
        .ok none (S.showing w' label' next ops)) :
    S.Leads w label ip (operands ++ vs) w' label' next ops := by
  have hat' : (S.active ip operands).code.At (S.active ip operands).ip op operand line := hat
  refine .single ?_ (size_frames _ _ _ _) (size_frames _ _ _ _)
  rw [showing_append, (Machine.later_running S.running w label).advance_over hat']
  exact congrArg (Machine.conclude line) hexecute

/-- An instruction with an index leads to the next one. -/
theorem leads_of_indexed {op : Op} {index line : Nat} {ops : List Value} (hop : op.narrow = op)
    (hat : S.act.code.Indexed ip op index line next)
    (hexecute : Exec.execute { op, operand := index, start := ip, line }
      ((S.machine.later w label).showing (S.below ++ [S.active next operands]) vs) =
        .ok none (S.showing w' label' next ops)) :
    S.Leads w label ip (operands ++ vs) w' label' next ops := by
  have hat' : (S.active ip operands).code.Indexed (S.active ip operands).ip op index line next := hat
  refine .single ?_ (size_frames _ _ _ _) (size_frames _ _ _ _)
  rw [showing_append, (Machine.later_running S.running w label).advance_indexed_over hop hat']
  exact congrArg (Machine.conclude line) hexecute

/-- An instruction with an index puts a value on the stack. -/
theorem leads_of_push {op : Op} {index line : Nat} (hop : op.narrow = op)
    (hat : S.act.code.Indexed ip op index line next)
    (hexecute : Exec.execute { op, operand := index, start := ip, line }
      ((S.machine.later w label).showing (S.below ++ [S.active next operands]) []) =
        .ok none ((S.machine.later w' label).showing (S.below ++ [S.active next operands]) ([] ++ [v]))) :
    S.Leads w label ip operands w' label next (operands ++ [v]) := by
  have hleads : S.Leads w label ip (operands ++ []) w' label next (operands ++ [v]) := by
    refine leads_of_indexed hop hat ?_
    rw [hexecute, showing_append, List.nil_append]
  rwa [List.append_nil] at hleads

/-- A name puts the value that it stands for on the stack. -/
theorem leads_of_access {x : String} {s : Symbol} {line : Nat} (hdenotes : S.Denotes x w v)
    (hx : S.ground.reading.names.find? x = some s)
    (haccess : S.act.code.Access S.scope .loads s ip line next) :
    S.Leads w label ip operands w label next (operands ++ [v]) := by
  obtain hv | ⟨hnone, hglobal⟩ := hdenotes
  · obtain ⟨n, hlookup, hslot⟩ | ⟨hlookup, hcaptured⟩ := S.sees.visible x s v hx hv
    · cases haccess with
      | @slot n' _ hlookup' _ hat =>
        obtain rfl : n' = n := Variable.slot.inj (hlookup'.symm.trans hlookup)
        exact leads_of_push rfl hat (Exec.execute_loadLocal _ _ (S.active next operands) _ _ _ hslot)
      | captured hlookup' | global hlookup' => exact absurd (hlookup'.symm.trans hlookup) nofun
    · cases haccess with
      | captured _ hcaptures hsymbol hat =>
        obtain ⟨t, hconstant, hsame⟩ := hsymbol
        have hget : Env.get? S.act.env t = some v :=
          (Env.get?_congr hsame S.act.env).trans (hcaptured hcaptures)
        exact leads_of_push rfl hat
          (Exec.execute_loadCaptured _ _ (S.active next operands) _ _ _ hconstant hget)
      | slot hlookup' | global hlookup' => exact absurd (hlookup'.symm.trans hlookup) nofun
  · have hlookup := S.sees.hidden x s hx hnone
    cases haccess with
    | global _ hsymbol hat =>
      obtain ⟨t, hconstant, hsame⟩ := hsymbol
      have hget : (S.machine.later w label).world.globals.get? t = some v :=
        (Globals.get?_congr hsame w.globals).trans (hglobal s hx)
      have hload := Exec.execute_loadGlobal (S.machine.later w label) S.below (S.active next operands)
        [] ip line hconstant
      rw [hget] at hload
      exact leads_of_push rfl hat hload
    | slot hlookup' | captured hlookup' => exact absurd (hlookup'.symm.trans hlookup) nofun

/-- An instruction that calls the value on top of the stack. -/
theorem advance_call {tail : Bool} {f : Value} {args : List Value} {line : Nat} {m₁ : Machine}
    (hat : S.act.code.At ip (if tail then .tailCall else .call) args.length line)
    (hcall : Exec.call f args line tail ((S.machine.later w label).showing
      (S.below ++ [S.active (ip + 2) operands]) []) = .ok () m₁) :
    (S.showing w label ip (operands ++ (args ++ [f]))).advance = .more m₁ := by
  have htop : Exec.callTop args.length line tail ((S.machine.later w label).showing
      (S.below ++ [S.active (ip + 2) operands]) ([] ++ (args ++ [f]))) = .ok () m₁ := by
    rw [Exec.callTop_showing _ _ _ _ rfl, hcall]
  have hat' : (S.active ip operands).code.At (S.active ip operands).ip
    (if tail then .tailCall else .call) args.length line := hat
  rw [showing_append, (Machine.later_running S.running w label).advance_over hat']
  cases tail with
  | false => exact congrArg (Machine.conclude line) (bind_of_ok htop)
  | true => exact congrArg (Machine.conclude line) (bind_of_ok htop)

/-! The rules. -/

theorem Yields.mono {post' : Value → World → Prop} (h : S.Yields operands e w post)
    (himp : ∀ v w', post v w' → post' v w') : S.Yields operands e w post' := by
  intro ip Γ next hlayout label
  obtain ⟨v, w', label', hpost, hrest⟩ := h ip Γ next hlayout label
  exact ⟨v, w', label', himp v w' hpost, hrest⟩

theorem yields_literal (hliteral : e.literal? = some v) (hpost : post v w) :
    S.Yields operands e w post := by
  intro ip Γ next hlayout label
  cases hlayout with
  | literal hliteral' hconstant hat =>
    obtain rfl := Option.some.inj (hliteral.symm.trans hliteral')
    refine ⟨v, w, label, hpost, rfl, leads_of_push rfl hat ?_⟩
    exact Exec.execute_constant _ _ (S.active next operands) _ _ _ hconstant
  | _ => cases hliteral

theorem yields_name {x : String} {line : Nat} (hdenotes : S.Denotes x w v) (hpost : post v w) :
    S.Yields operands (.name line x) w post := by
  intro ip Γ next hlayout label
  obtain ⟨rfl, s, hx, haccess⟩ := hlayout.name_inv
  exact ⟨v, w, label, hpost, rfl, leads_of_access hdenotes hx haccess⟩

/-- Where the code of an expression in tail position is that of the expression elsewhere. -/
theorem Yields.ends (h : S.Yields [] e w post)
    (hsame : ∀ {o names code Γ ip Γ' next},
      Layout o names code Γ true e ip Γ' next → Layout o names code Γ false e ip Γ' next) :
    S.Ends e w post := by
  intro ip Γ next hlayout hreturns label
  obtain ⟨v, w', label', hpost, _, hleads⟩ := h ip Γ next (hsame hlayout) label
  refine ⟨v, w', hpost, S.active next [], label', rfl, hreturns, ?_⟩
  rw [← showing_append, List.nil_append]
  exact hleads

theorem ends_name {x : String} {line : Nat} (hdenotes : S.Denotes x w v) (hpost : post v w) :
    S.Ends (.name line x) w post := by
  refine (yields_name hdenotes hpost).ends fun hlayout => ?_
  obtain ⟨rfl, s, hx, haccess⟩ := hlayout.name_inv
  exact .name hx haccess

theorem yieldsAll_nil (hpost : posts [] w) : S.YieldsAll operands [] w posts := by
  intro ip Γ next hlayout label
  cases hlayout
  refine ⟨[], w, label, hpost, rfl, rfl, ?_⟩
  rw [List.append_nil]
  exact leads_refl w label ip operands

theorem yieldsAll_cons (h : S.Yields operands e w fun v w₁ =>
      S.YieldsAll (operands ++ [v]) es w₁ fun vs w₂ => posts (v :: vs) w₂) :
    S.YieldsAll operands (e :: es) w posts := by
  intro ip Γ next hlayout label
  cases hlayout with
  | cons hfirst hrest =>
    obtain ⟨v, w₁, label₁, hyields, rfl, hleads⟩ := h ip _ _ hfirst label
    obtain ⟨vs, w₂, label₂, hpost, hlength, hscope, hleads'⟩ := hyields _ _ _ hrest label₁
    refine ⟨v :: vs, w₂, label₂, hpost, by rw [List.length_cons, List.length_cons, hlength], hscope, ?_⟩
    rw [List.append_assoc, List.singleton_append] at hleads'
    exact hleads.trans hleads'

/-- A list of the values of its items. -/
theorem yields_list {line : Nat}
    (h : S.YieldsAll operands es w fun vs w₁ => post (.list vs) w₁) :
    S.Yields operands (.list line es) w post := by
  intro ip Γ next hlayout label
  cases hlayout with
  | literal hliteral => cases hliteral
  | list hitems hat =>
    obtain ⟨vs, w₁, label₁, hpost, hlength, hscope, hleads⟩ := h _ _ _ hitems label
    refine ⟨.list vs, w₁, label₁, hpost, hscope, hleads.trans (leads_of_at hat ?_)⟩
    rw [showing_append]
    exact Exec.execute_buildList _ _ [] _ _ hlength

/-- A call that is not in tail position: the arguments are evaluated before the function. -/
theorem yields_call {line : Nat} {callee : Expr}
    (h : S.YieldsAll operands es w fun args w₁ => S.Yields (operands ++ args) callee w₁ fun f w₂ =>
      ∃ v w', post v w' ∧ S.Calls operands f args w₂ v w') :
    S.Yields operands (.call line callee es) w post := by
  intro ip Γ next hlayout label
  cases hlayout with
  | literal hliteral => cases hliteral
  | @call _ _ _ _ _ _ _ _ c _ _ hargs hcallee hat =>
    obtain ⟨args, w₁, label₁, hyields, hlength, rfl, hleads⟩ := h _ _ _ hargs label
    obtain ⟨f, w₂, label₂, ⟨v, w', hpost, hcalls⟩, hscope, hleads'⟩ := hyields _ _ _ hcallee label₁
    obtain ⟨m₁, label', hcall, hwithin⟩ := hcalls (c + 2) label₂ (S.ground.reading.options.shown line)
    rw [← hlength] at hat
    rw [List.append_assoc] at hleads'
    refine ⟨v, w', label', hpost, hscope, (hleads.trans hleads').trans ?_⟩
    refine .move (size_frames _ _ _ _) (advance_call hat hcall) ?_
    rwa [showing_append]

/-- A call in tail position. -/
theorem ends_call {line : Nat} {callee : Expr}
    (h : S.YieldsAll [] es w fun args w₁ => S.Yields args callee w₁ fun f w₂ =>
      ∃ v w', post v w' ∧ S.machine.TailCalls S.below S.act.handler S.depth f args w₂ v w') :
    S.Ends (.call line callee es) w post := by
  intro ip Γ next hlayout hreturns label
  cases hlayout with
  | literal hliteral => cases hliteral
  | @call _ _ _ _ _ _ _ _ c _ _ hargs hcallee hat =>
    obtain ⟨args, w₁, label₁, hyields, hlength, rfl, hleads⟩ := h _ _ _ hargs label
    obtain ⟨f, w₂, label₂, ⟨v, w', hpost, hcalls⟩, _, hleads'⟩ := hyields _ _ _ hcallee label₁
    obtain ⟨m₁, hcall, hfinishes⟩ := hcalls label₂ (S.ground.reading.options.shown line)
      (S.active (c + 2) []) rfl hreturns
    rw [← hlength] at hat
    rw [List.nil_append] at hleads
    have hmove : (S.showing w₂ label₂ c (args ++ [f])).advance = .more m₁ := advance_call hat hcall
    obtain ⟨b, label', hbound, hreturns', hwithin⟩ := hfinishes
    have hlater : S.machine.Finishes S.below S.act.handler S.depth
        (S.showing w₂ label₂ c (args ++ [f])) v w' :=
      ⟨b, label', hbound, hreturns', .move (size_frames _ _ _ _) hmove hwithin⟩
    exact ⟨v, w', hpost, hlater.of_leadsWithin (hleads.trans hleads')⟩

/-- A choice in tail position, whose first branch declares nothing. -/
theorem ends_cond {line : Nat} {test whenTrue whenFalse : Expr} (hdeclares : whenTrue.declares = [])
    (h : S.Yields [] test w fun v w₁ =>
      if v.isTruthy then S.Ends whenTrue w₁ post else S.Ends whenFalse w₁ post) :
    S.Ends (.cond line test whenTrue (some whenFalse)) w post := by
  intro ip Γ next hlayout hreturns label
  cases hlayout with
  | literal hliteral => cases hliteral
  | @condElse _ _ _ Γ₂ _ _ _ _ b c _ m n _ _ _ htest hatElse hm htrue hatEnd hn hfalse =>
    obtain ⟨v, w₁, label₁, hbranch, rfl, hleads⟩ := h _ _ _ htest label
    have hscope : Γ₂ = S.scope := by
      have heq := (htrue.passes (G := S.ground)).eq
      rwa [hdeclares, List.map_nil, Lexical.passed_nil] at heq
    have hjump : S.Leads w₁ label₁ b ([] ++ [v]) w₁ label₁ (if v.isTruthy then b + 3 else c + 3) [] := by
      refine leads_of_at hatElse ?_
      refine (Exec.execute_jumpIfFalse _ _ (S.active (b + 3) []) [] _ _ _ v).trans ?_
      rw [hm]
      cases v.isTruthy <;> rfl
    cases hv : v.isTruthy with
    | true =>
      rw [hv] at hbranch hjump
      have hend : S.act.code.Returns c := .jump hatEnd (hn ▸ hreturns)
      obtain ⟨u, w', hpost, hfinishes⟩ := hbranch _ _ _ htrue hend label₁
      exact ⟨u, w', hpost, hfinishes.of_leadsWithin (hleads.trans hjump)⟩
    | false =>
      rw [hv] at hbranch hjump
      rw [hscope] at hfalse
      obtain ⟨u, w', hpost, hfinishes⟩ := hbranch _ _ _ hfalse hreturns label₁
      exact ⟨u, w', hpost, hfinishes.of_leadsWithin (hleads.trans hjump)⟩

/-- A function that is made. -/
theorem yields_lambda {line : Nat} {name : Option String} {params : List String} {body : Expr}
    (h : ∀ f env, S.scope.Encloses S.ground S.vars name params body f env →
      post (.closure w.draw.1 f env) w.draw.2) :
    S.Yields operands (.lambda line name params body) w post := by
  intro ip Γ next hlayout label
  cases hlayout with
  | literal hliteral => cases hliteral
  | @lambda _ f _ _ _ _ _ _ _ _ _ _ hfunction hconstant hat =>
    obtain ⟨env, hbound, -⟩ : ∃ env, S.act.bindAll [] f.captures = some env ∧ _ := by
      refine Activation.bindAll_eq_some [] fun c hc => S.sees.supplies ?_
      cases hfunction with
      | intro hheader _ _ _ => exact hheader.captures c hc
    refine ⟨_, _, label, h f env (S.sees.encloses hfunction hbound), rfl, leads_of_push rfl hat ?_⟩
    have hbound' : (S.active next operands).bindAll [] f.captures = some env := by
      rw [← hbound]
      exact S.act.bindAll_moved next operands [] f.captures
    exact Exec.execute_lambda _ _ (S.active next operands) _ _ _ hconstant hbound'

/-- The declaration of a global variable. -/
theorem yields_declare {line : Nat} {x : String} {value : Expr} (hglobal : S.scope.isGlobal = true)
    (h : S.Yields operands value w fun v w₁ => ∀ s, S.ground.reading.names.find? x = some s →
      post .none { w₁ with globals := w₁.globals.set s v }) :
    S.Yields operands (.declare line x value) w post := by
  intro ip Γ next hlayout label
  cases hlayout with
  | literal hliteral => cases hliteral
  | @declareGlobal _ _ _ _ _ _ b c i _ s _ hvalue _ hname hsymbol hat hnone =>
    obtain ⟨v, w₁, label₁, hpost, hscope, hleads⟩ := h _ _ _ hvalue label
    obtain ⟨t, hconstant, hsame⟩ := hsymbol
    have hset : w₁.globals.set t v = w₁.globals.set s v := by
      rw [Globals.set, Globals.set, Symbol.beq_iff.1 hsame]
    have hstore : S.Leads w₁ label₁ b (operands ++ [v]) { w₁ with globals := w₁.globals.set t v } label₁
        c operands := by
      refine leads_of_indexed rfl hat ?_
      exact Exec.execute_storeGlobal _ _ (S.active c operands) [] _ _ v hconstant
    refine ⟨.none, _, label₁, hpost s hname, hscope, (hleads.trans hstore).trans ?_⟩
    rw [hset]
    have hpush : S.Leads { w₁ with globals := w₁.globals.set s v } label₁ c (operands ++ [])
        { w₁ with globals := w₁.globals.set s v } label₁ (c + 1) (operands ++ [.none]) := by
      refine leads_of_at hnone ?_
      rw [showing_append]
      exact Exec.execute_pushNone _ _ [] _ _ _
    rwa [List.append_nil] at hpush
  | declareLocal hvalue hlocal =>
    obtain ⟨_, _, _, _, rfl, _⟩ := h _ _ _ hvalue label
    rw [hglobal] at hlocal
    cases hlocal

theorem ends_declare {line : Nat} {x : String} {value : Expr}
    (h : S.Yields [] (.declare line x value) w post) : S.Ends (.declare line x value) w post := by
  refine h.ends fun hlayout => ?_
  cases hlayout with
  | literal hliteral => cases hliteral
  | declareGlobal hvalue hglobal hname hsymbol hat hnone =>
    exact .declareGlobal hvalue hglobal hname hsymbol hat hnone
  | declareLocal hvalue hlocal hname hroom hat hnone =>
    exact .declareLocal hvalue hlocal hname hroom hat hnone

theorem EndsAll.mono {post' : Value → World → Prop} (h : S.EndsAll es w post)
    (himp : ∀ v w', post v w' → post' v w') : S.EndsAll es w post' := by
  intro ip Γ next hlayout hreturns label
  obtain ⟨v, w', hpost, hfinishes⟩ := h ip Γ next hlayout hreturns label
  exact ⟨v, w', himp v w' hpost, hfinishes⟩

theorem endsAll_last (h : S.Ends e w post) : S.EndsAll [e] w post := by
  intro ip Γ next hlayout
  cases hlayout with
  | last hlast => exact h ip Γ next hlast
  | cons _ _ hrest => cases hrest

theorem endsAll_cons (hne : es ≠ []) (h : S.Yields [] e w fun _ w₁ => S.EndsAll es w₁ post) :
    S.EndsAll (e :: es) w post := by
  intro ip Γ next hlayout hreturns label
  cases hlayout with
  | last => exact absurd rfl hne
  | @cons _ _ _ _ _ _ b _ _ _ hfirst hat hrest =>
    obtain ⟨u, w₁, label₁, hends, rfl, hleads⟩ := h _ _ _ hfirst label
    obtain ⟨v, w', hpost, hfinishes⟩ := hends _ _ _ hrest hreturns label₁
    have hpop : S.Leads w₁ label₁ b ([] ++ [u]) w₁ label₁ (b + 1) [] :=
      leads_of_at hat (Exec.execute_pop _ _ [] _ _ _ u)
    exact ⟨v, w', hpost, hfinishes.of_leadsWithin (hleads.trans hpop)⟩

end Site

namespace Spot

variable {P : Spot} {G : Ground} {Γ : Lexical} {ρ : List (String × Value)} {name : Option String}
  {params : List String} {body : Expr} {f : Code Value} {env : Env Value} {args : List Value}
  {bound : Option (List (Effect × Value) × Nat)} {id : Nat} {w w' : World} {v : Value}

/-- A function that is entered finishes with the value `v`. -/
def Computes (P : Spot) (bound : Option (List (Effect × Value) × Nat)) (id : Nat) (f : Code Value)
    (env : Env Value) (args : List Value) (w : World) (v : Value) (w' : World) : Prop :=
  ∀ label, P.machine.Finishes P.below bound P.depth ((P.machine.later w label).showing
    (P.below ++ [.enter (.closure id f env) f env args bound]) []) v w'

/-- The body of a function that is entered. -/
def enter (P : Spot) (h : Γ.Encloses G ρ name params body f env) (hlength : args.length = params.length)
    (id : Nat) (bound : Option (List (Effect × Value) × Nat)) : Site where
  toSpot := P
  ground := G
  scope := Γ.bodyOf f
  act := .enter (.closure id f env) f env args bound
  vars := Lexical.own name params (.closure id f env) ++ ((params.zip args).reverse ++ ρ)
  sees := h.enter hlength

/-- A function computes what its body comes to. -/
theorem computes (h : Γ.Encloses G ρ name params body f env) (hlength : args.length = params.length)
    (hbody : (P.enter h hlength id bound).Ends body w fun u w₁ => u = v ∧ w₁ = w') :
    P.Computes bound id f env args w v w' := by
  intro label
  obtain ⟨_, _, hfunction⟩ := h.laid
  cases hfunction with
  | intro _ hlayout hret _ =>
    obtain ⟨_, _, ⟨rfl, rfl⟩, hfinishes⟩ := hbody _ _ _ hlayout (.ret hret) label
    exact hfinishes

theorem Computes.calls (h : P.Computes none id f env args w v w') (hlength : args.length = f.arity)
    (hbase : Exec.baseOf P.machine.thread.levels < P.below.length)
    (hframes : P.below.length < P.machine.thread.limits.maxDepth)
    (hvalues : heightOf P.below < P.machine.thread.limits.maxStack) :
    P.machine.Calls P.below P.depth (.closure id f env) args w v w' :=
  Machine.calls_closure P.running hbase hlength hframes hvalues h

theorem Computes.tailCalls (h : P.Computes bound id f env args w v w') (hlength : args.length = f.arity) :
    P.machine.TailCalls P.below bound P.depth (.closure id f env) args w v w' :=
  Machine.tailCalls_closure hlength h

end Spot

end Resumable
