import Resumable.Proofs.Bytecode.Untailed
import Resumable.Proofs.Machine.Likeness

/-!
Threads that keep the activations which tail calls would have replaced. Such an activation is idle: all
that it will ever do is to return the value that it is given. An activation of one thread is spread over
some activations of the other, of which the last mirrors it and the others are idle.
-/

namespace Resumable

/-- The same code, or the code with plain calls in the place of its tail calls. -/
def Code.Untails (code code' : Code Value) : Prop :=
  code' = code ∨ code' = code.untailed

namespace Code.Untails

variable {code code' : Code Value}

theorem name_eq (h : code.Untails code') : code'.name = code.name := by
  obtain rfl | rfl := h
  · rfl
  · exact code.name_untailed

theorem params_eq (h : code.Untails code') : code'.params = code.params := by
  obtain rfl | rfl := h
  · rfl
  · exact code.params_untailed

theorem selfName_eq (h : code.Untails code') : code'.selfName = code.selfName := by
  obtain rfl | rfl := h
  · rfl
  · exact code.selfName_untailed

theorem localCount_eq (h : code.Untails code') : code'.localCount = code.localCount := by
  obtain rfl | rfl := h
  · rfl
  · exact code.localCount_untailed

theorem captures_eq (h : code.Untails code') : code'.captures = code.captures := by
  obtain rfl | rfl := h
  · rfl
  · exact code.captures_untailed

/-- An instruction stands where it stood. -/
theorem at' {offset operand line : Nat} {op : Op} (h : code.Untails code')
    (hat : code.At offset op operand line) (hstarts : code.Starts 0 offset) :
    code'.At offset op operand line ∨ op = .tailCall ∧ code'.At offset .call operand line := by
  obtain rfl | rfl := h
  · exact Or.inl hat
  · have huntailed := hat.untailed hstarts
    by_cases hop : op = .tailCall
    · subst hop
      exact Or.inr ⟨rfl, huntailed⟩
    · rw [Op.untailed_of_ne hop] at huntailed
      exact Or.inl huntailed

/-- A constant that is no code stays as it is. -/
theorem constant {i : Nat} {v : Value} (h : code.Untails code') (hv : v.isFlat = true)
    (hconstant : code.constants[i]? = some v) : code'.constants[i]? = some v := by
  obtain rfl | rfl := h
  · exact hconstant
  · rw [Code.constants_untailed, hconstant]
    cases v <;> first | rfl | cases hv

theorem nested {i id : Nat} {f : Code Value} (h : code.Untails code')
    (hconstant : code.constants[i]? = some (.code id f)) :
    ∃ f', code'.constants[i]? = some (.code id f') ∧ f.Untails f' := by
  obtain rfl | rfl := h
  · exact ⟨f, hconstant, Or.inl rfl⟩
  · refine ⟨f.untailed, ?_, Or.inr rfl⟩
    rw [Code.constants_untailed, hconstant]
    rfl

end Code.Untails

namespace Activation

/-- All that is left to do is to return. -/
def Idle (a : Activation) : Prop :=
  a.code.Returns a.ip

/-- An activation that is about to do the same as another one, handlers apart. -/
structure Mirrors (R : Value → Value → Prop) (a a' : Activation) : Prop where
  code : a.code.Untails a'.code
  env : Env.Related R a.env a'.env
  locals : List.Forall₂ R a.locals.toList a'.locals.toList
  ip : a'.ip = a.ip
  operands : List.Forall₂ R a.operands a'.operands

theorem Mirrors.pushAll {R : Value → Value → Prop} {a a' : Activation} {vs vs' : List Value}
    (h : a.Mirrors R a') (hvs : List.Forall₂ R vs vs') :
    (a.pushAll vs).Mirrors R (a'.pushAll vs') :=
  ⟨h.code, h.env, h.locals, h.ip, List.rel_append h.operands hvs⟩

end Activation

/-- The handlers of activations, with their labels. -/
def boundsOf (acts : List Activation) : List (List (Effect × Value) × Nat) :=
  acts.flatMap fun a => a.handler.toList

/-- Handlers with the same labels and related clauses. -/
def BoundsRelated (R : Value → Value → Prop) :
    List (List (Effect × Value) × Nat) → List (List (Effect × Value) × Nat) → Prop :=
  List.Forall₂ fun bound bound' => ClausesRelated Eq R bound.1 bound'.1 ∧ bound'.2 = bound.2

/-- An activation is spread over some activations: the last one mirrors it, and those below are idle;
or it is idle itself, as are all of them. One of them has its handler, if it has one. -/
structure Activation.Spreads (R : Value → Value → Prop) (a : Activation) (ys : List Activation) :
    Prop where
  acts : ∃ init last, ys = init ++ [last] ∧ (∀ y ∈ init, y.Idle) ∧
    (a.Mirrors R last ∨ a.Idle ∧ a.operands = [] ∧ last.Idle)
  bounds : BoundsRelated R (boundsOf [a]) (boundsOf ys)

/-- Every activation is spread over some of the others, in order. -/
def Spread (R : Value → Value → Prop) (acts acts' : List Activation) : Prop :=
  ∃ blocks, acts' = blocks.flatten ∧ List.Forall₂ (Activation.Spreads R) acts blocks

/-- Idle activations without handlers. -/
def Spare (acts : List Activation) : Prop :=
  ∀ a ∈ acts, a.Idle ∧ a.handler = none

/-- Suspended computations that are spread over each other, from the handler of the first on. The
activation that waits for the value may have spare ones on top. -/
def Continuation.Spreads (R : Value → Value → Prop) (k k' : Continuation Value) : Prop :=
  ∃ b above ys above' spare, k = .ofActs (b :: above) ∧ k' = .ofActs (ys ++ above' ++ spare) ∧
    b.handler.isSome = true ∧ (∃ y ∈ ys.head?, y.handler.isSome = true) ∧ b.Spreads R ys ∧
    Spread R above above' ∧ Spare spare

namespace Value

/-- What values hold that do not show it. There are no functions of an embedding. -/
def InnerUntails (R : Value → Value → Prop) : Value → Value → Prop
  | closure _ f env, closure _ f' env' => f.Untails f' ∧ Env.Related R env env'
  | native _ _ _ function, _ => ∀ h, function ≠ .hook h
  | continuation _ k, continuation _ k' => k.Spreads R k'
  | handler _ clauses, handler _ clauses' => ClausesRelated Eq R clauses clauses'
  | code _ f, code _ f' => f.Untails f'
  | _, _ => True

/-- Values that are the same up to tail calls, if those that they hold are related by `R`. -/
structure UntailsWith (R : Value → Value → Prop) (v v' : Value) : Prop where
  alike : v.Alike Eq R v'
  inner : v.InnerUntails R v'

/-- Values that are the same, to any depth, up to tail calls in functions that are written as plain
calls, and up to the idle activations in suspended computations that come from that. -/
def Untails (v v' : Value) : Prop :=
  ∃ R : Value → Value → Prop, (∀ {u u'}, R u u' → UntailsWith R u u') ∧ R v v'

end Value

section Mono

variable {R R' : Value → Value → Prop} (hle : ∀ {v v'}, R v v' → R' v v')

include hle

theorem BoundsRelated.mono {bounds bounds' : List (List (Effect × Value) × Nat)}
    (h : BoundsRelated R bounds bounds') : BoundsRelated R' bounds bounds' :=
  List.Forall₂.imp (fun _ _ hb => ⟨hb.1.mono hle, hb.2⟩) h

theorem Activation.Mirrors.mono {a a' : Activation} (h : a.Mirrors R a') : a.Mirrors R' a' :=
  ⟨h.code, h.env.mono hle, h.locals.imp fun _ _ => hle, h.ip, h.operands.imp fun _ _ => hle⟩

theorem Activation.Spreads.mono {a : Activation} {ys : List Activation} (h : a.Spreads R ys) :
    a.Spreads R' ys := by
  obtain ⟨init, last, hys, hinit, hlast⟩ := h.acts
  exact ⟨⟨init, last, hys, hinit, hlast.imp_left fun hmirrors => hmirrors.mono hle⟩,
    h.bounds.mono hle⟩

theorem Spread.mono {acts acts' : List Activation} (h : Spread R acts acts') :
    Spread R' acts acts' := by
  obtain ⟨blocks, hacts, hblocks⟩ := h
  exact ⟨blocks, hacts, hblocks.imp fun _ _ hspreads => hspreads.mono hle⟩

theorem Value.InnerUntails.mono {v v' : Value} (h : v.InnerUntails R v') : v.InnerUntails R' v' := by
  unfold InnerUntails at h ⊢
  split
  next => exact ⟨h.1, h.2.mono hle⟩
  next => exact h
  next =>
    obtain ⟨b, above, ys, above', spare, hk, hk', hb, hy, hfirst, hrest, hspare⟩ := h
    exact ⟨b, above, ys, above', spare, hk, hk', hb, hy, hfirst.mono hle, hrest.mono hle, hspare⟩
  next => exact h.mono hle
  next => exact h
  next => trivial

theorem Value.UntailsWith.mono {v v' : Value} (h : v.UntailsWith R v') : v.UntailsWith R' v' :=
  ⟨h.alike.mono hle, h.inner.mono hle⟩

end Mono

namespace Value

theorem Untails.unfold {v v' : Value} (h : v.Untails v') : v.UntailsWith Untails v' := by
  obtain ⟨R, hclosed, hrel⟩ := h
  exact (hclosed hrel).mono fun hu => ⟨R, hclosed, hu⟩

theorem Untails.fold {v v' : Value} (h : v.UntailsWith Untails v') : v.Untails v' :=
  ⟨UntailsWith Untails, fun hu => hu.mono Untails.unfold, h⟩

theorem innerUntails_of_isData {R : Value → Value → Prop} {v v' : Value} (hdata : v.isData = true) :
    v.InnerUntails R v' := by
  cases v <;> trivial

end Value

/-- Values that are the same up to tail calls look the same. -/
def untailing : Likeness where
  toCorrespondence := .exact
  rel := Value.Untails
  view := fun h => h.unfold.alike
  data := fun hdata _ h => .fold ⟨h, Value.innerUntails_of_isData hdata⟩
  applied := fun hid hcallee hbound => .fold ⟨.applied hid hcallee hbound, trivial⟩

/-- Names of fields are the same up to tail calls only as themselves. -/
theorem Value.untails_symbol (s : Symbol) : (Value.symbol s).Untails (.symbol s) :=
  .fold ⟨.flat rfl, trivial⟩

theorem boundsOf_cons (a : Activation) (acts : List Activation) :
    boundsOf (a :: acts) = a.handler.toList ++ boundsOf acts :=
  List.flatMap_cons

theorem boundsOf_append (acts acts' : List Activation) :
    boundsOf (acts ++ acts') = boundsOf acts ++ boundsOf acts' :=
  List.flatMap_append

theorem Spare.boundsOf_eq {acts : List Activation} (hspare : Spare acts) : boundsOf acts = [] := by
  rw [boundsOf, List.flatMap_eq_nil_iff]
  intro a ha
  rw [(hspare a ha).2]
  rfl

theorem Spare.nil : Spare [] :=
  nofun

theorem spare_of_boundsOf {acts : List Activation} (hidle : ∀ y ∈ acts, y.Idle)
    (hbounds : boundsOf acts = []) : Spare acts := by
  intro y hy
  refine ⟨hidle y hy, ?_⟩
  rw [boundsOf, List.flatMap_eq_nil_iff] at hbounds
  simpa using hbounds y hy

/-- The handlers of a thread are those of its activations. -/
theorem bounds_handlersFrom (depth height : Nat) (acts : List Activation) :
    (handlersFrom depth height acts).map (fun h => (h.clauses, h.label)) = boundsOf acts := by
  induction acts generalizing depth height with
  | nil => rfl
  | cons a acts ih =>
    rw [handlersFrom_cons, List.map_append, ih, boundsOf_cons]
    congr 1
    unfold Activation.installed
    cases a.handler <;> rfl

theorem length_handlersFrom (depth height : Nat) (acts : List Activation) :
    (handlersFrom depth height acts).length = (boundsOf acts).length := by
  rw [← bounds_handlersFrom depth height acts, List.length_map]

variable {R : Value → Value → Prop} {a b : Activation} {acts acts' more more' ys : List Activation}

theorem Spread.nil : Spread R [] [] :=
  ⟨[], rfl, .nil⟩

theorem Spread.append (h : Spread R acts acts') (h' : Spread R more more') :
    Spread R (acts ++ more) (acts' ++ more') := by
  obtain ⟨blocks, rfl, hblocks⟩ := h
  obtain ⟨blocks', rfl, hblocks'⟩ := h'
  exact ⟨blocks ++ blocks', List.flatten_append.symm, List.rel_append hblocks hblocks'⟩

theorem Spread.single (h : a.Spreads R ys) : Spread R [a] ys :=
  ⟨[ys], by simp, .cons h .nil⟩

theorem Spread.concat (h : Spread R acts acts') (ha : a.Spreads R ys) :
    Spread R (acts ++ [a]) (acts' ++ ys) :=
  h.append (.single ha)

theorem Spread.split (h : Spread R (acts ++ more) acts') :
    ∃ left right, acts' = left ++ right ∧ Spread R acts left ∧ Spread R more right := by
  obtain ⟨blocks, rfl, hblocks⟩ := h
  obtain ⟨left, right, hleft, hright, rfl⟩ := forall₂_split hblocks
  exact ⟨left.flatten, right.flatten, List.flatten_append, ⟨left, rfl, hleft⟩, right, rfl, hright⟩

theorem Spread.cons_inv (h : Spread R (a :: acts) acts') :
    ∃ ys rest, acts' = ys ++ rest ∧ a.Spreads R ys ∧ Spread R acts rest := by
  obtain ⟨blocks, rfl, hblocks⟩ := h
  obtain ⟨ys, blocks, hfirst, hrest, rfl⟩ := List.forall₂_cons_left_iff.1 hblocks
  exact ⟨ys, blocks.flatten, List.flatten_cons, hfirst, blocks, rfl, hrest⟩

theorem Spread.bounds (h : Spread R acts acts') : BoundsRelated R (boundsOf acts) (boundsOf acts') := by
  obtain ⟨blocks, rfl, hblocks⟩ := h
  induction hblocks with
  | nil => exact .nil
  | @cons a ys acts blocks hfirst _ ih =>
    rw [← List.singleton_append, boundsOf_append, List.flatten_cons, boundsOf_append]
    exact List.rel_append hfirst.bounds ih

/-- The marks of activations are those of their handlers. -/
theorem boundsOf_le_heightOf (acts : List Activation) : (boundsOf acts).length ≤ heightOf acts := by
  induction acts with
  | nil => exact Nat.le_refl _
  | cons a acts ih =>
    rw [← List.singleton_append, boundsOf_append, heightOf_append, List.length_append]
    refine Nat.add_le_add ?_ ih
    cases hhandler : a.handler <;> simp [boundsOf, Activation.segment, Activation.mark, hhandler]

/-- An activation has no more frames and no more operands than those that it is spread over. -/
theorem Activation.Spreads.size_le (h : a.Spreads R ys) :
    1 ≤ ys.length ∧ heightOf [a] ≤ heightOf ys := by
  obtain ⟨⟨init, last, rfl, _, hlast⟩, hbounds⟩ := h
  have hmarks := hbounds.length_eq
  have hhere : heightOf [a] = (boundsOf [a]).length + a.operands.length := by
    cases hhandler : a.handler <;>
      simp [boundsOf, Activation.segment, Activation.mark, hhandler, Nat.add_comm]
  have hthere : heightOf [last] = (boundsOf [last]).length + last.operands.length := by
    cases hhandler : last.handler <;>
      simp [boundsOf, Activation.segment, Activation.mark, hhandler, Nat.add_comm]
  have hinit := boundsOf_le_heightOf init
  have hoperands : a.operands.length ≤ last.operands.length := by
    obtain hmirrors | ⟨_, hnone, _⟩ := hlast
    · exact Nat.le_of_eq hmirrors.operands.length_eq
    · simp [hnone]
  rw [boundsOf_append, List.length_append] at hmarks
  rw [heightOf_append, List.length_append, hhere, hthere]
  simp only [List.length_singleton]
  omega

theorem Spread.size_le (h : Spread R acts acts') :
    acts.length ≤ acts'.length ∧ heightOf acts ≤ heightOf acts' := by
  obtain ⟨blocks, rfl, hblocks⟩ := h
  induction hblocks with
  | nil => exact ⟨Nat.le_refl _, Nat.le_refl _⟩
  | @cons a ys acts blocks hfirst _ ih =>
    obtain ⟨hone, hheight⟩ := hfirst.size_le
    rw [← List.singleton_append, List.flatten_cons, heightOf_append, heightOf_append,
      List.length_append, List.length_append, List.length_singleton]
    omega

theorem Spread.ne_nil (h : Spread R acts acts') (hne : acts ≠ []) : acts' ≠ [] := by
  have hlength := h.size_le.1
  rw [← List.length_pos_iff] at hne ⊢
  omega

/-- Idle activations without handlers may lie below those that an activation is spread over. -/
theorem Activation.Spreads.above (h : a.Spreads R ys) {spare : List Activation} (hspare : Spare spare) :
    a.Spreads R (spare ++ ys) := by
  obtain ⟨⟨init, last, rfl, hinit, hlast⟩, hbounds⟩ := h
  refine ⟨⟨spare ++ init, last, by simp, ?_, hlast⟩, ?_⟩
  · intro y hy
    obtain hy | hy := List.mem_append.1 hy
    · exact (hspare y hy).1
    · exact hinit y hy
  · rw [boundsOf_append, hspare.boundsOf_eq]
    exact hbounds

theorem exists_first_bound (hbounds : boundsOf ys ≠ []) :
    ∃ plain c rest, ys = plain ++ c :: rest ∧ (∀ y ∈ plain, y.handler = none) ∧
      c.handler.isSome = true := by
  induction ys with
  | nil => exact absurd rfl hbounds
  | cons y ys ih =>
    cases hhandler : y.handler with
    | some bound => exact ⟨[], y, ys, rfl, nofun, by rw [hhandler]; rfl⟩
    | none =>
      have hrest : boundsOf ys ≠ [] := by simpa [boundsOf, hhandler] using hbounds
      obtain ⟨plain, c, rest, rfl, hplain, hc⟩ := ih hrest
      exact ⟨y :: plain, c, rest, rfl, List.forall_mem_cons.2 ⟨hhandler, hplain⟩, hc⟩

/-- Of the activations over which a boundary is spread, those below the one with the handler are
spare. -/
theorem Activation.Spreads.bound (h : b.Spreads R ys) {clauses : List (Effect × Value)} {label : Nat}
    (hb : b.handler = some (clauses, label)) :
    ∃ spare c rest clauses', ys = spare ++ c :: rest ∧ Spare spare ∧ b.Spreads R (c :: rest) ∧
      c.handler = some (clauses', label) ∧ ClausesRelated Eq R clauses clauses' := by
  obtain ⟨⟨init, last, hys, hinit, hlast⟩, hbounds⟩ := h
  have hone : boundsOf [b] = [(clauses, label)] := by simp [boundsOf, hb]
  rw [hone] at hbounds
  have hne : boundsOf ys ≠ [] := by
    intro hnil
    rw [hnil] at hbounds
    cases hbounds
  obtain ⟨spare, c, rest, rfl, hplain, hc⟩ := exists_first_bound hne
  obtain ⟨⟨clauses', label'⟩, hc⟩ := Option.isSome_iff_exists.1 hc
  have hnone : boundsOf spare = [] := by
    rw [boundsOf, List.flatMap_eq_nil_iff]
    intro y hy
    rw [hplain y hy]
    rfl
  have hfirst : boundsOf (spare ++ c :: rest) = (clauses', label') :: boundsOf rest := by
    rw [boundsOf_append, hnone, List.nil_append, boundsOf_cons, hc]
    rfl
  rw [hfirst] at hbounds
  obtain ⟨_, _, ⟨hclauses, rfl⟩, hnil, heq⟩ := List.forall₂_cons_left_iff.1 hbounds
  cases heq
  have hbounds' : BoundsRelated R (boundsOf [b]) (boundsOf (c :: rest)) := by
    rw [hone, boundsOf_cons, hc]
    exact .cons ⟨hclauses, rfl⟩ hnil
  obtain rfl | ⟨more, top, rfl⟩ := List.eq_nil_or_concat' rest
  · obtain ⟨rfl, hsame⟩ := List.append_inj' hys rfl
    cases hsame
    exact ⟨spare, last, [], clauses', rfl, fun y hy => ⟨hinit y hy, hplain y hy⟩,
      ⟨⟨[], last, rfl, nofun, hlast⟩, hbounds'⟩, hc, hclauses⟩
  · have hys' : (spare ++ c :: more) ++ [top] = init ++ [last] := by simpa using hys
    obtain ⟨rfl, hsame⟩ := List.append_inj' hys' rfl
    cases hsame
    exact ⟨spare, c, more ++ [last], clauses', rfl,
      fun y hy => ⟨hinit y (by simp [hy]), hplain y hy⟩,
      ⟨⟨c :: more, last, rfl, fun y hy => hinit y (by simp at hy ⊢; grind), hlast⟩, hbounds'⟩, hc,
      hclauses⟩

/-- A boundary and the activation with its handler get the same new label. -/
theorem Activation.Spreads.relabel {c : Activation} {rest : List Activation}
    (h : b.Spreads R (c :: rest)) {bound bound' : List (Effect × Value) × Nat}
    (hb : b.handler = some bound) (hc : c.handler = some bound') (label : Nat) :
    (b.relabel label).Spreads R (c.relabel label :: rest) := by
  obtain ⟨⟨init, last, hys, hinit, hlast⟩, hbounds⟩ := h
  refine ⟨?_, ?_⟩
  · cases init with
    | nil =>
      cases hys
      refine ⟨[], _, rfl, nofun, ?_⟩
      obtain hmirrors | hidle := hlast
      · exact Or.inl ⟨hmirrors.code, hmirrors.env, hmirrors.locals, hmirrors.ip, hmirrors.operands⟩
      · exact Or.inr hidle
    | cons y init =>
      cases hys
      refine ⟨c.relabel label :: init, last, rfl, ?_, ?_⟩
      · exact List.forall_mem_cons.2 ⟨hinit c (.head _), fun y hy => hinit y (.tail _ hy)⟩
      · obtain hmirrors | hidle := hlast
        · exact Or.inl ⟨hmirrors.code, hmirrors.env, hmirrors.locals, hmirrors.ip, hmirrors.operands⟩
        · exact Or.inr hidle
  · simp only [boundsOf_cons, hb, hc] at hbounds
    obtain ⟨_, _, hfirst, hrest, heq⟩ := List.forall₂_cons_left_iff.1 hbounds
    cases heq
    simp only [boundsOf_cons, Activation.relabel, hb, hc]
    exact .cons ⟨hfirst.1, rfl⟩ hrest

end Resumable
