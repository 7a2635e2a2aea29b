import Resumable.Proofs.Expr.Lowered
import Resumable.Proofs.Meaning.Step
import Resumable.Proofs.Symbol
import Resumable.Proofs.Value.Env

/-!
The names of a program where it is compiled. Lowering adds names of its own, which no expression of the
program mentions. What an expression declares in its scope can be read off it before and after lowering,
and these are the locals that are visible behind its code.
-/

namespace Resumable

namespace Expr

/-- The variables that an expression mentions are written by the program, and if it is a handler, then
the names that lowering makes are not. -/
def Names (written : String → Prop) : Expr → Prop
  | name _ n | declare _ n _ | assign _ n _ => written n
  | lambda _ n params _ => (∀ n' ∈ n, written n') ∧ ∀ param ∈ params, written param
  | handle _ _ clauses => (∀ c ∈ clauses, written c.param ∧ ∀ r ∈ c.resume, written r) ∧
    ∀ p : PathFunction, ¬ written p.effect ∧ ¬ written p.arg ∧ ¬ written p.k
  | handled _ _ _ => False
  | _ => True

/-- All variables in an expression are written by the program. -/
def Named (written : String → Prop) : Expr → Prop :=
  Every (Names written)

end Expr

theorem mem_declaresAll {es : List Expr} {name : String} (hname : name ∈ declaresAll es) :
    ∃ e ∈ es, name ∈ e.declares := by
  induction es with
  | nil => simp [declaresAll] at hname
  | cons e es ih =>
    rw [declaresAll, List.mem_append] at hname
    obtain hname | hname := hname
    · exact ⟨e, .head _, hname⟩
    · obtain ⟨e', he', hname⟩ := ih hname
      exact ⟨e', .tail _ he', hname⟩

theorem mem_declaresFields {fields : List (String × Expr)} {name : String}
    (hname : name ∈ declaresFields fields) : ∃ f ∈ fields, name ∈ f.2.declares := by
  induction fields with
  | nil => simp [declaresFields] at hname
  | cons f fields ih =>
    rw [declaresFields, List.mem_append] at hname
    obtain hname | hname := hname
    · exact ⟨f, .head _, hname⟩
    · obtain ⟨f', hf', hname⟩ := ih hname
      exact ⟨f', .tail _ hf', hname⟩

/-- The names that an expression declares are written by the program. -/
theorem Expr.Named.declares {written : String → Prop} {e : Expr} (h : e.Named written) :
    ∀ name ∈ e.declares, written name := by
  have ih : ∀ part ∈ e.parts, ∀ name ∈ part.declares, written name := fun part hmem =>
    have := sizeOf_lt_of_mem_parts hmem
    Named.declares (h.part hmem)
  intro name hname
  cases e with
  | call line callee args =>
    simp only [Expr.declares, List.mem_append] at hname
    obtain hname | hname := hname
    · obtain ⟨e, he, hname⟩ := mem_declaresAll hname
      exact ih e (.tail _ he) name hname
    · exact ih _ (.head _) name hname
  | cond line test whenTrue whenFalse =>
    cases whenFalse with
    | none =>
      simp only [Expr.declares, List.mem_append] at hname
      exact hname.elim (ih _ (by simp [parts]) name) (ih _ (by simp [parts]) name)
    | some whenFalse =>
      simp only [Expr.declares, List.mem_append] at hname
      exact hname.elim (fun hname => hname.elim (ih _ (by simp [parts]) name)
        (ih _ (by simp [parts]) name)) (ih _ (by simp [parts]) name)
  | declare line other value =>
    simp only [Expr.declares, List.mem_append, List.mem_singleton] at hname
    obtain hname | rfl := hname
    · exact ih _ (.head _) name hname
    · exact h.here
  | assign line other value | field line target other =>
    simp only [Expr.declares] at hname
    exact ih _ (.head _) name hname
  | list line items | tuple line items =>
    simp only [Expr.declares] at hname
    obtain ⟨e, he, hname⟩ := mem_declaresAll hname
    exact ih e he name hname
  | record line fields =>
    simp only [Expr.declares] at hname
    obtain ⟨f, hf, hname⟩ := mem_declaresFields hname
    exact ih _ (List.mem_map_of_mem hf) name hname
  | handled => exact h.here.elim
  | _ => simp [Expr.declares] at hname
termination_by sizeOf e

namespace Lexical

/-- Behind an expression that declares some names: those of global variables are not visible as
locals. -/
def passed (Γ : Lexical) (names : List Symbol) : Lexical :=
  if Γ.isGlobal then Γ else Γ.declaredAll names

variable {Γ : Lexical}

@[simp]
theorem passed_nil : Γ.passed [] = Γ := by
  unfold passed
  split <;> rfl

theorem depth_declaredAll (names : List Symbol) : (Γ.declaredAll names).depth = Γ.depth := by
  induction names generalizing Γ with
  | nil => rfl
  | cons name names ih => exact ih

theorem isGlobal_passed (names : List Symbol) : (Γ.passed names).isGlobal = Γ.isGlobal := by
  unfold passed
  split
  · rfl
  · rw [isGlobal, isGlobal, outer_declaredAll, depth_declaredAll]

theorem passed_append (names names' : List Symbol) :
    Γ.passed (names ++ names') = (Γ.passed names).passed names' := by
  rw [passed.eq_1 (Γ.passed names), isGlobal_passed]
  unfold passed
  split
  · rfl
  · rw [declaredAll, List.foldl_append]
    rfl

theorem grows_declaredAll (names : List Symbol) : Γ.Grows (Γ.declaredAll names) := by
  induction names generalizing Γ with
  | nil => exact .refl Γ
  | cons name names ih => exact (grows_declared Γ name).trans ih

theorem grows_passed (names : List Symbol) : Γ.Grows (Γ.passed names) := by
  unfold passed
  split
  · exact .refl Γ
  · exact grows_declaredAll names

end Lexical

mutual

/-- Lowering keeps the names that an expression declares. -/
theorem Expr.Lowered.declares_eq {e e' : Expr} : e.Lowered e' → e'.declares = e.declares
  | .atom _ => rfl
  | .call hcallee hargs => by simp only [Expr.declares, hargs.declares_eq, hcallee.declares_eq]
  | .condElse htest htrue hfalse => by
    simp only [Expr.declares, htest.declares_eq, htrue.declares_eq, hfalse.declares_eq]
  | .condOnly htest htrue => by simp only [Expr.declares, htest.declares_eq, htrue.declares_eq]
  | .lambda _ => by simp only [Expr.declares]
  | .block _ => by simp only [Expr.declares]
  | .declare hvalue => by simp only [Expr.declares, hvalue.declares_eq]
  | .assign hvalue => by simp only [Expr.declares, hvalue.declares_eq]
  | .list hitems => by simp only [Expr.declares, hitems.declares_eq]
  | .tuple hitems => by simp only [Expr.declares, hitems.declares_eq]
  | .record hfields => by simp only [Expr.declares, hfields.declares_eq]
  | .field htarget => by simp only [Expr.declares, htarget.declares_eq]
  | .handle _ _ _ _ _ => by simp only [Expr.declares]
  | .handled hpairs _ => by simp only [Expr.declares, hpairs.declares_eq]

theorem LoweredAll.declares_eq {es es' : List Expr} :
    LoweredAll es es' → declaresAll es' = declaresAll es
  | .nil => rfl
  | .cons hfirst hrest => by rw [declaresAll, declaresAll, hfirst.declares_eq, hrest.declares_eq]

theorem LoweredFields.declares_eq {fields fields' : List (String × Expr)} :
    LoweredFields fields fields' → declaresFields fields' = declaresFields fields
  | .nil => rfl
  | .cons hfirst hrest => by
    rw [declaresFields, declaresFields, hfirst.declares_eq, hrest.declares_eq]

theorem LoweredPairs.declares_eq {pairs pairs' : List (Expr × Expr)} :
    LoweredPairs pairs pairs' → declaresPairs pairs' = declaresPairs pairs
  | .nil => rfl
  | .cons heffect hfunction hrest => by
    rw [declaresPairs, declaresPairs, heffect.declares_eq, hfunction.declares_eq, hrest.declares_eq]

end

namespace Meaning

/-- What the compilation of a program is based on: how the program is read, with symbols that are told
apart by their numbers, and which names it may write. -/
structure Ground where
  reading : Reading
  written : String → Prop
  distinct : ∀ name name' s s', reading.names.find? name = some s →
    reading.names.find? name' = some s' → (s == s') = true → name = name' ∧ s = s'

namespace Ground

variable {G : Ground}

/-- The symbols of names that a program does not write. -/
def Hidden (G : Ground) (s : Symbol) : Prop :=
  ∃ name t, ¬ G.written name ∧ G.reading.names.find? name = some t ∧ (t == s) = true

open Classical in
/-- Whether programs can mention a symbol. -/
noncomputable def shows (G : Ground) (s : Symbol) : Bool :=
  !decide (G.Hidden s)

theorem shows_iff {s : Symbol} : G.shows s = true ↔ ¬ G.Hidden s := by
  simp [shows]

theorem not_shows_iff {s : Symbol} : G.shows s = false ↔ G.Hidden s := by
  simp [shows]

theorem shows_congr {s t : Symbol} (hsame : (s == t) = true) : G.shows s = G.shows t := by
  have hiff : G.Hidden s ↔ G.Hidden t := by
    rw [Symbol.beq_iff] at hsame
    simp only [Hidden, Symbol.beq_iff, hsame]
  unfold shows
  rw [decide_eq_decide.2 hiff]

theorem symbol_eq {name : String} {s : Symbol} (hname : G.reading.names.find? name = some s) :
    G.reading.symbol name = s := by
  rw [Reading.symbol, hname]
  rfl

theorem shows_of_written {name : String} {s : Symbol} (hwritten : G.written name)
    (hname : G.reading.names.find? name = some s) : G.shows s = true := by
  rw [shows_iff]
  rintro ⟨other, t, hother, hfind, hsame⟩
  obtain ⟨rfl, -⟩ := G.distinct other name t s hfind hname hsame
  exact hother hwritten

theorem not_shows {name : String} {s : Symbol} (hwritten : ¬ G.written name)
    (hname : G.reading.names.find? name = some s) : G.shows s = false :=
  not_shows_iff.2 ⟨name, s, hwritten, hname, by simp [Symbol.beq_iff]⟩

/-- The locals that programs can mention. -/
noncomputable def shown (G : Ground) (locals : List Local) : List Local :=
  locals.filter fun l => G.shows l.name

theorem shown_cons {l : Local} {locals : List Local} (hl : G.shows l.name = true) :
    G.shown (l :: locals) = l :: G.shown locals :=
  List.filter_cons_of_pos hl

theorem shown_cons_hidden {l : Local} {locals : List Local} (hl : G.shows l.name = false) :
    G.shown (l :: locals) = G.shown locals :=
  List.filter_cons_of_neg (by simp [hl])

theorem shown_append (new locals : List Local) :
    G.shown (new ++ locals) = G.shown new ++ G.shown locals :=
  List.filter_append _ _

end Ground

end Meaning

section Passed

open Meaning

variable {G : Ground} {code : Code Value}

/-- Behind some code the locals are those before and the ones of some names, which have symbols, and
there are slots for all of them. -/
structure Lexical.Passes (G : Ground) (code : Code Value) (names : List String) (Γ Γ' : Lexical) :
    Prop where
  eq : Γ' = Γ.passed (names.map G.reading.symbol)
  known : ∀ name ∈ names, (G.reading.names.find? name).isSome = true
  room : Γ.locals.length ≤ code.localCount → Γ'.locals.length ≤ code.localCount

namespace Lexical.Passes

variable {Γ Γ' : Lexical}

theorem none {names : List String} (hnone : names = []) : Passes G code names Γ Γ :=
  ⟨by simp [hnone], by simp [hnone], id⟩

theorem trans {names names' : List String} {Γ'' : Lexical} (h : Passes G code names Γ Γ')
    (h' : Passes G code names' Γ' Γ'') : Passes G code (names ++ names') Γ Γ'' :=
  ⟨by rw [List.map_append, passed_append, ← h.eq, ← h'.eq],
    List.forall_mem_append.2 ⟨h.known, h'.known⟩, h'.room ∘ h.room⟩

theorem grows {names : List String} (h : Passes G code names Γ Γ') : Γ.Grows Γ' :=
  h.eq ▸ grows_passed _

end Lexical.Passes

mutual

/-- What is visible behind the code of an expression is what it declares. -/
theorem Layout.passes {Γ Γ' : Lexical} {tail : Bool} {e : Expr} {a b : Nat} :
    Layout G.reading.options G.reading.names code Γ tail e a Γ' b →
      Lexical.Passes G code e.declares Γ Γ'
  | .nothing _ => .none (by simp only [Expr.declares])
  | .literal (e := e) hliteral _ _ => by
    cases e <;> cases hliteral <;> exact .none (by simp only [Expr.declares])
  | .name _ _ => .none (by simp only [Expr.declares])
  | .call hargs hcallee _ => by
    rw [Expr.declares]
    exact hargs.passes.trans hcallee.passes
  | .condElse htest _ _ htrue _ _ hfalse => by
    rw [Expr.declares]
    exact (htest.passes.trans htrue.passes).trans hfalse.passes
  | .condOnly htest _ _ htrue _ _ _ => by
    rw [Expr.declares]
    exact htest.passes.trans htrue.passes
  | .lambda _ _ _ => .none (by simp only [Expr.declares])
  | .blockEmpty _ => .none (by simp only [Expr.declares])
  | .block _ => .none (by simp only [Expr.declares])
  | .declareGlobal hvalue hglobal hname _ _ _ => by
    rw [Expr.declares]
    exact hvalue.passes.trans ⟨by rw [Lexical.passed, if_pos hglobal], by simp [hname], id⟩
  | .declareLocal hvalue hlocal hname hroom _ _ => by
    rw [Expr.declares]
    refine hvalue.passes.trans ⟨?_, by simp [hname], fun _ => hroom⟩
    rw [Lexical.passed, if_neg (by simp [hlocal]), List.map_singleton, Ground.symbol_eq hname]
    rfl
  | .assign hvalue _ _ _ => by
    rw [Expr.declares]
    exact hvalue.passes
  | .list hitems _ | .tuple hitems _ => by
    rw [Expr.declares]
    exact hitems.passes
  | .record hfields _ => by
    rw [Expr.declares]
    exact hfields.passes
  | .field htarget _ _ _ => by
    rw [Expr.declares]
    exact htarget.passes
  | .handled hpairs _ _ _ _ _ => by
    rw [Expr.declares]
    exact hpairs.passes

theorem LayoutAll.passes {Γ Γ' : Lexical} {es : List Expr} {a b : Nat} :
    LayoutAll G.reading.options G.reading.names code Γ es a Γ' b →
      Lexical.Passes G code (declaresAll es) Γ Γ'
  | .nil => .none rfl
  | .cons hfirst hrest => hfirst.passes.trans hrest.passes

theorem LayoutFields.passes {Γ Γ' : Lexical} {line : Nat} {fields : List (String × Expr)} {a b : Nat} :
    LayoutFields G.reading.options G.reading.names code Γ line fields a Γ' b →
      Lexical.Passes G code (declaresFields fields) Γ Γ'
  | .nil => .none rfl
  | .cons _ _ _ hvalue hrest => hvalue.passes.trans hrest.passes

theorem LayoutPairs.passes {Γ Γ' : Lexical} {pairs : List (Expr × Expr)} {a b : Nat} :
    LayoutPairs G.reading.options G.reading.names code Γ pairs a Γ' b →
      Lexical.Passes G code (declaresPairs pairs) Γ Γ'
  | .nil => .none rfl
  | .cons heffect hfunction hrest => (heffect.passes.trans hfunction.passes).trans hrest.passes

end

/-- Statements extend the scope that they stand in. -/
theorem LayoutStatements.grows {Γ Γ' : Lexical} {tail : Bool} {es : List Expr} {a b : Nat}
    (hstatements : LayoutStatements G.reading.options G.reading.names code Γ tail es a Γ' b) :
    Γ.Grows Γ' := by
  induction es generalizing Γ a with
  | nil => cases hstatements
  | cons e es ih =>
    cases hstatements with
    | last hlast => exact hlast.passes.grows
    | cons hfirst _ hrest => exact hfirst.passes.grows.trans (ih hrest)

end Passed

end Resumable
