import Mathlib.Data.List.TakeWhile
import Resumable.Proofs.Compile.Lexical

/-!
Lexical scoping by its rules. Functions nest; each has one scope that is never closed and scopes that are
open in it, and every scope maps its names to slots. A name means its innermost binding in the function,
or else in a function around; in this case every function on the way asks the one around it for the name.
Whatever is done with scopes, they answer as these rules say.
-/

namespace Resumable

/-- A scope: its names with their slots, the latest first. -/
abbrev NameScope := List (Symbol × Nat)

/-- The scopes of a function: the one that is never closed, and those that are open in it, the innermost
first; the greatest number of locals that have been live together; and the names that have been asked of
the function around, each once. -/
structure Layer where
  base : NameScope := []
  opened : List NameScope := []
  peak : Nat := 0
  asked : List Symbol := []

namespace Layer

/-- All bindings, the innermost first. -/
def bindings (l : Layer) : NameScope :=
  l.opened.flatten ++ l.base

/-- The number of live locals. -/
def live (l : Layer) : Nat :=
  l.bindings.length

/-- The slot of the innermost binding of a name. -/
def slot? (l : Layer) (name : Symbol) : Option Nat :=
  (l.bindings.find? fun b => b.1 == name).map Prod.snd

/-- Whether the innermost scope binds a name. -/
def declares (l : Layer) (name : Symbol) : Bool :=
  (l.opened.headD l.base).any fun b => b.1 == name

/-- Binds a name in the innermost scope to the number of live locals. -/
def bind (l : Layer) (name : Symbol) : Layer :=
  let b := (name, l.live)
  let peak := max l.peak (l.live + 1)
  match l.opened with
  | [] => { l with base := b :: l.base, peak }
  | s :: ss => { l with opened := (b :: s) :: ss, peak }

/-- Asks the function around for a name, once. -/
def ask (l : Layer) (name : Symbol) : Layer :=
  if l.asked.any fun n => n == name then l else { l with asked := l.asked ++ [name] }

/-- How a function supplies a name that is asked of it. -/
def supply (l : Layer) (name : Symbol) : CaptureSource :=
  match l.slot? name with
  | some slot => .slot slot
  | none => .enclosing

end Layer

/-- The function whose scopes are innermost and the functions around it, the nearest first. -/
structure Nesting where
  current : Layer := {}
  around : List Layer := []

namespace Nesting

/-- All functions, from the innermost on. -/
def layers (n : Nesting) : List Layer :=
  n.current :: n.around

/-- Asks for a name from function to function, up to one that binds it. -/
def askThrough (name : Symbol) : List Layer → List Layer
  | [] => []
  | l :: ls => if (l.slot? name).isSome then l :: ls else l.ask name :: askThrough name ls

/-- What has been asked of the function around, with how it supplies it. -/
def captures (l : Layer) : List Layer → List Capture
  | [] => []
  | outer :: _ => l.asked.map fun name => ⟨name, outer.supply name⟩

end Nesting

/-- What can be done with scopes. -/
inductive ScopeStep where
  | openScope
  | closeScope
  | openFunction
  | closeFunction
  | declare (name : Symbol)
  | resolve (name : Symbol)

/-- The answer to a step. -/
inductive ScopeAnswer where
  | done
  | closed (gone : Nat)
  | left (slots : Nat) (captures : List Capture)
  | declared (result : Except CompileProblem Nat)
  | found (variable_ : Variable)

/-- One step by the rules. -/
def Nesting.perform (n : Nesting) : ScopeStep → ScopeAnswer × Nesting
  | .openScope => (.done, { n with current := { n.current with opened := [] :: n.current.opened } })
  | .closeScope =>
    match n.current.opened with
    | [] => (.closed 0, n)
    | s :: ss => (.closed s.length, { n with current := { n.current with opened := ss } })
  | .openFunction => (.done, { current := { opened := [[]] }, around := n.layers })
  | .closeFunction =>
    match n.around with
    | [] => (.left n.current.peak [], n)
    | l :: ls => (.left n.current.peak (captures n.current n.around), { current := l, around := ls })
  | .declare name =>
    if 65536 ≤ n.current.live then (.declared (.error .tooManyLocals), n)
    else if n.current.declares name then (.declared (.error (.variableExists name.name)), n)
    else (.declared (.ok n.current.live), { n with current := n.current.bind name })
  | .resolve name =>
    match n.current.slot? name with
    | some slot => (.found (.slot slot), n)
    | none =>
      if n.around.any fun l => (l.slot? name).isSome then
        (.found .captured, { current := n.current.ask name, around := askThrough name n.around })
      else (.found .global, n)

/-- One step of the scopes of a compilation. -/
def Scopes.perform (s : Scopes) : ScopeStep → ScopeAnswer × Scopes
  | .openScope => (.done, s.openScope)
  | .closeScope => (.closed s.closeScope.1, s.closeScope.2)
  | .openFunction => (.done, s.openFunction)
  | .closeFunction => (.left s.closeFunction.1.1 s.closeFunction.1.2, s.closeFunction.2)
  | .declare name =>
    match s.declare name with
    | .ok (slot, s') => (.declared (.ok slot), s')
    | .error problem => (.declared (.error problem), s)
  | .resolve name => (.found (s.resolve name).1, (s.resolve name).2)

/-- Steps in a row, with their answers. -/
def performAll {σ : Type} (perform : σ → ScopeStep → ScopeAnswer × σ) (s : σ) :
    List ScopeStep → List ScopeAnswer × σ
  | [] => ([], s)
  | step :: steps =>
    let (answer, s') := perform s step
    let (answers, s'') := performAll perform s' steps
    (answer :: answers, s'')

namespace Layer

/-- The bindings of open scopes as locals, each with the depth of its scope. -/
def openLocals : List NameScope → List Local
  | [] => []
  | s :: ss => s.map (fun b => ⟨b.1, ss.length + 1, b.2⟩) ++ openLocals ss

/-- The locals that a compilation keeps for the bindings. -/
def locals (l : Layer) : List Local :=
  openLocals l.opened ++ l.base.map fun b => ⟨b.1, 0, b.2⟩

/-- The scopes that a compilation keeps for the function. -/
def scope (l : Layer) (around : List Layer) : FunctionScope :=
  { locals := l.locals
    depth := l.opened.length
    peak := l.peak
    captures := Nesting.captures l around }

/-- Slots are given out without gaps, all of them are counted, and no name is asked for twice. -/
structure Dense (l : Layer) : Prop where
  dense : DenseSlots l.locals
  live_le_peak : l.live ≤ l.peak
  distinct : l.asked.Pairwise fun a b => (a == b) = false

variable {l : Layer} {name : Symbol}

theorem map_openLocals (opened : List NameScope) :
    (openLocals opened).map (fun x => (x.name, x.slot)) = opened.flatten := by
  induction opened with
  | nil => rfl
  | cons s ss ih => simp [openLocals, ih, Function.comp_def]

theorem map_locals (l : Layer) : l.locals.map (fun x => (x.name, x.slot)) = l.bindings := by
  simp [locals, bindings, map_openLocals, Function.comp_def]

theorem length_locals (l : Layer) : l.locals.length = l.live := by
  rw [live, ← map_locals, List.length_map]

theorem slotIn_locals (l : Layer) (name : Symbol) : slotIn l.locals name = l.slot? name := by
  rw [slotIn, slot?, ← map_locals, List.find?_map, Option.map_map]
  rfl

theorem depth_openLocals {opened : List NameScope} {x : Local} (hmem : x ∈ openLocals opened) :
    1 ≤ x.depth ∧ x.depth ≤ opened.length := by
  induction opened with
  | nil => cases hmem
  | cons s ss ih =>
    obtain hmem | hmem := List.mem_append.1 hmem
    · obtain ⟨b, -, rfl⟩ := List.mem_map.1 hmem
      exact ⟨Nat.le_add_left _ _, Nat.le_refl _⟩
    · exact (ih hmem).imp_right Nat.le_succ_of_le

theorem depth_locals {x : Local} (hmem : x ∈ l.locals) : x.depth ≤ l.opened.length := by
  obtain hmem | hmem := List.mem_append.1 hmem
  · exact (depth_openLocals hmem).2
  · obtain ⟨b, -, rfl⟩ := List.mem_map.1 hmem
    exact Nat.zero_le _

theorem locals_opened {s : NameScope} {ss : List NameScope} (hopened : l.opened = s :: ss) :
    l.locals = s.map (fun b => ⟨b.1, ss.length + 1, b.2⟩) ++ { l with opened := ss }.locals := by
  rw [locals, hopened, openLocals, List.append_assoc]
  rfl

/-- The locals of the innermost scope are those that are deeper than the scope around it. -/
theorem span_locals {s : NameScope} {ss : List NameScope} (hopened : l.opened = s :: ss)
    {p : Local → Bool} (hp : ∀ x, p x = decide (ss.length < x.depth)) :
    l.locals.takeWhile p = s.map (fun b => ⟨b.1, ss.length + 1, b.2⟩) ∧
      l.locals.dropWhile p = { l with opened := ss }.locals := by
  have hinner : ∀ x ∈ s.map (fun b => (⟨b.1, ss.length + 1, b.2⟩ : Local)), p x = true := by
    intro x hmem
    obtain ⟨b, -, rfl⟩ := List.mem_map.1 hmem
    simp [hp]
  have houter : ∀ x ∈ ({ l with opened := ss } : Layer).locals, p x = false := by
    intro x hmem
    have hdepth := depth_locals hmem
    simp only [hp, decide_eq_false_iff_not]
    exact Nat.not_lt.2 hdepth
  rw [locals_opened hopened, List.takeWhile_append_of_pos hinner, List.dropWhile_append_of_pos hinner]
  cases hlocals : ({ l with opened := ss } : Layer).locals with
  | nil => simp
  | cons x xs =>
    have hx := houter x (by simp [hlocals])
    rw [List.takeWhile_cons_of_neg (by simp [hx]), List.dropWhile_cons_of_neg (by simp [hx])]
    simp

theorem declares_scope (l : Layer) (around : List Layer) (name : Symbol) :
    (l.scope around).declares name = l.declares name := by
  rw [FunctionScope.declares, declares]
  cases hopened : l.opened with
  | nil =>
    have hall : l.locals = l.base.map fun b => ⟨b.1, 0, b.2⟩ := by
      rw [locals, hopened]
      rfl
    have hdepth : (l.scope around).depth = 0 := by rw [scope, hopened]; rfl
    rw [hdepth, show (l.scope around).locals = l.locals from rfl, hall,
      List.takeWhile_eq_self_iff.2 (by simp)]
    simp [List.any_map, Function.comp_def]
  | cons s ss =>
    have hdepth : (l.scope around).depth = ss.length + 1 := by rw [scope, hopened]; rfl
    rw [hdepth, show (l.scope around).locals = l.locals from rfl,
      (span_locals hopened fun _ => decide_eq_decide.2 Nat.succ_le_iff).1]
    simp [List.any_map, Function.comp_def]

theorem locals_bind (l : Layer) (name : Symbol) :
    (l.bind name).locals = ⟨name, l.opened.length, l.live⟩ :: l.locals := by
  unfold bind
  cases hopened : l.opened with
  | nil => simp [locals, openLocals, hopened]
  | cons s ss => simp [locals, openLocals, hopened]

theorem live_bind (l : Layer) (name : Symbol) : (l.bind name).live = l.live + 1 := by
  rw [← length_locals, locals_bind, List.length_cons, length_locals]

theorem scope_bind (l : Layer) (around : List Layer) (name : Symbol) :
    (l.bind name).scope around =
      { l.scope around with
        locals := ⟨name, l.opened.length, l.live⟩ :: l.locals, peak := max l.peak (l.live + 1) } := by
  rw [scope, locals_bind]
  unfold bind
  cases hopened : l.opened with
  | nil => simp [scope, Nesting.captures, hopened]
  | cons s ss => simp [scope, Nesting.captures, hopened]

theorem asked_bind (l : Layer) (name : Symbol) : (l.bind name).asked = l.asked := by
  unfold bind
  split <;> rfl

theorem Dense.bind (hdense : l.Dense) (name : Symbol) : (l.bind name).Dense := by
  refine ⟨?_, ?_, l.asked_bind name ▸ hdense.distinct⟩
  · rw [locals_bind]
    exact ⟨l.length_locals.symm, hdense.dense⟩
  · have hpeak := congrArg FunctionScope.peak (l.scope_bind [] name)
    rw [live_bind, show (l.bind name).peak = _ from hpeak]
    exact Nat.le_max_right _ _

theorem slot?_ask (l : Layer) (name other : Symbol) : (l.ask name).slot? other = l.slot? other := by
  unfold ask
  split <;> rfl

theorem supply_ask (l : Layer) (name other : Symbol) : (l.ask name).supply other = l.supply other := by
  rw [supply, slot?_ask, supply]

theorem Dense.ask (hdense : l.Dense) (name : Symbol) : (l.ask name).Dense := by
  unfold Layer.ask
  split
  · exact hdense
  next hnew =>
    refine ⟨hdense.dense, hdense.live_le_peak, List.pairwise_append.2
      ⟨hdense.distinct, List.pairwise_singleton _ _, fun a ha b hb => ?_⟩⟩
    rw [List.mem_singleton.1 hb]
    by_contra hsame
    exact hnew (List.any_eq_true.2 ⟨a, ha, by simpa using hsame⟩)

/-- Asking for a name is recording a capture of it. -/
theorem capture_scope (l outer : Layer) (around : List Layer) (name : Symbol) :
    (l.scope (outer :: around)).capture name (outer.supply name) = (l.ask name).scope (outer :: around) := by
  have hany : (l.scope (outer :: around)).captures.any (fun c => c.name == name) =
      l.asked.any fun n => n == name := by
    simp [scope, Nesting.captures, List.any_map, Function.comp_def]
  rw [FunctionScope.capture, hany, ask]
  split
  · rfl
  · simp [scope, Nesting.captures, locals]

end Layer

namespace Nesting

/-- The scopes that a compilation keeps for functions, the innermost first. -/
def scopesOf : List Layer → List FunctionScope
  | [] => []
  | l :: ls => l.scope ls :: scopesOf ls

/-- The scopes that a compilation keeps. -/
def scopes (n : Nesting) : Scopes :=
  { current := n.current.scope n.around, outer := scopesOf n.around }

/-- Only the names and slots of the function around decide how names that are asked of it are
supplied. -/
theorem scope_congr (l : Layer) {outer outer' : Layer} {around around' : List Layer}
    (hsupply : ∀ name, outer'.supply name = outer.supply name) :
    l.scope (outer' :: around') = l.scope (outer :: around) := by
  simp [Layer.scope, captures, hsupply]

theorem captureFrom_scopesOf (name : Symbol) (l : Layer) (ls : List Layer)
    (hnone : l.slot? name = none) :
    Scopes.captureFrom name (l.scope ls) (scopesOf ls) =
      if ls.any fun l => (l.slot? name).isSome then
        some ((l.ask name).scope (askThrough name ls), scopesOf (askThrough name ls))
      else none := by
  induction ls generalizing l with
  | nil => rfl
  | cons outer ls ih =>
    rw [scopesOf, Scopes.captureFrom, FunctionScope.slot?_eq_slotIn]
    have hslot : slotIn (outer.scope ls).locals name = outer.slot? name := outer.slotIn_locals name
    rw [hslot, askThrough]
    cases hfound : outer.slot? name with
    | some slot =>
      have hcapture := l.capture_scope outer ls name
      have hsupply : outer.supply name = .slot slot := by rw [Layer.supply, hfound]
      rw [hsupply] at hcapture
      simp [hfound, hcapture, scopesOf]
    | none =>
      have hcapture := l.capture_scope outer ls name
      have hsupply : outer.supply name = .enclosing := by rw [Layer.supply, hfound]
      rw [hsupply] at hcapture
      simp only [ih outer hfound, hcapture]
      simp only [List.any_cons, hfound, Option.isSome_none, Bool.false_or, Bool.false_eq_true, if_false]
      split
      next hsplit =>
        split at hsplit
        · cases hsplit
          rw [if_pos ‹_›, scopesOf, scope_congr _ (fun other => outer.supply_ask name other)]
        · cases hsplit
      next hsplit =>
        split at hsplit
        · cases hsplit
        · rw [if_neg ‹_›]

/-- All functions have slots given out without gaps. -/
def Dense (n : Nesting) : Prop :=
  ∀ l ∈ n.layers, l.Dense

variable {n : Nesting}

theorem dense_askThrough (name : Symbol) {ls : List Layer} (hdense : ∀ l ∈ ls, l.Dense) :
    ∀ l ∈ askThrough name ls, l.Dense := by
  induction ls with
  | nil => nofun
  | cons l ls ih =>
    obtain ⟨hl, hls⟩ := List.forall_mem_cons.1 hdense
    rw [askThrough]
    split
    · exact hdense
    · exact List.forall_mem_cons.2 ⟨hl.ask name, ih hls⟩

theorem Dense.perform (hdense : n.Dense) (step : ScopeStep) : (n.perform step).2.Dense := by
  obtain ⟨hcurrent, haround⟩ := List.forall_mem_cons.1 hdense
  cases step with
  | openScope =>
    have hopened : Layer.Dense { n.current with opened := [] :: n.current.opened } :=
      ⟨hcurrent.dense, hcurrent.live_le_peak, hcurrent.distinct⟩
    exact List.forall_mem_cons.2 ⟨hopened, haround⟩
  | closeScope =>
    simp only [Nesting.perform]
    cases hopened : n.current.opened with
    | nil => exact hdense
    | cons s ss =>
      refine List.forall_mem_cons.2 ⟨?_, haround⟩
      have hsuffix : ({ n.current with opened := ss } : Layer).locals <:+ n.current.locals :=
        ⟨_, (Layer.locals_opened hopened).symm⟩
      refine ⟨hcurrent.dense.suffix hsuffix, ?_, hcurrent.distinct⟩
      rw [← Layer.length_locals]
      have hless := hsuffix.length_le
      rw [Layer.length_locals n.current] at hless
      exact Nat.le_trans hless hcurrent.live_le_peak
  | openFunction => exact List.forall_mem_cons.2 ⟨⟨trivial, Nat.le_refl _, .nil⟩, hdense⟩
  | closeFunction =>
    obtain ⟨current, around⟩ := n
    cases around with
    | nil => exact hdense
    | cons l ls => exact haround
  | declare name =>
    simp only [Nesting.perform]
    split
    · exact hdense
    · split
      · exact hdense
      · exact List.forall_mem_cons.2 ⟨hcurrent.bind name, haround⟩
  | resolve name =>
    simp only [Nesting.perform]
    split
    · exact hdense
    · split
      · exact List.forall_mem_cons.2 ⟨hcurrent.ask name, dense_askThrough name haround⟩
      · exact hdense

/-- The scopes of a compilation answer a step as the rules say, and keep to them. -/
theorem perform_scopes (hdense : n.Dense) (step : ScopeStep) :
    n.scopes.perform step = ((n.perform step).1, (n.perform step).2.scopes) := by
  cases step with
  | openScope => rfl
  | closeScope =>
    unfold Scopes.perform Scopes.closeScope Nesting.perform scopes
    cases hopened : n.current.opened with
    | nil =>
      have hdrop : n.current.locals.dropWhile (fun x => decide (0 < x.depth)) = n.current.locals ∧
          n.current.locals.takeWhile (fun x => decide (0 < x.depth)) = [] := by
        cases hlocals : n.current.locals with
        | nil => exact ⟨rfl, rfl⟩
        | cons x xs =>
          have hdepth : x.depth ≤ n.current.opened.length := Layer.depth_locals (by simp [hlocals])
          rw [hopened] at hdepth
          have hx : ¬ decide (0 < x.depth) = true := by simpa using hdepth
          exact ⟨List.dropWhile_cons_of_neg hx, List.takeWhile_cons_of_neg hx⟩
      simp only [Layer.scope, hopened, List.length_nil, Nat.zero_sub, hdrop.1, hdrop.2]
    | cons s ss =>
      obtain ⟨htake, hdrop⟩ := Layer.span_locals hopened fun x => rfl
      simp only [Layer.scope, hopened, List.length_cons, Nat.add_sub_cancel, htake, hdrop,
        List.length_map]
      rfl
  | openFunction => rfl
  | closeFunction =>
    obtain ⟨current, around⟩ := n
    cases around with
    | nil => rfl
    | cons l ls => rfl
  | declare name =>
    have hlive : (n.current.scope n.around).liveCount = n.current.live := by
      rw [Scopes.liveCount_eq_length (hdense _ (.head _)).dense]
      exact n.current.length_locals
    simp only [Scopes.perform, Scopes.declare, perform, scopes, hlive, Layer.declares_scope,
      Scopes.maxLocals]
    by_cases hfull : 65536 ≤ n.current.live
    · simp only [if_pos hfull]
    · by_cases hdeclares : n.current.declares name = true
      · simp only [if_neg hfull, if_pos hdeclares]
      · simp only [if_neg hfull, if_neg hdeclares, Layer.scope_bind]
        rfl
  | resolve name =>
    have hslot : (n.current.scope n.around).slot? name = n.current.slot? name :=
      n.current.slotIn_locals name
    simp only [Scopes.perform, Scopes.resolve, perform, scopes, hslot]
    cases hfound : n.current.slot? name with
    | some slot => rfl
    | none =>
      simp only [captureFrom_scopesOf name n.current n.around hfound]
      by_cases houter : (n.around.any fun l => (l.slot? name).isSome) = true
      · simp only [if_pos houter]
      · simp only [if_neg houter]

end Nesting

/-- Steps in a row are answered as the rules say. -/
theorem Nesting.performAll_scopes {n : Nesting} (hdense : n.Dense) (steps : List ScopeStep) :
    performAll Scopes.perform n.scopes steps =
        ((performAll Nesting.perform n steps).1, (performAll Nesting.perform n steps).2.scopes) ∧
      (performAll Nesting.perform n steps).2.Dense := by
  induction steps generalizing n with
  | nil => exact ⟨rfl, hdense⟩
  | cons step steps ih =>
    obtain ⟨hrest, hlast⟩ := ih (hdense.perform step)
    refine ⟨?_, hlast⟩
    simp only [performAll, perform_scopes hdense step, hrest]

theorem DenseSlots.nodup {locals : List Local} (hdense : DenseSlots locals) :
    (locals.map Local.slot).Nodup := by
  induction locals with
  | nil => exact .nil
  | cons x xs ih =>
    obtain ⟨hslot, hrest⟩ := hdense
    refine List.nodup_cons.2 ⟨fun hmem => ?_, ih hrest⟩
    obtain ⟨y, hy, hsame⟩ := List.mem_map.1 hmem
    have := hrest.slot_lt hy
    omega

/-- Whatever is done with the scopes of a compilation, they answer as the rules of lexical scoping say.
The live locals of a function have slots of their own below the number of slots that it needs, and no name
is captured twice. -/
theorem Scopes.perform_by_rules (steps : List ScopeStep) :
    (performAll Scopes.perform {} steps).1 = (performAll Nesting.perform {} steps).1 ∧
    (performAll Scopes.perform {} steps).2 = (performAll Nesting.perform {} steps).2.scopes ∧
    ∀ l ∈ (performAll Nesting.perform {} steps).2.layers,
      (l.bindings.map Prod.snd).Nodup ∧ (∀ b ∈ l.bindings, b.2 < l.peak) ∧
      l.asked.Pairwise fun a b => (a == b) = false := by
  have hstart : ({} : Nesting).Dense :=
    List.forall_mem_singleton.2 ⟨trivial, Nat.le_refl _, .nil⟩
  obtain ⟨hsame, hdense⟩ := Nesting.performAll_scopes hstart steps
  refine ⟨congrArg Prod.fst hsame, congrArg Prod.snd hsame, fun l hl => ?_⟩
  have hslots : l.bindings.map Prod.snd = l.locals.map Local.slot := by
    rw [← Layer.map_locals, List.map_map]
    rfl
  refine ⟨hslots ▸ (hdense l hl).dense.nodup, fun b hb => ?_, (hdense l hl).distinct⟩
  rw [← Layer.map_locals] at hb
  obtain ⟨x, hx, rfl⟩ := List.mem_map.1 hb
  have hlt := (hdense l hl).dense.slot_lt hx
  rw [Layer.length_locals] at hlt
  exact Nat.lt_of_lt_of_le hlt (hdense l hl).live_le_peak

end Resumable
