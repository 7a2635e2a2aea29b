import Mathlib.Data.List.Forall2
import Mathlib.Tactic.Common
import Resumable.Scope

/-!
What the scopes of a compilation mean. Of all that scopes record, only the locals that are visible
decide what a name refers to; the captures and the number of slots are what the compiler still has to
find out. The slots of the visible locals of a function are the numbers from zero on, and a captured
name always has a source in the function around.
-/

namespace Resumable

/-- The names that are visible at a place: the locals of the function, the latest first, the depth of
the scope, and the locals of the functions around, the nearest first. -/
structure Lexical where
  locals : List Local := []
  depth : Nat := 0
  outer : List (List Local) := []

/-- The slot of the latest local of that name. -/
def slotIn (locals : List Local) (name : Symbol) : Option Nat :=
  (locals.find? fun l => l.name == name).map Local.slot

namespace Lexical

/-- Whether a function around has a local of that name. -/
def isOuter (Γ : Lexical) (name : Symbol) : Bool :=
  Γ.outer.any fun locals => (slotIn locals name).isSome

/-- What a name refers to. -/
def lookup (Γ : Lexical) (name : Symbol) : Variable :=
  match slotIn Γ.locals name with
  | some slot => .slot slot
  | none => if Γ.isOuter name then .captured else .global

/-- Whether a declaration makes a global variable here. -/
def isGlobal (Γ : Lexical) : Bool :=
  Γ.outer.isEmpty && Γ.depth == 0

/-- In a new scope. -/
def opened (Γ : Lexical) : Lexical :=
  { Γ with depth := Γ.depth + 1 }

/-- After the declaration of a local. -/
def declared (Γ : Lexical) (name : Symbol) : Lexical :=
  { Γ with locals := ⟨name, Γ.depth, Γ.locals.length⟩ :: Γ.locals }

/-- At the start of a function, before its parameters. -/
def entered (Γ : Lexical) : Lexical :=
  { depth := 1, outer := Γ.locals :: Γ.outer }

/-- After the declaration of several locals. -/
def declaredAll (Γ : Lexical) (names : List Symbol) : Lexical :=
  names.foldl declared Γ

@[simp]
theorem outer_declaredAll (Γ : Lexical) (names : List Symbol) :
    (Γ.declaredAll names).outer = Γ.outer := by
  induction names generalizing Γ with
  | nil => rfl
  | cons name names ih => simpa [declaredAll, declared] using ih (Γ.declared name)

theorem length_declaredAll (Γ : Lexical) (names : List Symbol) :
    (Γ.declaredAll names).locals.length = Γ.locals.length + names.length := by
  induction names generalizing Γ with
  | nil => rfl
  | cons name names ih =>
    have hrest := ih (Γ.declared name)
    simp only [declared, List.length_cons] at hrest
    simp only [declaredAll, List.foldl_cons, List.length_cons] at hrest ⊢
    rw [declared, hrest]
    omega

/-- Further locals have been declared in the current scope. -/
structure Grows (Γ Γ' : Lexical) : Prop where
  depth : Γ'.depth = Γ.depth
  outer : Γ'.outer = Γ.outer
  locals : ∃ new, Γ'.locals = new ++ Γ.locals ∧ ∀ l ∈ new, l.depth = Γ.depth

theorem Grows.refl (Γ : Lexical) : Γ.Grows Γ :=
  ⟨rfl, rfl, [], rfl, by simp⟩

theorem Grows.trans {Γ Γ' Γ'' : Lexical} (h : Γ.Grows Γ') (h' : Γ'.Grows Γ'') : Γ.Grows Γ'' := by
  obtain ⟨new, hnew, hdepth⟩ := h.locals
  obtain ⟨new', hnew', hdepth'⟩ := h'.locals
  refine ⟨h'.depth.trans h.depth, h'.outer.trans h.outer, new' ++ new, ?_, ?_⟩
  · rw [hnew', hnew, List.append_assoc]
  · intro l hmem
    obtain hmem | hmem := List.mem_append.1 hmem
    · exact (hdepth' l hmem).trans h.depth
    · exact hdepth l hmem

theorem grows_declared (Γ : Lexical) (name : Symbol) : Γ.Grows (Γ.declared name) :=
  ⟨rfl, rfl, [⟨name, Γ.depth, Γ.locals.length⟩], rfl, by simp⟩

end Lexical

/-- Slots are given out without gaps: the earliest local has slot zero. -/
def DenseSlots : List Local → Prop
  | [] => True
  | l :: ls => l.slot = ls.length ∧ DenseSlots ls

theorem DenseSlots.slot_lt {locals : List Local} (hdense : DenseSlots locals) {l : Local}
    (hmem : l ∈ locals) : l.slot < locals.length := by
  induction locals with
  | nil => cases hmem
  | cons first rest ih =>
    obtain ⟨hslot, hrest⟩ := hdense
    cases hmem with
    | head => simp [hslot]
    | tail _ hmem =>
      have := ih hrest hmem
      simp only [List.length_cons]
      omega

theorem DenseSlots.suffix {locals kept : List Local} (hdense : DenseSlots locals)
    (hsuffix : kept <:+ locals) : DenseSlots kept := by
  obtain ⟨gone, rfl⟩ := hsuffix
  induction gone with
  | nil => exact hdense
  | cons l ls ih => exact ih hdense.2

theorem slotIn_lt {locals : List Local} (hdense : DenseSlots locals) {name : Symbol} {slot : Nat}
    (hslot : slotIn locals name = some slot) : slot < locals.length := by
  unfold slotIn at hslot
  obtain ⟨l, hfind, rfl⟩ := Option.map_eq_some_iff.1 hslot
  exact hdense.slot_lt (List.mem_of_find?_eq_some hfind)

namespace FunctionScope

/-- A function has slots enough for its visible locals, no local stands deeper than its current
scope, and no name is captured twice. -/
structure Sound (f : FunctionScope) : Prop where
  dense : DenseSlots f.locals
  length_le_peak : f.locals.length ≤ f.peak
  depth_le : ∀ l ∈ f.locals, l.depth ≤ f.depth
  distinct : f.captures.Pairwise fun c d => (c.name == d.name) = false

/-- A function around has what a captured name is taken from. -/
def Supplies (f : FunctionScope) (c : Capture) : Prop :=
  match c.source with
  | .slot n => f.slot? c.name = some n
  | .enclosing => f.slot? c.name = none ∧ ∃ d ∈ f.captures, (d.name == c.name) = true

/-- A function of the same locals that captures at least as much. -/
structure Grows (f f' : FunctionScope) : Prop where
  locals : f'.locals = f.locals
  depth : f'.depth = f.depth
  peak : f'.peak = f.peak
  captures : f.captures ⊆ f'.captures

theorem Grows.refl (f : FunctionScope) : f.Grows f :=
  ⟨rfl, rfl, rfl, List.Subset.refl _⟩

theorem Grows.trans {f f' f'' : FunctionScope} (h : f.Grows f') (h' : f'.Grows f'') :
    f.Grows f'' :=
  ⟨h'.locals.trans h.locals, h'.depth.trans h.depth, h'.peak.trans h.peak,
    List.Subset.trans h.captures h'.captures⟩

theorem slot?_eq_slotIn (f : FunctionScope) (name : Symbol) :
    f.slot? name = slotIn f.locals name :=
  rfl

theorem Supplies.grows {f f' : FunctionScope} {c : Capture} (hsupplies : f.Supplies c)
    (hgrows : f.Grows f') : f'.Supplies c := by
  unfold Supplies at hsupplies ⊢
  rw [slot?_eq_slotIn, hgrows.locals]
  split at hsupplies
  next => exact hsupplies
  next =>
    obtain ⟨hnone, d, hmem, hname⟩ := hsupplies
    exact ⟨hnone, d, hgrows.captures hmem, hname⟩

theorem capture_grows (f : FunctionScope) (name : Symbol) (source : CaptureSource) :
    f.Grows (f.capture name source) := by
  unfold capture
  split
  · exact .refl f
  · exact ⟨rfl, rfl, rfl, List.subset_append_left _ _⟩

/-- A captured name is among the captures, from the given source or from one recorded before. -/
theorem mem_capture (f : FunctionScope) (name : Symbol) (source : CaptureSource) :
    ∃ c ∈ (f.capture name source).captures, (c.name == name) = true := by
  unfold capture
  split
  next hany => exact List.any_eq_true.1 hany
  next =>
    refine ⟨⟨name, source⟩, by simp, ?_⟩
    simp [BEq.beq]

theorem Sound.capture {f : FunctionScope} (hsound : f.Sound) (name : Symbol)
    (source : CaptureSource) : (f.capture name source).Sound := by
  unfold FunctionScope.capture
  split
  · exact hsound
  next hany =>
    refine ⟨hsound.dense, hsound.length_le_peak, hsound.depth_le, ?_⟩
    rw [List.pairwise_append]
    refine ⟨hsound.distinct, List.pairwise_singleton _ _, ?_⟩
    intro c hmem d hd
    rw [List.mem_singleton.1 hd]
    by_contra hsame
    exact hany (List.any_eq_true.2 ⟨c, hmem, by simpa using hsame⟩)

/-- Every capture after one more is an earlier one or the new one. -/
theorem eq_of_mem_capture {f : FunctionScope} {name : Symbol} {source : CaptureSource}
    {c : Capture} (hmem : c ∈ (f.capture name source).captures) :
    c ∈ f.captures ∨ c = ⟨name, source⟩ := by
  unfold capture at hmem
  split at hmem
  · exact Or.inl hmem
  · simpa using hmem

end FunctionScope

/-- Every captured name has a source in the function around; the outermost function captures
nothing. -/
def CapturesLinked (f : FunctionScope) : List FunctionScope → Prop
  | [] => f.captures = []
  | g :: gs => (∀ c ∈ f.captures, g.Supplies c) ∧ CapturesLinked g gs

theorem CapturesLinked.congr {f f' : FunctionScope} {outer : List FunctionScope}
    (hcaptures : f'.captures = f.captures) (hlinked : CapturesLinked f outer) :
    CapturesLinked f' outer := by
  cases outer with
  | nil => exact hcaptures.trans hlinked
  | cons g gs => exact ⟨by rw [hcaptures]; exact hlinked.1, hlinked.2⟩

namespace Scopes

/-- The names that are visible. -/
def lexical (s : Scopes) : Lexical :=
  { locals := s.current.locals
    depth := s.current.depth
    outer := s.outer.map FunctionScope.locals }

structure Sound (s : Scopes) : Prop where
  current : s.current.Sound
  outer : ∀ f ∈ s.outer, f.Sound
  linked : CapturesLinked s.current s.outer

/-- The functions around have the same locals and capture at least as much. -/
def OuterGrows (s s' : Scopes) : Prop :=
  List.Forall₂ FunctionScope.Grows s.outer s'.outer

theorem OuterGrows.refl (s : Scopes) : s.OuterGrows s :=
  List.forall₂_same.2 fun f _ => .refl f

theorem OuterGrows.trans {s s' s'' : Scopes} (h : s.OuterGrows s') (h' : s'.OuterGrows s'') :
    s.OuterGrows s'' := by
  unfold OuterGrows at h h' ⊢
  generalize s.outer = fs, s'.outer = fs', s''.outer = fs'' at h h'
  induction h generalizing fs'' with
  | nil => exact h'
  | cons hfirst _ ih =>
    cases h' with
    | cons hfirst' hrest' => exact .cons (hfirst.trans hfirst') (ih _ hrest')

theorem OuterGrows.locals {s s' : Scopes} (h : s.OuterGrows s') :
    s'.outer.map FunctionScope.locals = s.outer.map FunctionScope.locals := by
  unfold OuterGrows at h
  generalize s.outer = fs, s'.outer = fs' at h
  induction h with
  | nil => rfl
  | cons hfirst _ ih => simp [hfirst.locals, ih]

/-- What capturing a name does to a function and to the functions around it. -/
structure Captured (name : Symbol) (inner : FunctionScope) (outer : List FunctionScope)
    (inner' : FunctionScope) (outer' : List FunctionScope) : Prop where
  found : ∃ f ∈ outer, (f.slot? name).isSome
  grows : inner.Grows inner'
  outerGrows : List.Forall₂ FunctionScope.Grows outer outer'
  sound : inner.Sound → inner'.Sound
  outerSound : (∀ f ∈ outer, f.Sound) → ∀ f ∈ outer', f.Sound
  linked : CapturesLinked inner outer → CapturesLinked inner' outer'
  recorded : ∃ c ∈ inner'.captures, (c.name == name) = true

/-- A name is captured exactly if a function around has a local of that name, and every captured
name still has its source. -/
theorem captureFrom_spec (name : Symbol) (inner : FunctionScope) (outer : List FunctionScope) :
    match captureFrom name inner outer with
    | none => ∀ f ∈ outer, f.slot? name = none
    | some (inner', outer') => Captured name inner outer inner' outer' := by
  induction outer generalizing inner with
  | nil => simp [captureFrom]
  | cons f fs ih =>
    rw [captureFrom]
    cases hslot : f.slot? name with
    | some slot =>
      exact
        { found := ⟨f, by simp, by simp [hslot]⟩
          grows := inner.capture_grows name (.slot slot)
          outerGrows := List.forall₂_same.2 fun g _ => .refl g
          sound := fun hsound => hsound.capture name (.slot slot)
          outerSound := id
          linked := by
            rintro ⟨hlinked, hrest⟩
            refine ⟨?_, hrest⟩
            intro c hmem
            obtain hmem | rfl := FunctionScope.eq_of_mem_capture hmem
            · exact hlinked c hmem
            · exact hslot
          recorded := inner.mem_capture name (.slot slot) }
    | none =>
      have hrest := ih f
      cases hfrom : captureFrom name f fs with
      | none =>
        simp only [hfrom] at hrest
        intro g hmem
        obtain rfl | hmem := List.mem_cons.1 hmem
        · exact hslot
        · exact hrest g hmem
      | some found =>
        obtain ⟨f', fs'⟩ := found
        simp only [hfrom] at hrest
        exact
          { found := by
              obtain ⟨g, hmem, hsome⟩ := hrest.found
              exact ⟨g, by simp [hmem], hsome⟩
            grows := inner.capture_grows name .enclosing
            outerGrows := .cons hrest.grows hrest.outerGrows
            sound := fun hsound => hsound.capture name .enclosing
            outerSound := by
              intro hall g hmem
              obtain rfl | hmem := List.mem_cons.1 hmem
              · exact hrest.sound (hall f (by simp))
              · exact hrest.outerSound (fun g hg => hall g (by simp [hg])) g hmem
            linked := by
              rintro ⟨hlinked, htail⟩
              refine ⟨?_, hrest.linked htail⟩
              intro c hmem
              obtain hmem | rfl := FunctionScope.eq_of_mem_capture hmem
              · exact (hlinked c hmem).grows hrest.grows
              · refine ⟨?_, hrest.recorded⟩
                rw [FunctionScope.slot?_eq_slotIn, hrest.grows.locals]
                exact hslot
            recorded := inner.mem_capture name .enclosing }

theorem isOuter_lexical (s : Scopes) (name : Symbol) :
    s.lexical.isOuter name = true ↔ ∃ f ∈ s.outer, (f.slot? name).isSome := by
  simp [Lexical.isOuter, lexical, FunctionScope.slot?_eq_slotIn]

/-- The result of looking a name up: what the visible names say, with the captures it needs. -/
structure Resolved (s s' : Scopes) (name : Symbol) (found : Variable) : Prop where
  found_eq : found = s.lexical.lookup name
  lexical_eq : s'.lexical = s.lexical
  sound : s'.Sound
  grows : s.current.Grows s'.current
  outerGrows : s.OuterGrows s'
  recorded : found = .captured → ∃ c ∈ s'.current.captures, (c.name == name) = true

theorem resolve_spec {s : Scopes} (hsound : s.Sound) (name : Symbol) :
    Resolved s (s.resolve name).2 name (s.resolve name).1 := by
  have hcapture := captureFrom_spec name s.current s.outer
  unfold resolve
  cases hslot : s.current.slot? name with
  | some slot =>
    refine ⟨?_, rfl, hsound, .refl _, .refl s, nofun⟩
    rw [FunctionScope.slot?_eq_slotIn] at hslot
    simp [Lexical.lookup, lexical, hslot]
  | none =>
    have hlocal : slotIn s.lexical.locals name = none := hslot
    cases hfrom : captureFrom name s.current s.outer with
    | none =>
      simp only [hfrom] at hcapture
      refine ⟨?_, rfl, hsound, .refl _, .refl s, nofun⟩
      have hnot : s.lexical.isOuter name = false := by
        rw [Bool.eq_false_iff, Ne, isOuter_lexical]
        rintro ⟨f, hmem, hsome⟩
        simp [hcapture f hmem] at hsome
      simp [Lexical.lookup, hlocal, hnot]
    | some found =>
      obtain ⟨current, outer⟩ := found
      simp only [hfrom] at hcapture
      refine
        { found_eq := ?_
          lexical_eq := ?_
          sound := ?_
          grows := hcapture.grows
          outerGrows := hcapture.outerGrows
          recorded := fun _ => hcapture.recorded }
      · have houter := (isOuter_lexical s name).2 hcapture.found
        simp [Lexical.lookup, hlocal, houter]
      · have houterGrows : s.OuterGrows ⟨current, outer⟩ := hcapture.outerGrows
        have hsame := houterGrows.locals
        simp only at hsame
        simp [Scopes.lexical, hcapture.grows.locals, hcapture.grows.depth, hsame]
      · exact ⟨hcapture.sound hsound.current, hcapture.outerSound hsound.outer,
          hcapture.linked hsound.linked⟩

theorem liveCount_eq_length {f : FunctionScope} (hdense : DenseSlots f.locals) :
    f.liveCount = f.locals.length := by
  unfold FunctionScope.liveCount
  cases hlocals : f.locals with
  | nil => rfl
  | cons l ls =>
    rw [hlocals] at hdense
    simp [hdense.1]

/-- The scopes after the declaration of a local: it has the next slot of the function. -/
structure Declared (s s' : Scopes) (name : Symbol) (slot : Nat) : Prop where
  slot_eq : slot = s.lexical.locals.length
  lexical_eq : s'.lexical = s.lexical.declared name
  sound : s'.Sound
  slot_lt : slot < s'.current.peak
  peak_le : s.current.peak ≤ s'.current.peak
  captures : s'.current.captures = s.current.captures
  outer : s'.outer = s.outer

theorem declare_spec {s s' : Scopes} (hsound : s.Sound) {name : Symbol} {slot : Nat}
    (hdeclare : s.declare name = .ok (slot, s')) : Declared s s' name slot := by
  have hlive := liveCount_eq_length hsound.current.dense
  unfold declare at hdeclare
  simp only [hlive] at hdeclare
  split at hdeclare
  · cases hdeclare
  split at hdeclare
  · cases hdeclare
  cases hdeclare
  refine
    { slot_eq := rfl
      lexical_eq := rfl
      sound := ?_
      slot_lt := by simp only; omega
      peak_le := by simp only; omega
      captures := rfl
      outer := rfl }
  refine ⟨⟨⟨rfl, hsound.current.dense⟩, ?_, ?_, hsound.current.distinct⟩, hsound.outer, ?_⟩
  · simp only [List.length_cons]
    omega
  · intro l hmem
    obtain rfl | hmem := List.mem_cons.1 hmem
    · exact Nat.le_refl _
    · exact hsound.current.depth_le l hmem
  · have hlinked := hsound.linked
    cases houter : s.outer with
    | nil => rw [houter] at hlinked; exact hlinked
    | cons g gs => rw [houter] at hlinked; exact hlinked

@[simp]
theorem lexical_openScope (s : Scopes) : s.openScope.lexical = s.lexical.opened :=
  rfl

theorem Sound.openScope {s : Scopes} (hsound : s.Sound) : s.openScope.Sound := by
  obtain ⟨⟨hdense, hpeak, hdepth, hdistinct⟩, houter, hlinked⟩ := hsound
  refine ⟨⟨hdense, hpeak, ?_, hdistinct⟩, houter,
    CapturesLinked.congr (f := s.current) rfl hlinked⟩
  intro l hmem
  exact Nat.le_succ_of_le (hdepth l hmem)

/-- Closing the scope in which locals have been declared brings back the names from before. -/
theorem lexical_closeScope {s s' : Scopes} (hsound : s.Sound)
    (hgrows : s.lexical.opened.Grows s'.lexical) : s'.closeScope.2.lexical = s.lexical := by
  obtain ⟨new, hlocals, hnew⟩ := hgrows.locals
  have hdepth : s'.current.depth = s.current.depth + 1 := hgrows.depth
  have houter : s'.outer.map FunctionScope.locals = s.outer.map FunctionScope.locals := hgrows.outer
  have hdrop : s'.current.locals.dropWhile (fun l => decide (s.current.depth < l.depth)) =
      s.current.locals := by
    have hlocals' : s'.current.locals = new ++ s.current.locals := hlocals
    rw [hlocals', List.dropWhile_append_of_pos]
    · cases hcurrent : s.current.locals with
      | nil => rfl
      | cons l ls =>
        have hle := hsound.current.depth_le l (by simp [hcurrent])
        rw [List.dropWhile_cons_of_neg]
        simpa using hle
    · intro l hmem
      have hl : l.depth = s.current.depth + 1 := hnew l hmem
      simp [hl]
  simp only [closeScope, lexical, hdepth, Nat.add_sub_cancel, hdrop, houter]

theorem Sound.closeScope {s s' : Scopes} (hsound : s.Sound) (hsound' : s'.Sound)
    (hgrows : s.lexical.opened.Grows s'.lexical) : s'.closeScope.2.Sound := by
  have hclosed := lexical_closeScope hsound hgrows
  have hlocals : s'.closeScope.2.current.locals = s.current.locals := congrArg Lexical.locals hclosed
  have hdepth : s'.closeScope.2.current.depth = s.current.depth := congrArg Lexical.depth hclosed
  have hsuffix : s'.closeScope.2.current.locals <:+ s'.current.locals := List.dropWhile_suffix _
  refine ⟨⟨hsound'.current.dense.suffix hsuffix, ?_, ?_, hsound'.current.distinct⟩,
    hsound'.outer, CapturesLinked.congr (f := s'.current) rfl hsound'.linked⟩
  · exact Nat.le_trans hsuffix.length_le hsound'.current.length_le_peak
  · intro l hmem
    rw [hlocals] at hmem
    rw [hdepth]
    exact hsound.current.depth_le l hmem

@[simp]
theorem lexical_openFunction (s : Scopes) : s.openFunction.lexical = s.lexical.entered :=
  rfl

theorem Sound.openFunction {s : Scopes} (hsound : s.Sound) : s.openFunction.Sound := by
  refine ⟨⟨trivial, Nat.le_refl _, nofun, .nil⟩, ?_, nofun, hsound.linked⟩
  intro f hmem
  obtain rfl | hmem := List.mem_cons.1 hmem
  · exact hsound.current
  · exact hsound.outer f hmem

end Scopes

end Resumable
