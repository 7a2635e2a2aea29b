import Resumable.Proofs.Expr.Lowered

/-!
Lowering succeeds exactly if every handler has paths for effects and at most one clause without a guard for
each of them.
-/

namespace Resumable

/-- The effects of clauses are paths, and no path has two clauses without a guard. -/
structure ClausesFit (clauses : List (Clause Expr)) : Prop where
  paths : ∀ c ∈ clauses, c.effect.path?.isSome = true
  unguarded : ∀ path, ((clausesFor path clauses).filter fun c => c.guard.isNone).length ≤ 1

namespace Expr

/-- A handler that is written, if the expression is one, has clauses that fit. -/
def HandlerFits (e : Expr) : Prop :=
  ∀ line body clauses, e = handle line body clauses → ClausesFit clauses

end Expr

/-- Reasons against a handler. -/
def CompileError.refusesHandler (e : CompileError) : Bool :=
  match e.problem with
  | .effectNotPath _ | .catchAllRepeated _ => true
  | _ => false

/-- The order of the states of a lowering: groups are numbered upwards, and the errors that are added
are reasons against handlers. -/
structure LowerState.Before (s s' : LowerState) : Prop where
  groups : s.groups ≤ s'.groups
  errors : ∃ more, s'.errors = more ++ s.errors ∧ ∀ e ∈ more, e.refusesHandler = true

namespace LowerState.Before

variable {s s' s'' : LowerState}

theorem refl (s : LowerState) : s.Before s :=
  ⟨Nat.le_refl _, [], rfl, by simp⟩

theorem trans (h : s.Before s') (h' : s'.Before s'') : s.Before s'' := by
  obtain ⟨more, herrors, hmore⟩ := h.errors
  obtain ⟨more', herrors', hmore'⟩ := h'.errors
  refine ⟨Nat.le_trans h.groups h'.groups, more' ++ more, ?_, ?_⟩
  · rw [herrors', herrors, List.append_assoc]
  · exact List.forall_mem_append.2 ⟨hmore', hmore⟩

theorem length_le (h : s.Before s') : s.errors.length ≤ s'.errors.length := by
  obtain ⟨more, herrors, -⟩ := h.errors
  simp [herrors]

end LowerState.Before

/-- A lowering leads from a state to a later one. -/
def Climbed {α : Type} (s : LowerState) : EStateM.Result CompileError LowerState α → Prop
  | .ok _ s' => s.Before s'
  | .error e s' => s.Before s' ∧ e.refusesHandler = true

theorem Climbed.after {α : Type} {s s₁ : LowerState}
    {r : EStateM.Result CompileError LowerState α} (h : Climbed s₁ r) (hbefore : s.Before s₁) :
    Climbed s r := by
  cases r with
  | ok a s' => exact hbefore.trans h
  | error e s' => exact ⟨hbefore.trans h.1, h.2⟩

/-- Lowering leads to later states. -/
def Climbs {α : Type} (x : Lower α) : Prop :=
  ∀ s, Climbed s (x s)

theorem Climbs.bind {α β : Type} {x : Lower α} {f : α → Lower β} (hx : Climbs x)
    (hf : ∀ a, Climbs (f a)) : Climbs (x >>= f) := by
  intro s
  have hfirst := hx s
  cases hrun : x s with
  | error e s' =>
    rw [hrun] at hfirst
    rwa [bind_of_error hrun]
  | ok a s' =>
    rw [hrun] at hfirst
    rw [bind_of_ok hrun]
    exact (hf a s').after hfirst

/-- A result that is a value found without an error exactly if `P` holds, and then has the property
`Q`. -/
def Found {α : Type} (P : Prop) (Q : α → Prop) (s : LowerState) :
    EStateM.Result CompileError LowerState α → Prop
  | .ok a s' => (s'.errors.length = s.errors.length ↔ P) ∧ (P → Q a)
  | .error _ _ => ¬ P

/-- A lowering leads to later states, and what it finds is as `P` and `Q` say. -/
structure Judged {α : Type} (P : Prop) (Q : α → Prop) (s : LowerState)
    (r : EStateM.Result CompileError LowerState α) : Prop where
  climbed : Climbed s r
  found : Found P Q s r

/-- All results of a lowering are as `P` and `Q` say. -/
def Judges {α : Type} (P : Prop) (Q : α → Prop) (x : Lower α) : Prop :=
  ∀ s, Judged P Q s (x s)

section Judged

variable {α β : Type} {P R : Prop} {Q : α → Prop} {Q' : β → Prop} {s : LowerState} {x : Lower α}
  {f : α → Lower β}

theorem Judged.congr {r : EStateM.Result CompileError LowerState α} {Q₂ : α → Prop}
    (h : Judged P Q s r) (hP : P ↔ R) (hQ : ∀ a, R → Q a → Q₂ a) : Judged R Q₂ s r := by
  obtain ⟨hclimbed, hfound⟩ := h
  refine ⟨hclimbed, ?_⟩
  cases r with
  | ok a s' => exact ⟨hfound.1.trans hP, fun hR => hQ a hR (hfound.2 (hP.2 hR))⟩
  | error e s' => exact mt hP.2 hfound

/-- Nothing is lost by starting at an earlier state with as many errors. -/
theorem Judged.from {t : LowerState} {r : EStateM.Result CompileError LowerState α}
    (h : Judged P Q s r) (hbefore : t.Before s) (herrors : s.errors.length = t.errors.length) :
    Judged P Q t r := by
  obtain ⟨hclimbed, hfound⟩ := h
  refine ⟨hclimbed.after hbefore, ?_⟩
  cases r with
  | ok a s' => exact ⟨herrors ▸ hfound.1, hfound.2⟩
  | error e s' => exact hfound

theorem Judges.climbs (h : Judges P Q x) : Climbs x :=
  fun s => (h s).climbed

theorem Judges.congr {Q₂ : α → Prop} (h : Judges P Q x) (hP : P ↔ R) (hQ : ∀ a, R → Q a → Q₂ a) :
    Judges R Q₂ x :=
  fun s => (h s).congr hP hQ

theorem Judges.mono {Q₂ : α → Prop} (h : Judges P Q x) (hQ : ∀ a, P → Q a → Q₂ a) : Judges P Q₂ x :=
  h.congr Iff.rfl hQ

theorem Judges.ret {a : α} (hQ : Q a) : Judges True Q (pure a) :=
  fun s => ⟨.refl s, by simp, fun _ => hQ⟩

/-- What is found depends on both of two actions in a row. Of the second one it needs to be known only
that it leads to later states, if the first has found an error. -/
theorem Judged.bind (hx : Judged P Q s (x s))
    (hclimbs : ∀ a s', x s = .ok a s' → Climbs (f a))
    (hf : ∀ a s', x s = .ok a s' → P → Q a → s.Before s' → Judged R Q' s' (f a s')) :
    Judged (P ∧ R) Q' s ((x >>= f) s) := by
  cases hrun : x s with
  | error e s' =>
    rw [bind_of_error hrun]
    rw [hrun] at hx
    exact ⟨hx.climbed, fun h => hx.found h.1⟩
  | ok a s' =>
    rw [bind_of_ok hrun]
    rw [hrun] at hx
    obtain ⟨hbefore, hquiet, hQ⟩ := hx
    have hlater := hclimbs a s' hrun s'
    refine ⟨hlater.after hbefore, ?_⟩
    by_cases hP : P
    · have hrest := (hf a s' hrun hP (hQ hP) hbefore).found
      cases hnext : f a s' with
      | error e s'' =>
        rw [hnext] at hrest
        exact fun h => hrest h.2
      | ok b s'' =>
        rw [hnext] at hrest
        refine ⟨?_, fun h => hrest.2 h.2⟩
        rw [← hquiet.2 hP, hrest.1]
        exact ⟨fun h => ⟨hP, h⟩, And.right⟩
    · have hnoisy : s'.errors.length ≠ s.errors.length := fun h => hP (hquiet.1 h)
      cases hnext : f a s' with
      | error e s'' => exact fun h => hP h.1
      | ok b s'' =>
        rw [hnext] at hlater
        refine ⟨⟨fun h => ?_, fun h => absurd h.1 hP⟩, fun h => absurd h.1 hP⟩
        have := LowerState.Before.length_le hbefore
        have := LowerState.Before.length_le hlater
        omega

theorem Judges.bind (hx : Judges P Q x)
    (hf : ∀ a, Judges R (fun b => Q a → Q' b) (f a)) : Judges (P ∧ R) Q' (x >>= f) := by
  intro s
  refine (hx s).bind (fun a _ _ => (hf a).climbs) fun a s' _ _ hQ _ => ?_
  exact (hf a).mono (fun b _ h => h hQ) s'

end Judged

namespace Expr

theorem every_iff {P : Expr → Prop} {e : Expr} :
    e.Every P ↔ P e ∧ ∀ part ∈ e.parts, part.Every P :=
  ⟨fun h => ⟨h.here, fun _ => h.part⟩, fun h => .intro h.1 h.2⟩

theorem every_handlerFits_iff {e : Expr} (he : e.isHandle = false) :
    e.Every HandlerFits ↔ ∀ part ∈ e.parts, part.Every HandlerFits := by
  refine every_iff.trans (and_iff_right ?_)
  rintro line body clauses rfl
  cases he

/-- There are no handlers in a path. -/
theorem every_of_path {e : Expr} (hpath : e.path?.isSome = true) : e.Every HandlerFits := by
  match e with
  | name _ _ => exact (every_handlerFits_iff rfl).2 (by simp [parts])
  | field _ target _ =>
    rw [path?, Option.isSome_map] at hpath
    refine (every_handlerFits_iff rfl).2 fun part hmem => ?_
    rw [List.mem_singleton.1 hmem]
    exact every_of_path hpath

end Expr

/-- Only of a handler more is asked than of its parts. -/
theorem Judges.every {α : Type} {P : Prop} {Q : α → Prop} {x : Lower α} {e : Expr} (h : Judges P Q x)
    (he : e.isHandle = false) (hparts : P ↔ ∀ part ∈ e.parts, part.Every Expr.HandlerFits) :
    Judges (e.Every Expr.HandlerFits) Q x :=
  h.congr (hparts.trans (Expr.every_handlerFits_iff he).symm) fun _ _ h => h

theorem lowerAll_judges {es : List Expr}
    (hes : ∀ e ∈ es, Judges (e.Every Expr.HandlerFits) e.Lowered e.lower) (done : List Expr) :
    Judges (∀ e ∈ es, e.Every Expr.HandlerFits)
      (fun r => ∃ es', r = done.reverse ++ es' ∧ LoweredAll es es') (lowerAll done es) := by
  induction es generalizing done with
  | nil =>
    intro s
    rw [lowerAll]
    exact (Judges.ret ⟨[], by simp, .nil⟩ s).congr (by simp) fun _ _ h => h
  | cons e es ih =>
    obtain ⟨he, hrest⟩ := List.forall_mem_cons.1 hes
    intro s
    rw [lowerAll]
    refine (he.bind fun e' => (ih hrest (e' :: done)).mono ?_) s |>.congr
      List.forall_mem_cons.symm fun _ _ h => h
    rintro _ - ⟨es', rfl, hes⟩ he'
    exact ⟨e' :: es', by simp, .cons he' hes⟩

theorem lowerFields_judges {fields : List (String × Expr)}
    (hfields : ∀ f ∈ fields, Judges (f.2.Every Expr.HandlerFits) f.2.Lowered f.2.lower)
    (done : List (String × Expr)) :
    Judges (∀ f ∈ fields, f.2.Every Expr.HandlerFits)
      (fun r => ∃ fields', r = done.reverse ++ fields' ∧ LoweredFields fields fields')
      (lowerFields done fields) := by
  induction fields generalizing done with
  | nil =>
    intro s
    rw [lowerFields]
    exact (Judges.ret ⟨[], by simp, .nil⟩ s).congr (by simp) fun _ _ h => h
  | cons f fields ih =>
    obtain ⟨name, e⟩ := f
    obtain ⟨he, hrest⟩ := List.forall_mem_cons.1 hfields
    intro s
    rw [lowerFields]
    refine (he.bind fun e' => (ih hrest ((name, e') :: done)).mono ?_) s |>.congr
      (R := ∀ f ∈ (name, e) :: fields, _) (by rw [List.forall_mem_cons]) fun _ _ h => h
    rintro _ - ⟨fields', rfl, hfields⟩ he'
    exact ⟨(name, e') :: fields', by simp, .cons he' hfields⟩

theorem lowerPairs_judges {pairs : List (Expr × Expr)}
    (hpairs : ∀ p ∈ pairs, Judges (p.1.Every Expr.HandlerFits) p.1.Lowered p.1.lower ∧
      Judges (p.2.Every Expr.HandlerFits) p.2.Lowered p.2.lower)
    (done : List (Expr × Expr)) :
    Judges (∀ p ∈ pairs, p.1.Every Expr.HandlerFits ∧ p.2.Every Expr.HandlerFits)
      (fun r => ∃ pairs', r = done.reverse ++ pairs' ∧ LoweredPairs pairs pairs')
      (lowerPairs done pairs) := by
  induction pairs generalizing done with
  | nil =>
    intro s
    rw [lowerPairs]
    exact (Judges.ret ⟨[], by simp, .nil⟩ s).congr (by simp) fun _ _ h => h
  | cons p pairs ih =>
    obtain ⟨effect, function⟩ := p
    obtain ⟨⟨heffect, hfunction⟩, hrest⟩ := List.forall_mem_cons.1 hpairs
    intro s
    rw [lowerPairs]
    refine (heffect.bind fun effect' => ?_) s |>.congr (R := ∀ p ∈ (effect, function) :: pairs, _)
      (by rw [List.forall_mem_cons, and_assoc]) fun _ _ h => h
    refine hfunction.bind fun function' =>
      (ih hrest ((effect', function') :: done)).mono ?_
    rintro _ - ⟨pairs', rfl, hpairs⟩ hfunction' heffect'
    exact ⟨(effect', function') :: pairs', by simp, .cons heffect' hfunction' hpairs⟩

/-- The parts of clauses are lowered well. -/
def ClausesJudged (clauses : List (Clause Expr)) : Prop :=
  ∀ c ∈ clauses, ∀ part ∈ c.loweredParts, Judges (part.Every Expr.HandlerFits) part.Lowered part.lower

/-- Clauses of one path that have been lowered, behind those that are done. -/
structure ClausesLowered (done lowered : LoweredGroup) (clauses : List (Clause Expr)) : Prop where
  guarded : ∃ guarded : List (Expr × LoweredClause), lowered.guarded = guarded.reverse ++ done.guarded ∧
    ∀ (line : Nat) (effect arg k : String) (all : List (Clause Expr)) (last : Expr),
      TriesLowered line effect arg k all [] last →
      TriesLowered line effect arg k all clauses
        (guarded.foldr (fun g next =>
          .cond g.2.line (g.2.test g.1 arg) (g.2.bound arg k) (some next)) last)
  catchAll : match done.catchAll, clauses.find? fun c => c.guard.isNone with
    | some c, found => lowered.catchAll = some c ∧ found = none
    | none, some c => ∃ body, c.body.Lowered body ∧ lowered.catchAll = some (c.lowered body)
    | none, none => lowered.catchAll = none

/-- The body of the function for a path tries all its clauses. -/
theorem ClausesLowered.body {lowered : LoweredGroup} {clauses : List (Clause Expr)}
    (h : ClausesLowered {} lowered clauses) (line : Nat) (effect arg k : String) :
    TriesLowered line effect arg k clauses clauses (lowered.body line effect arg k) := by
  obtain ⟨⟨guarded, heq, htries⟩, hcatch⟩ := h
  rw [List.append_nil] at heq
  rw [LoweredGroup.body, heq, List.foldl_reverse]
  refine htries _ _ _ _ _ _ ?_
  cases hfind : clauses.find? fun c => c.guard.isNone with
  | some c =>
    rw [hfind] at hcatch
    obtain ⟨body, hbody, hsome⟩ := hcatch
    rw [hsome]
    exact .catchAll hfind hbody
  | none =>
    rw [hfind] at hcatch
    rw [show lowered.catchAll = none from hcatch]
    exact .again hfind

/-- The clauses for a path are lowered one after the other, unless a second one has no guard. -/
theorem ClauseGroup.lowerClauses_judges (key : String) {clauses : List (Clause Expr)}
    (hclauses : ClausesJudged clauses) (done : LoweredGroup) :
    Judges ((∀ c ∈ clauses, ∀ part ∈ c.loweredParts, part.Every Expr.HandlerFits) ∧
        (clauses.filter fun c => c.guard.isNone).length + done.catchAll.toList.length ≤ 1)
      (fun lowered => ClausesLowered done lowered clauses)
      (lowerClauses key done (clauses.map Clause.pending)) := by
  induction clauses generalizing done with
  | nil =>
    intro s
    rw [List.map_nil, lowerClauses]
    refine (Judges.ret (Q := fun lowered => ClausesLowered done lowered [])
      ⟨⟨[], rfl, fun _ _ _ _ _ _ h => h⟩, ?_⟩ s).congr ?_ fun _ _ h => h
    · cases done.catchAll with
      | none => exact rfl
      | some c => exact ⟨rfl, rfl⟩
    · cases done.catchAll <;> simp
  | cons c clauses ih =>
    obtain ⟨hc, hrest⟩ := List.forall_mem_cons.1 hclauses
    have hbody : Judges (c.body.Every Expr.HandlerFits) c.body.Lowered c.body.lower :=
      hc c.body (by simp [Clause.loweredParts])
    intro s
    rw [List.map_cons, lowerClauses]
    cases hguard : c.guard with
    | some guard =>
      have hpending : c.pending.guard = some guard.lower := by simp [Clause.pending, hguard]
      have hparts : c.loweredParts = [guard, c.body] := by simp [Clause.loweredParts, hguard]
      simp only [hpending]
      have hnext (guard' body : Expr) : Judges
          ((∀ c ∈ clauses, ∀ part ∈ c.loweredParts, part.Every Expr.HandlerFits) ∧
            (clauses.filter fun c => c.guard.isNone).length + done.catchAll.toList.length ≤ 1)
          (fun lowered => c.body.Lowered body → guard.Lowered guard' →
            ClausesLowered done lowered (c :: clauses))
          (lowerClauses key { done with guarded := (guard', c.lowered body) :: done.guarded }
            (clauses.map Clause.pending)) := by
        refine (ih hrest { done with guarded := (guard', c.lowered body) :: done.guarded }).mono ?_
        rintro lowered - ⟨⟨guarded, heq, htries⟩, hcatch⟩ hbody' hguard'
        refine ⟨⟨(guard', c.lowered body) :: guarded, ?_, ?_⟩, ?_⟩
        · rw [heq, List.reverse_cons, List.append_assoc]
          rfl
        · intro line effect arg k all last hlast
          exact .guarded hguard hguard' hbody' (htries line effect arg k all last hlast)
        · simpa [List.find?_cons, hguard] using hcatch
      refine ((hc guard (by simp [hparts])).bind fun guard' => hbody.bind (hnext guard')) s |>.congr ?_
        fun _ _ h => h
      simp [hparts, hguard, and_assoc]
    | none =>
      have hpending : c.pending.guard = none := by simp [Clause.pending, hguard]
      have hparts : c.loweredParts = [c.body] := by simp [Clause.loweredParts, hguard]
      simp only [hpending]
      cases hdone : done.catchAll with
      | some d =>
        -- Whatever the body is lowered to, this clause is one too many.
        have htwo : ¬ ((c :: clauses).filter fun c => c.guard.isNone).length +
            (some d).toList.length ≤ 1 := by
          simp [hguard]
        have hclimbed := hbody.climbs s
        cases hrun : c.body.lower s with
        | ok body s' =>
          rw [hrun] at hclimbed
          rw [show c.pending.body = c.body.lower from rfl, bind_of_ok hrun]
          exact ⟨⟨hclimbed, rfl⟩, fun h => htwo h.2⟩
        | error e s' =>
          rw [hrun] at hclimbed
          rw [show c.pending.body = c.body.lower from rfl, bind_of_error hrun]
          exact ⟨hclimbed, fun h => htwo h.2⟩
      | none =>
        have hnext (body : Expr) : Judges
            ((∀ c ∈ clauses, ∀ part ∈ c.loweredParts, part.Every Expr.HandlerFits) ∧
              (clauses.filter fun c => c.guard.isNone).length + 1 ≤ 1)
            (fun lowered => c.body.Lowered body → ClausesLowered done lowered (c :: clauses))
            (lowerClauses key { done with catchAll := some (c.lowered body) }
              (clauses.map Clause.pending)) := by
          refine (ih hrest { done with catchAll := some (c.lowered body) }).mono ?_
          rintro lowered - ⟨⟨guarded, heq, htries⟩, hcatch⟩ hbody'
          refine ⟨⟨guarded, heq, ?_⟩, ?_⟩
          · intro line effect arg k all last hlast
            exact .unguarded hguard (htries line effect arg k all last hlast)
          · have hfound : (c :: clauses).find? (fun c => c.guard.isNone) = some c := by
              simp [hguard]
            rw [hfound, hdone]
            exact ⟨body, hbody', hcatch.1⟩
        refine (hbody.bind hnext) s |>.congr ?_ fun _ _ h => h
        simp [hparts, hguard, and_assoc]

/-- Clauses are grouped without an error that stops. One is reported exactly if the effect of a clause is
no path, and no clauses are in the groups but these. -/
theorem ClauseGroup.collect_spec (groups : List ClauseGroup) (clauses : List (Expr × PendingClause))
    (s : LowerState) : ∃ groups' s', collect groups clauses s = .ok groups' s' ∧ s.Before s' ∧
      (s'.errors.length = s.errors.length ↔ ∀ c ∈ clauses, c.1.path?.isSome = true) ∧
      ∀ g' ∈ groups', ∀ d ∈ g'.clauses,
        (∃ g ∈ groups, d ∈ g.clauses) ∨ d ∈ clauses.map Prod.snd := by
  induction clauses generalizing groups s with
  | nil => exact ⟨groups, s, by rw [collect]; rfl, .refl s, by simp, fun g hg d hd => Or.inl ⟨g, hg, hd⟩⟩
  | cons c clauses ih =>
    obtain ⟨effect, clause⟩ := c
    rw [collect]
    cases hpath : effect.path? with
    | some key =>
      obtain ⟨groups', s', hrun, hbefore, hquiet, hmem⟩ := ih (insert key effect clause groups) s
      refine ⟨groups', s', hrun, hbefore, by simp [hquiet, hpath], fun g hg d hd => ?_⟩
      obtain ⟨g', hg', hd'⟩ | hd := hmem g hg d hd
      · exact (mem_insert hg' hd').symm.imp_right fun h => by simp [h]
      · exact Or.inr (.tail _ hd)
    | none =>
      obtain ⟨groups', s', hrun, hbefore, hquiet, hmem⟩ := ih groups
        { s with errors := ⟨.effectNotPath effect.kind, clause.line⟩ :: s.errors }
      have hfirst : s.Before
          { s with errors := ⟨.effectNotPath effect.kind, clause.line⟩ :: s.errors } :=
        ⟨Nat.le_refl _, [_], rfl, by simp [CompileError.refusesHandler]⟩
      refine ⟨groups', s', hrun, hfirst.trans hbefore, ?_, fun g hg d hd => ?_⟩
      · have hmore : s.errors.length + 1 ≤ s'.errors.length := hbefore.length_le
        have hne : s'.errors.length ≠ s.errors.length := by omega
        simp [hpath, hne]
      · exact (hmem g hg d hd).imp_right (.tail _)

section Groups

variable {clauses : List (Clause Expr)}

theorem exists_map_pending {pending : List PendingClause}
    (hmem : ∀ d ∈ pending, d ∈ clauses.map Clause.pending) :
    ∃ cs : List (Clause Expr), pending = cs.map Clause.pending ∧ ∀ c ∈ cs, c ∈ clauses := by
  induction pending with
  | nil => exact ⟨[], rfl, by simp⟩
  | cons d pending ih =>
    obtain ⟨hd, hrest⟩ := List.forall_mem_cons.1 hmem
    obtain ⟨c, hc, rfl⟩ := List.mem_map.1 hd
    obtain ⟨cs, rfl, hcs⟩ := ih hrest
    exact ⟨c :: cs, rfl, List.forall_mem_cons.2 ⟨hc, hcs⟩⟩

/-- The groups of a handler, also of one that does not fit, are lowered to later states. -/
theorem lowerGroups_climbs (line : Nat) (hclauses : ClausesJudged clauses) {groups : List ClauseGroup}
    (hgroups : ∀ g ∈ groups, ∀ d ∈ g.clauses, d ∈ clauses.map Clause.pending) (bindings : List Expr)
    (functions : List (Expr × Expr)) : Climbs (lowerGroups line bindings functions groups) := by
  induction groups generalizing bindings functions with
  | nil => exact fun s => .refl s
  | cons g groups ih =>
    obtain ⟨hg, hrest⟩ := List.forall_mem_cons.1 hgroups
    obtain ⟨cs, hcs, hmem⟩ := exists_map_pending hg
    have hfirst := (ClauseGroup.lowerClauses_judges g.key (fun c hc => hclauses c (hmem c hc)) {}).climbs
    intro s
    rw [lowerGroups, bind_get_run, bind_of_ok (modify_run _ _), hcs]
    exact ((hfirst.bind fun lowered => ih hrest _ _) _).after ⟨Nat.le_succ _, [], rfl, by simp⟩

/-- The clauses for a path fit, and handlers in them do. -/
def PathFits (clauses : List (Clause Expr)) (path : String) : Prop :=
  (∀ c ∈ clausesFor path clauses, ∀ part ∈ c.loweredParts, part.Every Expr.HandlerFits) ∧
    ((clausesFor path clauses).filter fun c => c.guard.isNone).length ≤ 1

/-- What has been made for the first clauses for some of the paths. -/
structure FunctionsLowered (line from_ : Nat) (clauses heads : List (Clause Expr))
    (ps : List PathFunction) : Prop where
  heads : ps.map PathFunction.head = heads
  above : ∀ p ∈ ps, from_ ≤ p.number
  numbers : ps.Pairwise fun p q => p.number < q.number
  bodies : ∀ p ∈ ps, TriesLowered line p.effect p.arg p.k (clausesFor p.head.path clauses)
    (clausesFor p.head.path clauses) p.body

theorem lowerGroups_judged (line : Nat) (hclauses : ClausesJudged clauses)
    {heads : List (Clause Expr)} (hheads : ∀ c ∈ heads, c ∈ clauses) (bindings : List Expr)
    (functions : List (Expr × Expr)) (s : LowerState) :
    Judged (∀ c ∈ heads, PathFits clauses c.path)
      (fun r => ∃ ps, FunctionsLowered line s.groups clauses heads ps ∧
        r = ((ps.map (·.binding line)).reverse ++ bindings, (ps.map (·.clause line)).reverse ++ functions))
      s (lowerGroups line bindings functions (heads.map (groupOf clauses)) s) := by
  induction heads generalizing bindings functions s with
  | nil =>
    refine (Judges.ret (Q := fun r => ∃ ps, FunctionsLowered line s.groups clauses [] ps ∧
      r = ((ps.map (·.binding line)).reverse ++ bindings, (ps.map (·.clause line)).reverse ++ functions))
      ⟨[], ⟨rfl, by simp, .nil, by simp⟩, rfl⟩ s).congr (by simp) fun _ _ h => h
  | cons c heads ih =>
    obtain ⟨hc, hrest⟩ := List.forall_mem_cons.1 hheads
    have hfirst := ClauseGroup.lowerClauses_judges c.path
      (fun d hd => hclauses d (mem_clausesFor.1 hd).1 : ClausesJudged (clausesFor c.path clauses)) {}
    rw [List.map_cons, lowerGroups, bind_get_run, bind_of_ok (modify_run _ _)]
    refine ((Judged.bind (R := ∀ c ∈ heads, PathFits clauses c.path)
      (hfirst { s with groups := s.groups + 1 }) ?_ ?_).from (t := s)
        ⟨Nat.le_succ _, [], rfl, by simp⟩ rfl).congr (by simp [PathFits]) fun _ _ h => h
    · intro lowered s' _
      refine lowerGroups_climbs line hclauses (fun g hg d hd => ?_) _ _
      obtain ⟨c', -, rfl⟩ := List.mem_map.1 hg
      obtain ⟨d', hd', rfl⟩ := List.mem_map.1 hd
      exact List.mem_map_of_mem (mem_clausesFor.1 hd').1
    · intro lowered s' _ _ hlowered hbefore
      refine (ih hrest _ _ s').congr Iff.rfl ?_
      rintro _ - ⟨ps, hps, rfl⟩
      have hnumber : s.groups + 1 ≤ s'.groups := hbefore.groups
      let number := toString s.groups
      refine ⟨⟨s.groups, c, lowered.body line ("$eff" ++ number) ("$arg" ++ number)
        ("$k" ++ number)⟩ :: ps, ⟨?_, ?_, ?_, ?_⟩, ?_⟩
      · rw [List.map_cons, hps.heads]
      · refine List.forall_mem_cons.2 ⟨Nat.le_refl _, fun p hp => ?_⟩
        have := hps.above p hp
        omega
      · refine List.pairwise_cons.2 ⟨fun p hp => ?_, hps.numbers⟩
        exact Nat.lt_of_lt_of_le hnumber (hps.above p hp)
      · exact List.forall_mem_cons.2 ⟨hlowered.body _ _ _ _, hps.bodies⟩
      · rw [List.map_cons, List.map_cons, List.reverse_cons, List.reverse_cons, List.append_assoc,
          List.append_assoc]
        rfl

/-- What a handler asks of its clauses is asked path by path. -/
theorem clausesFit_iff : (∀ c ∈ clauses, c.effect.path?.isSome = true) ∧
      (∀ c ∈ firstClauses clauses, PathFits clauses c.path) ↔
    ClausesFit clauses ∧ ∀ c ∈ clauses, ∀ part ∈ c.loweredParts, part.Every Expr.HandlerFits := by
  constructor
  · rintro ⟨hpaths, hfirst⟩
    refine ⟨⟨hpaths, fun path => ?_⟩, fun d hd => ?_⟩
    · by_cases hmem : path ∈ clauses.map Clause.path
      · obtain ⟨c, hc, rfl⟩ := List.mem_map.1 ((mem_paths_firstClauses _ _).2 hmem)
        exact (hfirst c hc).2
      · have hnone : clausesFor path clauses = [] := by
          refine List.filter_eq_nil_iff.2 fun d hd hsame => hmem ?_
          exact List.mem_map.2 ⟨d, hd, of_decide_eq_true hsame⟩
        simp [hnone]
    · obtain ⟨c, hc, hsame⟩ := List.mem_map.1
        ((mem_paths_firstClauses _ _).2 (List.mem_map_of_mem hd))
      exact (hfirst c hc).1 d (mem_clausesFor.2 ⟨hd, hsame.symm⟩)
  · rintro ⟨hfit, hparts⟩
    exact ⟨hfit.paths, fun c _ => ⟨fun d hd => hparts d (mem_clausesFor.1 hd).1, hfit.unguarded _⟩⟩

/-- A handler is lowered exactly if its clauses fit and their parts are lowered. -/
theorem lowerHandle_judges (line : Nat) (body' : Expr) (hclauses : ClausesJudged clauses) :
    Judges (ClausesFit clauses ∧ ∀ c ∈ clauses, ∀ part ∈ c.loweredParts, part.Every Expr.HandlerFits)
      (fun e => ∀ body : Expr, body.Lowered body' → (Expr.handle line body clauses).Lowered e)
      (lowerHandle line body' (pendingClauses clauses)) := by
  intro s
  rw [pendingClauses_eq]
  have hcollect : Judged (∀ c ∈ clauses, c.effect.path?.isSome = true)
      (fun groups => groups = (firstClauses clauses).map (groupOf clauses)) s
      (ClauseGroup.collect [] (clauses.map fun c => (c.effect, c.pending)) s) := by
    obtain ⟨groups, s', hrun, hbefore, hquiet, -⟩ :=
      ClauseGroup.collect_spec [] (clauses.map fun c => (c.effect, c.pending)) s
    rw [hrun]
    refine ⟨hbefore, hquiet.trans (by simp), fun hpaths => ?_⟩
    have hgroups := ClauseGroup.collect_groupOf hpaths [] s
    rw [List.nil_append] at hgroups
    exact (EStateM.Result.ok.inj (hrun.symm.trans hgroups)).1
  refine (hcollect.bind ?_ ?_).congr clausesFit_iff fun _ _ h => h
  · intro groups s' hrun
    obtain ⟨_, _, hrun', -, -, hmem⟩ :=
      ClauseGroup.collect_spec [] (clauses.map fun c => (c.effect, c.pending)) s
    obtain ⟨rfl, rfl⟩ := EStateM.Result.ok.inj (hrun.symm.trans hrun')
    refine (lowerGroups_climbs line hclauses (fun g hg d hd => ?_) _ _).bind fun r =>
      (Judges.ret (Q := fun _ => True) trivial).climbs
    simpa using hmem g hg d hd
  · rintro groups s' - hpaths rfl -
    have hgroups := lowerGroups_judged line hclauses
      (fun c hc => mem_of_mem_firstClauses hc) [] [] s'
    refine (hgroups.bind (R := True) (fun r _ _ => ?_) ?_).congr (by simp) fun _ _ h => h
    · exact (Judges.ret (Q := fun _ => True) trivial).climbs
    · rintro _ s'' - - ⟨ps, hps, rfl⟩ -
      refine Judges.ret (fun body hbody => ?_) s''
      have hlowered : (Expr.handle line body clauses).Lowered _ :=
        .handle hbody hpaths hps.heads hps.numbers hps.bodies
      simpa using hlowered

end Groups

theorem handle_every_iff {line : Nat} {body : Expr} {clauses : List (Clause Expr)} :
    (Expr.handle line body clauses).Every Expr.HandlerFits ↔ body.Every Expr.HandlerFits ∧
      ClausesFit clauses ∧ ∀ c ∈ clauses, ∀ part ∈ c.loweredParts, part.Every Expr.HandlerFits := by
  have hpart (c : Clause Expr) (part : Expr) :
      part ∈ c.effect :: c.body :: c.guard.toList ↔ part = c.effect ∨ part ∈ c.loweredParts := by
    simp [Clause.loweredParts, or_comm]
  have hclauses (part : Expr) : part ∈ (Expr.handle line body clauses).parts ↔
      part = body ∨ ∃ c ∈ clauses, part = c.effect ∨ part ∈ c.loweredParts := by
    simp only [Expr.parts, List.mem_cons, List.mem_flatMap, ← hpart]
  rw [Expr.every_iff]
  constructor
  · rintro ⟨hhere, hparts⟩
    refine ⟨hparts _ ((hclauses _).2 (Or.inl rfl)), hhere _ _ _ rfl, fun c hc part hmem => ?_⟩
    exact hparts _ ((hclauses _).2 (Or.inr ⟨c, hc, Or.inr hmem⟩))
  · rintro ⟨hbody, hfit, hparts⟩
    refine ⟨?_, fun part hmem => ?_⟩
    · rintro _ _ _ ⟨⟩
      exact hfit
    · obtain rfl | ⟨c, hc, rfl | hmem⟩ := (hclauses part).1 hmem
      · exact hbody
      · exact Expr.every_of_path (hfit.paths c hc)
      · exact hparts c hc part hmem

/-- Lowering an expression succeeds exactly if all handlers in it fit. -/
theorem Expr.lower_judges (e : Expr) : Judges (e.Every HandlerFits) e.Lowered e.lower := by
  have ih : ∀ part ∈ e.parts, Judges (part.Every HandlerFits) part.Lowered part.lower :=
    fun part hmem =>
      have := sizeOf_lt_of_mem_parts hmem
      lower_judges part
  cases e with
  | call line callee args =>
    obtain ⟨hcallee, hargs⟩ := List.forall_mem_cons.1 ih
    rw [lower]
    refine Judges.every (hcallee.bind fun callee' => (lowerAll_judges hargs []).bind fun args' =>
      .ret ?_) rfl (by simp [parts])
    rintro ⟨_, rfl, hargs'⟩ hcallee'
    exact .call hcallee' hargs'
  | cond line test whenTrue whenFalse =>
    obtain ⟨htest, ih⟩ := List.forall_mem_cons.1 ih
    obtain ⟨htrue, ih⟩ := List.forall_mem_cons.1 ih
    cases whenFalse with
    | none =>
      rw [lower]
      refine Judges.every (htest.bind fun test' => htrue.bind fun whenTrue' => .ret ?_) rfl
        (by simp [parts])
      exact fun htrue' htest' => .condOnly htest' htrue'
    | some whenFalse =>
      have hfalse := ih whenFalse (by simp)
      rw [lower]
      refine Judges.every (htest.bind fun test' => htrue.bind fun whenTrue' =>
        hfalse.bind fun whenFalse' => .ret ?_) rfl (by simp [parts])
      exact fun hfalse' htrue' htest' => .condElse htest' htrue' hfalse'
  | lambda line name params body =>
    rw [lower]
    exact ((ih body (by simp [parts])).bind fun body' => .ret .lambda).every rfl (by simp [parts])
  | declare line name value =>
    rw [lower]
    exact ((ih value (by simp [parts])).bind fun value' => .ret .declare).every rfl (by simp [parts])
  | assign line name value =>
    rw [lower]
    exact ((ih value (by simp [parts])).bind fun value' => .ret .assign).every rfl (by simp [parts])
  | field line target name =>
    rw [lower]
    exact ((ih target (by simp [parts])).bind fun target' => .ret .field).every rfl (by simp [parts])
  | block line body =>
    rw [lower]
    refine Judges.every ((lowerAll_judges ih []).bind fun body' => .ret ?_) rfl (by simp [parts])
    rintro ⟨_, rfl, hbody'⟩
    exact .block hbody'
  | list line items =>
    rw [lower]
    refine Judges.every ((lowerAll_judges ih []).bind fun items' => .ret ?_) rfl (by simp [parts])
    rintro ⟨_, rfl, hitems'⟩
    exact .list hitems'
  | tuple line items =>
    rw [lower]
    refine Judges.every ((lowerAll_judges ih []).bind fun items' => .ret ?_) rfl (by simp [parts])
    rintro ⟨_, rfl, hitems'⟩
    exact .tuple hitems'
  | record line fields =>
    rw [lower]
    refine Judges.every ((lowerFields_judges (fun f hf => ih f.2 (List.mem_map_of_mem hf)) []).bind
      fun fields' => .ret ?_) rfl (by simpa [parts] using forall_comm)
    rintro ⟨_, rfl, hfields'⟩
    exact .record hfields'
  | handle line body clauses =>
    obtain ⟨hbody, ih⟩ := List.forall_mem_cons.1 ih
    have hclauses : ClausesJudged clauses := by
      intro c hc part hpart
      refine ih part (List.mem_flatMap.2 ⟨c, hc, List.mem_cons_of_mem _ ?_⟩)
      simpa [Clause.loweredParts, or_comm] using hpart
    rw [lower]
    refine (hbody.bind fun body' => (lowerHandle_judges line body' hclauses).mono ?_).congr
      handle_every_iff.symm fun _ _ h => h
    exact fun e' _ hhandle hbody' => hhandle body hbody'
  | handled line pairs body =>
    obtain ⟨hbody, ih⟩ := List.forall_mem_cons.1 ih
    have hpairs : ∀ p ∈ pairs, Judges (p.1.Every HandlerFits) p.1.Lowered p.1.lower ∧
        Judges (p.2.Every HandlerFits) p.2.Lowered p.2.lower := fun p hp =>
      ⟨ih _ (List.mem_flatMap.2 ⟨p, hp, by simp⟩), ih _ (List.mem_flatMap.2 ⟨p, hp, by simp⟩)⟩
    rw [lower]
    refine Judges.every ((lowerPairs_judges hpairs []).bind fun pairs' => hbody.bind fun body' =>
      .ret ?_) rfl ?_
    · rintro hbody' ⟨_, rfl, hpairs'⟩
      exact .handled hpairs' hbody'
    · simp only [parts, List.mem_cons, List.mem_flatMap, List.not_mem_nil, or_false]
      grind
  | nothing | bool | int | float | str | name =>
    rw [lower]
    · exact (Judges.ret (.atom rfl)).every rfl (by simp [parts])
    all_goals simp
termination_by sizeOf e

namespace Program

/-- Lowering a program succeeds exactly if all handlers in it fit. -/
theorem lower_iff (program : Program) :
    (∃ lowered, program.lower = .ok lowered) ↔ ∀ e ∈ program, e.Every Expr.HandlerFits := by
  have hall := lowerAll_judges (fun (e : Expr) (_ : e ∈ program) => e.lower_judges) [] {}
  unfold lower
  cases hrun : lowerAll [] program {} with
  | ok body s =>
    rw [hrun] at hall
    obtain ⟨-, hquiet, -⟩ := hall
    rw [← hquiet]
    cases herrors : s.errors with
    | nil => simp [herrors]
    | cons first errors => simp [herrors]
  | error fatal s =>
    rw [hrun] at hall
    exact iff_of_false (by simp) hall.found

/-- A program that is lowered is lowered expression by expression. -/
theorem lowerAll_of_lower {program lowered : Program} (hlower : program.lower = .ok lowered) :
    ∃ s, lowerAll [] program {} = .ok lowered s := by
  unfold lower at hlower
  cases hrun : lowerAll [] program {} with
  | ok body s =>
    rw [hrun] at hlower
    dsimp only at hlower
    split at hlower
    · cases hlower
      exact ⟨s, rfl⟩
    · cases hlower
  | error fatal s =>
    rw [hrun] at hlower
    cases hlower

theorem loweredAll {program lowered : Program} (hlower : program.lower = .ok lowered) :
    LoweredAll program lowered := by
  have hfit := program.lower_iff.1 ⟨lowered, hlower⟩
  have hall := lowerAll_judges (fun (e : Expr) (_ : e ∈ program) => e.lower_judges) [] {}
  obtain ⟨s, hrun⟩ := lowerAll_of_lower hlower
  rw [hrun] at hall
  obtain ⟨es', rfl, hes⟩ := hall.found.2 hfit
  exact hes

/-- A program that is not lowered is refused for its handlers. -/
theorem lower_refuses {program : Program} {errors : List CompileError}
    (hlower : program.lower = .error errors) : ∀ e ∈ errors, e.refusesHandler = true := by
  have hclimbed := (lowerAll_judges (fun (e : Expr) (_ : e ∈ program) => e.lower_judges) []).climbs {}
  unfold lower at hlower
  cases hrun : lowerAll [] program {} with
  | ok body s =>
    rw [hrun] at hlower hclimbed
    obtain ⟨more, herrors, hmore⟩ := hclimbed.errors
    rw [List.append_nil] at herrors
    dsimp only at hlower
    split at hlower
    · cases hlower
    · cases hlower
      simpa [herrors] using hmore
  | error fatal s =>
    rw [hrun] at hlower hclimbed
    obtain ⟨hbefore, hfatal⟩ := hclimbed
    obtain ⟨more, herrors, hmore⟩ := hbefore.errors
    rw [List.append_nil] at herrors
    cases hlower
    rw [herrors]
    intro e he
    obtain rfl | he := List.mem_cons.1 (List.mem_reverse.1 he)
    · exact hfatal
    · exact hmore e he

end Program

end Resumable
