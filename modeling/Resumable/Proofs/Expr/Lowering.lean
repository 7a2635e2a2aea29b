import Resumable.Proofs.Compile.Typed
import Resumable.Proofs.Expr.Fitting
import Resumable.Proofs.Expr.Reader

/-!
What is in the lowering of an expression: no handlers that are written, and none of the clauses that are
compiled is new unless it is a function of two parameters. What has no handlers is its own lowering.
-/

namespace Resumable

namespace Expr

/-- An expression is in another one, or is that one. -/
inductive Within (e : Expr) : Expr → Prop
  | here : Within e e
  | part {part whole : Expr} (hmem : part ∈ whole.parts) (hpart : Within e part) : Within e whole

theorem every_of_within {P : Expr → Prop} (e : Expr) (h : ∀ part : Expr, part.Within e → P part) :
    e.Every P :=
  .intro (h e .here) fun part hmem =>
    have := sizeOf_lt_of_mem_parts hmem
    every_of_within part fun inner hinner => h inner (.part hmem hinner)
termination_by sizeOf e

/-- What is in the lowering of expressions in which all are of kind `H`: no handlers that are written,
and clauses that are functions of two parameters or were there before. -/
structure Image (H : Expr → Prop) (e : Expr) : Prop where
  noHandle : e.isHandle = false
  clauses : ∀ line pairs' body', e = .handled line pairs' body' → (∀ p ∈ pairs', p.2.isClause = true) ∨
    ∃ pairs body, H (.handled line pairs body) ∧ LoweredPairs pairs pairs'

theorem every_image {H : Expr → Prop} {e : Expr} (hhandle : e.isHandle = false)
    (hhandled : e.isHandled = false) (hparts : ∀ part ∈ e.parts, part.Every (Image H)) :
    e.Every (Image H) := by
  refine .intro ⟨hhandle, ?_⟩ hparts
  rintro line pairs body rfl
  cases hhandled

theorem every_image_atom {H : Expr → Prop} {e : Expr} (hatom : e.isAtom = true) :
    e.Every (Image H) := by
  cases e with
  | nothing | bool | int | float | str | name => exact every_image rfl rfl (by simp [parts])
  | _ => cases hatom

end Expr

/-- There are no handlers in a path. -/
theorem Expr.every_image_path {H : Expr → Prop} {e : Expr} (hpath : e.path?.isSome = true) :
    e.Every (Image H) := by
  match e with
  | name _ _ => exact every_image_atom rfl
  | field _ target _ =>
    rw [path?, Option.isSome_map] at hpath
    exact every_image rfl rfl (by simpa [parts] using every_image_path hpath)

theorem LoweredClause.every_test {H : Expr → Prop} {c : LoweredClause} {guard : Expr}
    (hguard : guard.Every (Expr.Image H)) (arg : String) : (c.test guard arg).Every (Expr.Image H) := by
  have hname : (Expr.name c.line arg).Every (Expr.Image H) := Expr.every_image_atom rfl
  have hparam : (Expr.declare c.line c.param (.name c.line arg)).Every (Expr.Image H) :=
    Expr.every_image rfl rfl (by simpa [Expr.parts] using hname)
  exact Expr.every_image rfl rfl (by simpa [LoweredClause.test, Expr.parts] using ⟨hparam, hguard⟩)

theorem LoweredClause.every_bound {H : Expr → Prop} {c : LoweredClause}
    (hbody : c.body.Every (Expr.Image H)) (arg k : String) : (c.bound arg k).Every (Expr.Image H) := by
  have hdeclare (line : Nat) (name text : String) :
      (Expr.declare line name (.name line text)).Every (Expr.Image H) :=
    Expr.every_image rfl rfl (by simpa [Expr.parts] using Expr.every_image_atom rfl)
  refine Expr.every_image rfl rfl (List.forall_mem_cons.2 ⟨hdeclare _ _ _, ?_⟩)
  refine List.forall_mem_append.2 ⟨?_, by simpa using hbody⟩
  split
  · simpa using hdeclare _ _ _
  · simp

theorem raiseAgain_every {H : Expr → Prop} (line : Nat) (effect arg k : String) :
    (raiseAgain line effect arg k).Every (Expr.Image H) := by
  have hname (text : String) : (Expr.name line text).Every (Expr.Image H) := Expr.every_image_atom rfl
  have hraise : (Expr.call line (.name line effect) [.name line arg]).Every (Expr.Image H) :=
    Expr.every_image rfl rfl (by simpa [Expr.parts] using ⟨hname _, hname _⟩)
  exact Expr.every_image rfl rfl (by simpa [raiseAgain, Expr.parts] using ⟨hname _, hraise⟩)

section Image

variable {H : Expr → Prop}

theorem LoweredAll.image {es es' : List Expr} (hlowered : LoweredAll es es')
    (h : ∀ e ∈ es, ∀ e' : Expr, e.Lowered e' → e'.Every (Expr.Image H)) :
    ∀ e ∈ es', e.Every (Expr.Image H) := by
  induction es generalizing es' with
  | nil =>
    cases hlowered
    simp
  | cons e es ih =>
    obtain ⟨he, hes⟩ := List.forall_mem_cons.1 h
    cases hlowered with
    | cons hfirst hrest => exact List.forall_mem_cons.2 ⟨he _ hfirst, ih hrest hes⟩

theorem LoweredFields.image {fields fields' : List (String × Expr)}
    (hlowered : LoweredFields fields fields')
    (h : ∀ f ∈ fields, ∀ e' : Expr, f.2.Lowered e' → e'.Every (Expr.Image H)) :
    ∀ f ∈ fields', f.2.Every (Expr.Image H) := by
  induction fields generalizing fields' with
  | nil =>
    cases hlowered
    simp
  | cons f fields ih =>
    obtain ⟨hf, hfields⟩ := List.forall_mem_cons.1 h
    cases hlowered with
    | cons hfirst hrest => exact List.forall_mem_cons.2 ⟨hf _ hfirst, ih hrest hfields⟩

theorem LoweredPairs.image {pairs pairs' : List (Expr × Expr)} (hlowered : LoweredPairs pairs pairs')
    (h : ∀ p ∈ pairs, ∀ e ∈ [p.1, p.2], ∀ e' : Expr, e.Lowered e' → e'.Every (Expr.Image H)) :
    ∀ p ∈ pairs', ∀ e ∈ [p.1, p.2], e.Every (Expr.Image H) := by
  induction pairs generalizing pairs' with
  | nil =>
    cases hlowered
    simp
  | cons p pairs ih =>
    obtain ⟨hp, hpairs⟩ := List.forall_mem_cons.1 h
    cases hlowered with
    | cons heffect hfunction hrest =>
      have heffect' := hp _ (.head _) _ heffect
      have hfunction' := hp _ (.tail _ (.head _)) _ hfunction
      exact List.forall_mem_cons.2 ⟨by simpa using ⟨heffect', hfunction'⟩, ih hrest hpairs⟩

theorem TriesLowered.image {line : Nat} {effect arg k : String} {all rest : List (Clause Expr)}
    {e : Expr} (hlowered : TriesLowered line effect arg k all rest e)
    (hall : ∀ c ∈ all, ∀ part ∈ c.loweredParts, ∀ e' : Expr, part.Lowered e' →
      e'.Every (Expr.Image H))
    (hrest : ∀ c ∈ rest, c ∈ all) : e.Every (Expr.Image H) := by
  induction rest generalizing e with
  | nil =>
    cases hlowered with
    | catchAll hfind hbody =>
      have hpart := hall _ (List.mem_of_find?_eq_some hfind) _ (List.mem_append_right _ (.head _))
      exact LoweredClause.every_bound (hpart _ hbody) arg k
    | again hfind => exact raiseAgain_every line effect arg k
  | cons c rest ih =>
    obtain ⟨hc, hcs⟩ := List.forall_mem_cons.1 hrest
    cases hlowered with
    | guarded hsome hguard hbody hnext =>
      have hguard' := hall c hc _ (by simp [Clause.loweredParts, hsome]) _ hguard
      have hbody' := hall c hc _ (List.mem_append_right _ (.head _)) _ hbody
      refine Expr.every_image rfl rfl ?_
      simpa [Expr.parts] using ⟨LoweredClause.every_test hguard' arg,
        LoweredClause.every_bound hbody' arg k, ih hnext hcs⟩
    | unguarded hnone hnext => exact ih hnext hcs

/-- What a handler is lowered to. -/
theorem handleImage {line : Nat} {body' : Expr} {clauses : List (Clause Expr)}
    {ps : List PathFunction} (hbody : body'.Every (Expr.Image H))
    (hpaths : ∀ c ∈ clauses, c.effect.path?.isSome = true)
    (hheads : ps.map PathFunction.head = firstClauses clauses)
    (hfunctions : ∀ p ∈ ps, p.body.Every (Expr.Image H)) :
    (Expr.block line (ps.map (·.binding line) ++
      [.handled line (ps.map (·.clause line)) body'])).Every (Expr.Image H) := by
  have hbindings : ∀ p ∈ ps, (p.binding line).Every (Expr.Image H) := by
    intro p hp
    have hmem : p.head ∈ clauses := mem_of_mem_firstClauses (hheads ▸ List.mem_map_of_mem hp)
    have heffect : p.head.effect.Every (Expr.Image H) := Expr.every_image_path (hpaths _ hmem)
    exact Expr.every_image rfl rfl (by simpa [PathFunction.binding, Expr.parts] using heffect)
  have hhandled : (Expr.handled line (ps.map (·.clause line)) body').Every (Expr.Image H) := by
    refine .intro ⟨rfl, ?_⟩ (List.forall_mem_cons.2 ⟨hbody, fun part hpart => ?_⟩)
    · rintro _ _ _ ⟨⟩
      exact Or.inl (List.forall_mem_map.2 fun p _ => rfl)
    · obtain ⟨_, hmap, hpart⟩ := List.mem_flatMap.1 hpart
      obtain ⟨p, hp, rfl⟩ := List.mem_map.1 hmap
      obtain rfl | hpart := List.mem_cons.1 hpart
      · exact Expr.every_image_atom rfl
      · rw [List.mem_singleton.1 hpart]
        exact Expr.every_image rfl rfl (List.forall_mem_singleton.2 (hfunctions p hp))
  refine Expr.every_image rfl rfl ?_
  exact List.forall_mem_append.2 ⟨List.forall_mem_map.2 hbindings, by simpa using hhandled⟩

/-- What an expression is lowered to is as `Image` says. -/
theorem Expr.Lowered.image {e e' : Expr} (hlowered : e.Lowered e') (h : e.Every H) :
    e'.Every (Expr.Image H) := by
  have ih : ∀ part ∈ e.parts, ∀ part' : Expr, part.Lowered part' → part'.Every (Image H) :=
    fun part hmem part' hpart =>
      have := sizeOf_lt_of_mem_parts hmem
      Lowered.image hpart (h.part hmem)
  cases hlowered with
  | atom hatom => exact every_image_atom hatom
  | call hcallee hargs =>
    have hcallee' := ih _ (.head _) _ hcallee
    have hargs' := hargs.image fun e he => ih _ (.tail _ he)
    exact every_image rfl rfl (List.forall_mem_cons.2 ⟨hcallee', hargs'⟩)
  | condElse htest htrue hfalse =>
    have htest' := ih _ (by simp [parts]) _ htest
    have htrue' := ih _ (by simp [parts]) _ htrue
    have hfalse' := ih _ (by simp [parts]) _ hfalse
    exact every_image rfl rfl (by simpa [parts] using ⟨htest', htrue', hfalse'⟩)
  | condOnly htest htrue =>
    have htest' := ih _ (by simp [parts]) _ htest
    have htrue' := ih _ (by simp [parts]) _ htrue
    exact every_image rfl rfl (by simpa [parts] using ⟨htest', htrue'⟩)
  | lambda hpart | declare hpart | assign hpart | field hpart =>
    exact every_image rfl rfl (List.forall_mem_singleton.2 (ih _ (.head _) _ hpart))
  | block hitems | list hitems | tuple hitems => exact every_image rfl rfl (hitems.image ih)
  | record hfields =>
    have hfields' := hfields.image fun f hf => ih _ (List.mem_map_of_mem hf)
    exact every_image rfl rfl (List.forall_mem_map.2 hfields')
  | @handle line body body' clauses ps hbody hpaths hheads hnumbers hbodies =>
    refine handleImage (ih _ (.head _) _ hbody) hpaths hheads fun p hp => ?_
    refine (hbodies p hp).image (fun c hc part hpart => ih part ?_) fun _ hc => hc
    refine List.mem_cons_of_mem _ (List.mem_flatMap.2 ⟨c, (mem_clausesFor.1 hc).1, ?_⟩)
    exact List.mem_cons_of_mem _ (by simpa [Clause.loweredParts, or_comm] using hpart)
  | @handled line body body' pairs pairs' hpairs hbody =>
    have hbody' := ih _ (.head _) _ hbody
    have hpairs' := hpairs.image fun p hp e he =>
      ih e (List.mem_cons_of_mem _ (List.mem_flatMap.2 ⟨p, hp, he⟩))
    refine .intro ⟨rfl, ?_⟩ (List.forall_mem_cons.2 ⟨hbody', fun part hpart => ?_⟩)
    · rintro _ _ _ ⟨⟩
      exact Or.inr ⟨pairs, body, h.here, hpairs⟩
    · obtain ⟨p, hp, hpart⟩ := List.mem_flatMap.1 hpart
      exact hpairs' p hp part hpart
termination_by sizeOf e

end Image

theorem Program.lower_image {H : Expr → Prop} {program lowered : Program}
    (hlower : program.lower = .ok lowered) (h : ∀ e ∈ program, e.Every H) :
    ∀ e ∈ lowered, e.Every (Expr.Image H) :=
  (loweredAll hlower).image fun e he _ hlowered => hlowered.image (h e he)

/-- What a program that is written is lowered to. -/
theorem Program.lower_clausesAre {program lowered : Program} (hwritten : ∀ e ∈ program, e.Written)
    (hlower : program.lower = .ok lowered) : ∀ e ∈ lowered, e.ClausesAre .clause := by
  intro e he
  refine (lower_image hlower hwritten e he).mono fun e hhere line pairs body heq pair hpair => ?_
  obtain hclauses | ⟨_, _, hhandled, -⟩ := hhere.clauses line pairs body heq
  · exact Or.inr ⟨rfl, hclauses pair hpair⟩
  · cases hhandled

section Unchanged

theorem LoweredAll.eq {es es' : List Expr} (hlowered : LoweredAll es es')
    (h : ∀ e ∈ es, ∀ e' : Expr, e.Lowered e' → e' = e) : es' = es := by
  induction es generalizing es' with
  | nil =>
    cases hlowered
    rfl
  | cons e es ih =>
    obtain ⟨he, hes⟩ := List.forall_mem_cons.1 h
    cases hlowered with
    | cons hfirst hrest => rw [he _ hfirst, ih hrest hes]

theorem LoweredFields.eq {fields fields' : List (String × Expr)}
    (hlowered : LoweredFields fields fields')
    (h : ∀ f ∈ fields, ∀ e' : Expr, f.2.Lowered e' → e' = f.2) : fields' = fields := by
  induction fields generalizing fields' with
  | nil =>
    cases hlowered
    rfl
  | cons f fields ih =>
    obtain ⟨hf, hfields⟩ := List.forall_mem_cons.1 h
    cases hlowered with
    | cons hfirst hrest => rw [hf _ hfirst, ih hrest hfields]

theorem LoweredPairs.eq {pairs pairs' : List (Expr × Expr)} (hlowered : LoweredPairs pairs pairs')
    (h : ∀ p ∈ pairs, ∀ e ∈ [p.1, p.2], ∀ e' : Expr, e.Lowered e' → e' = e) : pairs' = pairs := by
  induction pairs generalizing pairs' with
  | nil =>
    cases hlowered
    rfl
  | cons p pairs ih =>
    obtain ⟨hp, hpairs⟩ := List.forall_mem_cons.1 h
    cases hlowered with
    | cons heffect hfunction hrest =>
      rw [hp _ (.head _) _ heffect, hp _ (.tail _ (.head _)) _ hfunction, ih hrest hpairs]

/-- What has no handlers is its own lowering. -/
theorem Expr.Lowered.eq {e e' : Expr} (hlowered : e.Lowered e')
    (h : e.Every fun e => e.isHandle = false) : e' = e := by
  have ih : ∀ part ∈ e.parts, ∀ part' : Expr, part.Lowered part' → part' = part :=
    fun part hmem part' hpart =>
      have := sizeOf_lt_of_mem_parts hmem
      Lowered.eq hpart (h.part hmem)
  cases hlowered with
  | atom => rfl
  | call hcallee hargs =>
    rw [ih _ (.head _) _ hcallee, hargs.eq fun e he => ih _ (.tail _ he)]
  | condElse htest htrue hfalse =>
    rw [ih _ (by simp [parts]) _ htest, ih _ (by simp [parts]) _ htrue,
      ih _ (by simp [parts]) _ hfalse]
  | condOnly htest htrue => rw [ih _ (by simp [parts]) _ htest, ih _ (by simp [parts]) _ htrue]
  | lambda hpart | declare hpart | assign hpart | field hpart => rw [ih _ (.head _) _ hpart]
  | block hitems | list hitems | tuple hitems => rw [hitems.eq ih]
  | record hfields => rw [hfields.eq fun f hf => ih _ (List.mem_map_of_mem hf)]
  | handle => cases h.here
  | handled hpairs hbody =>
    have hpairs' := hpairs.eq fun p hp e he =>
      ih e (List.mem_cons_of_mem _ (List.mem_flatMap.2 ⟨p, hp, he⟩))
    rw [hpairs', ih _ (.head _) _ hbody]
termination_by sizeOf e

/-- A program without handlers is its own lowering. -/
theorem Program.lower_of_noHandle {program : Program}
    (hnone : ∀ e ∈ program, e.Every fun e => e.isHandle = false) : program.lower = .ok program := by
  have hfit : ∀ e ∈ program, e.Every Expr.HandlerFits := by
    intro e he
    refine (hnone e he).mono fun e hhere => ?_
    rintro line body clauses rfl
    cases hhere
  obtain ⟨lowered, hlower⟩ := program.lower_iff.2 hfit
  rw [hlower, (loweredAll hlower).eq fun e he e' hlowered => hlowered.eq (hnone e he)]

end Unchanged

end Resumable
