import Mathlib.Data.List.Perm.Basic
import Resumable.Proofs.Expr.Fitting
import Resumable.Proofs.Expr.Reserved

/-!
The names that lowering makes up. Groups are numbered one after the other, so that a name with the number
of a group is introduced in one place only, wherever the groups stand in each other.
-/

namespace Resumable

/-- The names that are made up for the group with a number. -/
def groupNames (n : Nat) : List String :=
  ["$eff" ++ toString n, "$arg" ++ toString n, "$k" ++ toString n]

theorem reserved_of_mem_groupNames {x : String} {n : Nat} (hx : x ∈ groupNames n) : Reserved x := by
  simp only [groupNames, List.mem_cons, List.not_mem_nil, or_false] at hx
  obtain rfl | rfl | rfl := hx <;> exact reserved_append (by decide) _

theorem nodup_groupNames (n : Nat) : (groupNames n).Nodup := by
  simp [groupNames, ← String.toList_inj]

theorem eq_of_mem_groupNames {x : String} {m n : Nat} (hm : x ∈ groupNames m) (hn : x ∈ groupNames n) :
    m = n := by
  have hdigits : m ≠ n → Nat.toDigits 10 m ≠ Nat.toDigits 10 n := by
    intro hne heq
    have hvalue := congrArg (fun cs => Nat.ofDigitChars 10 cs 0) heq
    simp only [Nat.ofDigitChars_ten_toDigits] at hvalue
    exact hne hvalue
  by_contra hne
  simp only [groupNames, List.mem_cons, List.not_mem_nil, or_false] at hm hn
  obtain rfl | rfl | rfl := hm <;> obtain hsame | hsame | hsame := hn <;>
    simp [← String.toList_inj, hdigits hne] at hsame

namespace Expr

/-- All names that are introduced in an expression, each with its line. -/
def binders (e : Expr) : List (String × Nat) :=
  e.introduces ++ e.parts.attach.flatMap fun part => part.1.binders
termination_by sizeOf e
decreasing_by exact sizeOf_lt_of_mem_parts part.2

theorem binders_eq (e : Expr) : e.binders = e.introduces ++ e.parts.flatMap binders := by
  rw [binders]
  simp

/-- Of the names that some nodes introduce, those that are reserved. -/
def reservedOf (bs : List (String × Nat)) : List String :=
  (bs.map Prod.fst).filter fun x => decide (Reserved x)

/-- The reserved names that are introduced in an expression. -/
def made (e : Expr) : List String :=
  reservedOf e.binders

theorem reservedOf_append (bs bs' : List (String × Nat)) :
    reservedOf (bs ++ bs') = reservedOf bs ++ reservedOf bs' := by
  simp [reservedOf]

theorem reservedOf_flatMap {α : Type} (xs : List α) (f : α → List (String × Nat)) :
    reservedOf (xs.flatMap f) = xs.flatMap fun x => reservedOf (f x) := by
  simp [reservedOf, List.map_flatMap, List.filter_flatMap]

theorem reservedOf_eq_nil {bs : List (String × Nat)} (h : ∀ b ∈ bs, ¬ Reserved b.1) :
    reservedOf bs = [] := by
  simpa [reservedOf] using h

theorem made_eq (e : Expr) : e.made = reservedOf e.introduces ++ e.parts.flatMap made := by
  rw [made, binders_eq, reservedOf_append, reservedOf_flatMap]
  rfl

/-- The names that are introduced in an expression are among its words. -/
theorem Worded.binders {W : String → Prop} {e : Expr} (h : e.Worded W) : ∀ b ∈ e.binders, W b.1 := by
  have ih : ∀ part ∈ e.parts, ∀ b ∈ part.binders, W b.1 := fun part hmem =>
    have := sizeOf_lt_of_mem_parts hmem
    Worded.binders (h.part hmem)
  rw [binders_eq]
  refine List.forall_mem_append.2 ⟨h.here.introduced, fun b hb => ?_⟩
  obtain ⟨part, hpart, hb⟩ := List.mem_flatMap.1 hb
  exact ih part hpart b hb
termination_by sizeOf e

theorem Worded.made_eq_nil {e : Expr} (h : e.Worded fun x => ¬ Reserved x) : e.made = [] :=
  reservedOf_eq_nil h.binders

end Expr

/-- Names of groups with numbers from `lo` up to `hi`, each at most once. -/
structure Drawn (lo hi : Nat) (names : List String) : Prop where
  le : lo ≤ hi
  nodup : names.Nodup
  numbered : ∀ x ∈ names, ∃ n, lo ≤ n ∧ n < hi ∧ x ∈ groupNames n

namespace Drawn

variable {lo mid hi : Nat} {names names' : List String}

theorem nil (n : Nat) : Drawn n n [] :=
  ⟨Nat.le_refl _, .nil, by simp⟩

theorem group (n : Nat) : Drawn n (n + 1) (groupNames n) :=
  ⟨Nat.le_succ _, nodup_groupNames n, fun _ hx => ⟨n, Nat.le_refl _, Nat.lt_succ_self _, hx⟩⟩

theorem append (h : Drawn lo mid names) (h' : Drawn mid hi names') : Drawn lo hi (names ++ names') := by
  refine ⟨Nat.le_trans h.le h'.le, List.nodup_append.2 ⟨h.nodup, h'.nodup, ?_⟩, ?_⟩
  · rintro x hx _ hx' rfl
    obtain ⟨m, -, hm, hname⟩ := h.numbered x hx
    obtain ⟨n, hn, -, hname'⟩ := h'.numbered x hx'
    have hsame := eq_of_mem_groupNames hname hname'
    omega
  · refine List.forall_mem_append.2 ⟨fun x hx => ?_, fun x hx => ?_⟩
    · obtain ⟨n, hlo, hmid, hname⟩ := h.numbered x hx
      exact ⟨n, hlo, Nat.lt_of_lt_of_le hmid h'.le, hname⟩
    · obtain ⟨n, hmid, hhi, hname⟩ := h'.numbered x hx
      exact ⟨n, Nat.le_trans h.le hmid, hhi, hname⟩

/-- An expression that introduces no reserved name itself. -/
theorem of_parts {e : Expr} (hreserved : ∀ b ∈ e.introduces, ¬ Reserved b.1)
    (hparts : Drawn lo hi (e.parts.flatMap Expr.made)) : Drawn lo hi e.made := by
  rw [Expr.made_eq, Expr.reservedOf_eq_nil hreserved]
  exact hparts

theorem perm (h : Drawn lo hi names) (hperm : names.Perm names') : Drawn lo hi names' :=
  ⟨h.le, hperm.nodup_iff.1 h.nodup, fun x hx => h.numbered x (hperm.mem_iff.2 hx)⟩

end Drawn

/-- Of what a lowering gives, `Q` holds with the number of groups before and after. -/
def Draws {α : Type} (Q : α → Nat → Nat → Prop) (x : Lower α) : Prop :=
  ∀ s a s', x s = .ok a s' → Q a s.groups s'.groups

namespace Draws

variable {α β : Type} {P : α → Nat → Nat → Prop} {Q : β → Nat → Nat → Prop} {x : Lower α}
  {f : α → Lower β}

theorem ret {a : α} (ha : ∀ n, P a n n) : Draws P (pure a : Lower α) := by
  intro s b s' hrun
  cases hrun
  exact ha _

theorem bind (hx : Draws P x) (hf : ∀ a, Draws (fun b mid hi => ∀ lo, P a lo mid → Q b lo hi) (f a)) :
    Draws Q (x >>= f) := by
  intro s b s' hrun
  obtain ⟨a, s₁, hfirst, hrest⟩ := bind_eq_ok.1 hrun
  exact hf a s₁ b s' hrest _ (hx s a s₁ hfirst)

end Draws

section Rows

theorem lowerAll_draws {es : List Expr}
    (hes : ∀ e ∈ es, Draws (fun e' lo hi => Drawn lo hi e'.made) e.lower) (done : List Expr) :
    Draws (fun r lo hi => ∃ es', r = done.reverse ++ es' ∧ Drawn lo hi (es'.flatMap Expr.made))
      (lowerAll done es) := by
  induction es generalizing done with
  | nil =>
    rw [lowerAll]
    exact .ret fun n => ⟨[], by simp, .nil n⟩
  | cons e es ih =>
    obtain ⟨he, hrest⟩ := List.forall_mem_cons.1 hes
    rw [lowerAll]
    refine he.bind fun e' s r s' hrun lo hfirst => ?_
    obtain ⟨es', rfl, hes'⟩ := ih hrest (e' :: done) s r s' hrun
    exact ⟨e' :: es', by simp, hfirst.append hes'⟩

theorem lowerFields_draws {fields : List (String × Expr)}
    (hfields : ∀ f ∈ fields, Draws (fun e' lo hi => Drawn lo hi e'.made) f.2.lower)
    (done : List (String × Expr)) :
    Draws (fun r lo hi => ∃ fields', r = done.reverse ++ fields' ∧
      Drawn lo hi (fields'.flatMap fun f => f.2.made)) (lowerFields done fields) := by
  induction fields generalizing done with
  | nil =>
    rw [lowerFields]
    exact .ret fun n => ⟨[], by simp, .nil n⟩
  | cons f fields ih =>
    obtain ⟨name, e⟩ := f
    obtain ⟨he, hrest⟩ := List.forall_mem_cons.1 hfields
    rw [lowerFields]
    refine he.bind fun e' s r s' hrun lo hfirst => ?_
    obtain ⟨fields', rfl, hfields'⟩ := ih hrest ((name, e') :: done) s r s' hrun
    exact ⟨(name, e') :: fields', by simp, hfirst.append hfields'⟩

end Rows

namespace Expr

@[simp]
theorem made_name (line : Nat) (x : String) : (name line x).made = [] := by
  rw [made_eq]
  rfl

@[simp]
theorem made_block (line : Nat) (body : List Expr) : (block line body).made = body.flatMap made := by
  rw [made_eq]
  rfl

@[simp]
theorem made_call (line : Nat) (callee : Expr) (args : List Expr) :
    (call line callee args).made = callee.made ++ args.flatMap made := by
  rw [made_eq]
  rfl

@[simp]
theorem made_cond (line : Nat) (test whenTrue whenFalse : Expr) :
    (cond line test whenTrue (some whenFalse)).made =
      test.made ++ (whenTrue.made ++ whenFalse.made) := by
  rw [made_eq]
  simp [parts, introduces, reservedOf]

@[simp]
theorem made_declare (line : Nat) (x : String) (value : Expr) :
    (declare line x value).made = reservedOf [(x, line)] ++ value.made := by
  rw [made_eq]
  simp [parts, introduces]

@[simp]
theorem made_lambda (line : Nat) (params : List String) (body : Expr) :
    (lambda line none params body).made =
      reservedOf (params.map fun x => (x, line)) ++ body.made := by
  rw [made_eq]
  simp [parts, introduces]

@[simp]
theorem made_handled (line : Nat) (pairs : List (Expr × Expr)) (body : Expr) :
    (handled line pairs body).made = body.made ++ pairs.flatMap fun p => p.1.made ++ p.2.made := by
  rw [made_eq]
  simp [parts, introduces, reservedOf, List.flatMap_assoc]

end Expr

section Clauses

/-- The names of a clause are not reserved. -/
def LoweredClause.Plain (c : LoweredClause) : Prop :=
  ¬ Reserved c.param ∧ ∀ x ∈ c.resume, ¬ Reserved x

theorem LoweredClause.Plain.made_test {c : LoweredClause} (h : c.Plain) (guard : Expr) (arg : String) :
    (c.test guard arg).made = guard.made := by
  simp [LoweredClause.test, Expr.reservedOf, h.1]

theorem LoweredClause.Plain.made_bound {c : LoweredClause} (h : c.Plain) (arg k : String) :
    (c.bound arg k).made = c.body.made := by
  obtain ⟨param, resume, line, body⟩ := c
  obtain ⟨hparam, hresume⟩ := h
  cases resume with
  | none => simpa [LoweredClause.bound, Expr.reservedOf] using hparam
  | some x =>
    have hx : ¬ Reserved x := hresume x rfl
    simpa [LoweredClause.bound, Expr.reservedOf, hx] using hparam

namespace LoweredGroup

/-- The clauses that have been lowered. -/
def clauses (g : LoweredGroup) : List LoweredClause :=
  g.guarded.map Prod.snd ++ g.catchAll.toList

/-- The reserved names that are introduced in the clauses of a group. -/
def made (g : LoweredGroup) : List String :=
  g.guarded.flatMap (fun p => p.1.made ++ p.2.body.made) ++ g.catchAll.toList.flatMap fun c => c.body.made

theorem made_nil : made {} = [] :=
  rfl

/-- The function for a group introduces the names that its clauses do. -/
theorem made_body {g : LoweredGroup} (h : ∀ c ∈ g.clauses, c.Plain) (line : Nat) (effect arg k : String) :
    ((g.body line effect arg k).made).Perm g.made := by
  obtain ⟨guarded, catchAll⟩ := g
  have hfold : ∀ last : Expr, ((guarded.foldl (fun next p =>
      .cond p.2.line (p.2.test p.1 arg) (p.2.bound arg k) (some next)) last).made).Perm
        (guarded.flatMap (fun p => p.1.made ++ p.2.body.made) ++ last.made) := by
    have hplain : ∀ p ∈ guarded, p.2.Plain := fun p hp =>
      h p.2 (List.mem_append_left _ (List.mem_map_of_mem hp))
    clear h
    induction guarded with
    | nil => exact fun _ => .refl _
    | cons p guarded ih =>
      intro last
      obtain ⟨hp, hrest⟩ := List.forall_mem_cons.1 hplain
      refine (ih hrest _).trans ?_
      rw [Expr.made_cond, hp.made_test, hp.made_bound, ← List.append_assoc p.1.made, List.flatMap_cons,
        List.append_assoc (p.1.made ++ p.2.body.made)]
      exact List.perm_append_comm_assoc _ _ _
  cases catchAll with
  | none =>
    have hlast : (raiseAgain line effect arg k).made = [] := by simp [raiseAgain]
    have hbody := hfold (raiseAgain line effect arg k)
    rw [hlast] at hbody
    exact hbody
  | some c =>
    have hbody := hfold (c.bound arg k)
    rw [(h c (by simp [clauses])).made_bound arg k, ← List.append_nil c.body.made] at hbody
    exact hbody

end LoweredGroup

/-- The names of clauses are not reserved, and their parts are lowered to expressions in which the
reserved names are those of groups that are numbered meanwhile. -/
def ClausesDrawn (clauses : List (Clause Expr)) : Prop :=
  ∀ c ∈ clauses, (∀ x ∈ c.param :: c.resume.toList, ¬ Reserved x) ∧
    ∀ part ∈ c.loweredParts, Draws (fun e lo hi => Drawn lo hi e.made) part.lower

theorem made_guarded (done : LoweredGroup) (guard : Expr) (c : LoweredClause) :
    LoweredGroup.made { done with guarded := (guard, c) :: done.guarded } =
      guard.made ++ c.body.made ++ done.made := by
  simp [LoweredGroup.made]

theorem made_catchAll {done : LoweredGroup} (hnone : done.catchAll = none) (c : LoweredClause) :
    LoweredGroup.made { done with catchAll := some c } = done.made ++ c.body.made := by
  simp [LoweredGroup.made, hnone]

theorem lowerClauses_draws (key : String) {clauses : List (Clause Expr)} (hclauses : ClausesDrawn clauses)
    {done : LoweredGroup} (hdone : ∀ c ∈ done.clauses, c.Plain) :
    Draws (fun g lo hi => (∀ c ∈ g.clauses, c.Plain) ∧
        ∃ names, Drawn lo hi names ∧ g.made.Perm (done.made ++ names))
      (ClauseGroup.lowerClauses key done (clauses.map Clause.pending)) := by
  induction clauses generalizing done with
  | nil =>
    rw [List.map_nil, ClauseGroup.lowerClauses]
    exact .ret fun n => ⟨hdone, [], .nil n, by simp⟩
  | cons c clauses ih =>
    obtain ⟨⟨hnames, hparts⟩, hrest⟩ := List.forall_mem_cons.1 hclauses
    have hplain : ∀ body, (c.lowered body).Plain := fun body => by
      simpa [LoweredClause.Plain, Clause.lowered] using hnames
    have hbody := hparts c.body (by simp [Clause.loweredParts])
    rw [List.map_cons, ClauseGroup.lowerClauses]
    cases hguard : c.guard with
    | some guard =>
      have hpending : c.pending.guard = some guard.lower := by simp [Clause.pending, hguard]
      simp only [hpending]
      refine (hparts guard (by simp [Clause.loweredParts, hguard])).bind fun guard' =>
        Draws.bind hbody fun body' s g s' hrun lo₁ hbody' lo hguard' => ?_
      have hmore : ∀ d ∈ LoweredGroup.clauses
          { done with guarded := (guard', c.lowered body') :: done.guarded }, d.Plain :=
        List.forall_mem_cons.2 ⟨hplain body', hdone⟩
      obtain ⟨hall, names, hnames, hperm⟩ := ih hrest hmore s g s' hrun
      refine ⟨hall, guard'.made ++ body'.made ++ names, (hguard'.append hbody').append hnames, ?_⟩
      refine hperm.trans ?_
      rw [made_guarded, List.append_assoc]
      exact List.perm_append_comm_assoc _ _ _
    | none =>
      have hpending : c.pending.guard = none := by simp [Clause.pending, hguard]
      simp only [hpending]
      refine hbody.bind fun body' => ?_
      cases hcatch : done.catchAll with
      | some _ =>
        intro s g s' hrun
        cases hrun
      | none =>
        intro s g s' hrun lo hbody'
        have hmore : ∀ d ∈ LoweredGroup.clauses { done with catchAll := some (c.lowered body') },
            d.Plain := by
          rw [LoweredGroup.clauses, hcatch, Option.toList_none, List.append_nil] at hdone
          exact List.forall_mem_append.2 ⟨hdone, List.forall_mem_singleton.2 (hplain body')⟩
        obtain ⟨hall, names, hnames, hperm⟩ := ih hrest hmore s g s' hrun
        refine ⟨hall, body'.made ++ names, hbody'.append hnames, hperm.trans ?_⟩
        rw [made_catchAll hcatch, List.append_assoc]
        exact .refl _

/-- The reserved names that are introduced in an effect and its function. -/
def pairMade (p : Expr × Expr) : List String :=
  p.1.made ++ p.2.made

theorem made_binding {name : String} (hname : Reserved name) (line : Nat) (effect : Expr) :
    (Expr.declare line name effect).made = name :: effect.made := by
  simp [Expr.reservedOf, hname]

theorem made_function {arg k : String} (harg : Reserved arg) (hk : Reserved k) (line : Nat)
    (effect : String) (body : Expr) :
    pairMade (.name line effect, .lambda line none [arg, k] body) = arg :: k :: body.made := by
  simp [pairMade, Expr.reservedOf, harg, hk]

theorem lowerGroups_draws (line : Nat) {clauses heads : List (Clause Expr)}
    (hclauses : ClausesDrawn clauses) (heffects : ∀ c ∈ heads, c.effect.made = [])
    (bindings : List Expr) (functions : List (Expr × Expr)) :
    Draws (fun r lo hi => ∃ names, Drawn lo hi names ∧ (r.1.flatMap Expr.made ++ r.2.flatMap pairMade).Perm
        (names ++ (bindings.flatMap Expr.made ++ functions.flatMap pairMade)))
      (lowerGroups line bindings functions (heads.map (groupOf clauses))) := by
  induction heads generalizing bindings functions with
  | nil => exact .ret fun n => ⟨[], .nil n, .refl _⟩
  | cons c heads ih =>
    obtain ⟨heffect, hrest⟩ := List.forall_mem_cons.1 heffects
    intro s r s' hrun
    rw [List.map_cons, lowerGroups, bind_get_run, bind_of_ok (modify_run _ _)] at hrun
    obtain ⟨g, s₁, hfirst, hnext⟩ := bind_eq_ok.1 hrun
    have hgroup : ClausesDrawn (clausesFor c.path clauses) :=
      fun d hd => hclauses d (mem_clausesFor.1 hd).1
    have hnone : ∀ c ∈ LoweredGroup.clauses {}, c.Plain := by simp [LoweredGroup.clauses]
    obtain ⟨hplain, names, hnames, hperm⟩ := lowerClauses_draws c.path hgroup hnone _ g s₁ hfirst
    obtain ⟨names', hnames', hperm'⟩ := ih hrest _ _ s₁ r s' hnext
    refine ⟨groupNames s.groups ++ names ++ names',
      ((Drawn.group s.groups).append hnames).append hnames', hperm'.trans ?_⟩
    have hreserved : ∀ x ∈ groupNames s.groups, Reserved x := fun _ => reserved_of_mem_groupNames
    simp only [groupNames, List.forall_mem_cons] at hreserved
    obtain ⟨heff, harg, hk, -⟩ := hreserved
    have hbody := (LoweredGroup.made_body hplain line ("$eff" ++ toString s.groups)
      ("$arg" ++ toString s.groups) ("$k" ++ toString s.groups)).trans hperm
    rw [List.flatMap_cons, List.flatMap_cons, made_binding heff, made_function harg hk,
      show (groupOf clauses c).effect.made = [] from heffect, groupNames]
    refine List.perm_iff_count.2 fun x => ?_
    have hcount := hbody.count_eq x
    simp only [List.count_append, List.count_cons, List.count_nil, List.nil_append,
      LoweredGroup.made_nil] at hcount ⊢
    omega

/-- Lowering a handler draws the numbers of its groups behind those in the handled body. -/
theorem lowerHandle_draws (line : Nat) {clauses : List (Clause Expr)} (hclauses : ClausesDrawn clauses)
    (hpaths : ∀ c ∈ clauses, c.effect.path?.isSome = true) (heffects : ∀ c ∈ clauses, c.effect.made = [])
    (body : Expr) :
    Draws (fun e lo hi => ∃ names, Drawn lo hi names ∧ e.made.Perm (names ++ body.made))
      (lowerHandle line body (pendingClauses clauses)) := by
  intro s e s' hrun
  rw [pendingClauses_eq, lowerHandle] at hrun
  have hcollect : ClauseGroup.collect [] (clauses.map fun c => (c.effect, c.pending)) s =
      .ok ((firstClauses clauses).map (groupOf clauses)) s :=
    ClauseGroup.collect_groupOf hpaths [] s
  rw [bind_of_ok hcollect] at hrun
  obtain ⟨⟨bindings, functions⟩, s₁, hgroups, hlast⟩ := bind_eq_ok.1 hrun
  cases hlast
  obtain ⟨names, hnames, hperm⟩ := lowerGroups_draws line hclauses
    (fun c hc => heffects c (mem_of_mem_firstClauses hc)) [] [] s _ _ hgroups
  refine ⟨names, hnames, ?_⟩
  have hfunctions : (functions.reverse.flatMap pairMade).Perm (functions.flatMap pairMade) :=
    (List.reverse_perm functions).flatMap_right pairMade
  have hblock := (List.reverse_perm (.handled line functions.reverse body :: bindings)).flatMap_right
    Expr.made
  rw [Expr.made_block]
  refine hblock.trans (List.perm_iff_count.2 fun x => ?_)
  have hcount := hperm.count_eq x
  have hcount' := hfunctions.count_eq x
  simp only [List.flatMap_cons, Expr.made_handled, List.flatMap_nil, List.count_append,
    List.count_nil] at hcount ⊢
  change _ + List.count x (functions.reverse.flatMap pairMade) + _ = _
  omega

end Clauses

/-- Lowering an expression introduces names of the groups that it numbers, each in one place. -/
theorem Expr.lower_draws {e : Expr} (hfits : e.Every HandlerFits)
    (hwords : e.Worded fun x => ¬ Reserved x) :
    Draws (fun e' lo hi => Drawn lo hi e'.made) e.lower := by
  have ih : ∀ part ∈ e.parts, Draws (fun e' lo hi => Drawn lo hi e'.made) part.lower :=
    fun part hmem =>
      have := sizeOf_lt_of_mem_parts hmem
      lower_draws (hfits.part hmem) (hwords.part hmem)
  have hreserved : ∀ b ∈ e.introduces, ¬ Reserved b.1 := hwords.here.introduced
  cases e with
  | call line callee args =>
    obtain ⟨hcallee, hargs⟩ := List.forall_mem_cons.1 ih
    rw [lower]
    refine hcallee.bind fun callee' => (lowerAll_draws hargs []).bind fun args' => .ret ?_
    rintro hi mid ⟨_, rfl, hargs'⟩ lo hcallee'
    exact .of_parts hreserved (hcallee'.append hargs')
  | cond line test whenTrue whenFalse =>
    obtain ⟨htest, ih⟩ := List.forall_mem_cons.1 ih
    obtain ⟨htrue, ih⟩ := List.forall_mem_cons.1 ih
    cases whenFalse with
    | none =>
      rw [lower]
      refine htest.bind fun test' => htrue.bind fun whenTrue' => .ret ?_
      intro hi mid htrue' lo htest'
      exact .of_parts hreserved (by simpa [parts] using htest'.append htrue')
    | some whenFalse =>
      have hfalse := ih whenFalse (by simp)
      rw [lower]
      refine htest.bind fun test' => htrue.bind fun whenTrue' => hfalse.bind fun whenFalse' => .ret ?_
      intro hi mid₁ hfalse' mid₂ htrue' lo htest'
      exact .of_parts hreserved (by simpa [parts] using (htest'.append htrue').append hfalse')
  | lambda _ _ _ part | declare _ _ part | assign _ _ part | field _ part _ =>
    rw [lower]
    refine (ih part (by simp [parts])).bind fun part' => .ret fun hi lo hpart => ?_
    exact .of_parts hreserved (by simpa [parts] using hpart)
  | block _ items | list _ items | tuple _ items =>
    rw [lower]
    refine (lowerAll_draws ih []).bind fun items' => .ret ?_
    rintro hi lo ⟨_, rfl, hitems⟩
    exact .of_parts hreserved hitems
  | record line fields =>
    rw [lower]
    refine (lowerFields_draws (fun f hf => ih f.2 (List.mem_map_of_mem hf)) []).bind fun fields' =>
      .ret ?_
    rintro hi lo ⟨_, rfl, hfields⟩
    exact .of_parts hreserved (by simpa [parts, List.flatMap_map] using hfields)
  | handle line body clauses =>
    obtain ⟨hbody, ih⟩ := List.forall_mem_cons.1 ih
    have hclauses : ClausesDrawn clauses := by
      refine fun c hc => ⟨fun x hx => ?_, fun part hpart => ih part ?_⟩
      · exact hreserved (x, c.line) (List.mem_flatMap.2 ⟨c, hc, List.mem_map_of_mem hx⟩)
      · refine List.mem_flatMap.2 ⟨c, hc, List.mem_cons_of_mem _ ?_⟩
        simpa [Clause.loweredParts, or_comm] using hpart
    have heffects : ∀ c ∈ clauses, c.effect.made = [] := fun c hc => Worded.made_eq_nil
      (hwords.part (.tail _ (List.mem_flatMap.2 ⟨c, hc, .head _⟩)))
    rw [lower]
    refine hbody.bind fun body' s e' s' hrun lo hbody' => ?_
    obtain ⟨names, hnames, hperm⟩ := lowerHandle_draws line hclauses
      (hfits.here _ _ _ rfl).paths heffects body' s e' s' hrun
    exact (hbody'.append hnames).perm (List.perm_append_comm.trans hperm.symm)
  | handled => cases hwords.here.written
  | nothing | bool | int | float | str | name =>
    rw [lower]
    · exact .ret fun n => hwords.made_eq_nil ▸ .nil n
    all_goals simp
termination_by sizeOf e

namespace Program

/-- All names that are introduced in a program, each with its line. -/
def binders (program : Program) : List (String × Nat) :=
  program.flatMap Expr.binders

/-- No reserved name is introduced twice in what a program is lowered to. -/
theorem nodup_reservedOf_binders {program lowered : Program}
    (hwords : ∀ e ∈ program, e.Worded fun x => ¬ Reserved x) (hlower : program.lower = .ok lowered) :
    (Expr.reservedOf lowered.binders).Nodup := by
  have hfits := program.lower_iff.1 ⟨lowered, hlower⟩
  have hdraws := lowerAll_draws (fun e he => Expr.lower_draws (hfits e he) (hwords e he)) [] {}
  obtain ⟨s, hrun⟩ := lowerAll_of_lower hlower
  obtain ⟨_, rfl, hdrawn⟩ := hdraws _ _ hrun
  rw [binders, Expr.reservedOf_flatMap]
  exact hdrawn.nodup

end Program

end Resumable
