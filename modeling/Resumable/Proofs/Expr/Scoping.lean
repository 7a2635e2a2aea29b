import Resumable.Proofs.Expr.Fresh

/-!
What names refer to. Blocks and functions open scopes, and a declaration adds its name to the scope where it
stands, from there on; at top level it makes a global variable. In a handler as it is written, a guard sees
the payload of its clause, and the body of a clause the payload and the continuation. The names that are
visible at a place are listed with the innermost first, each with the line of its declaration, which only
serves to tell declarations apart.
-/

namespace Resumable

/-- Names with the lines of their declarations. -/
abbrev Bindings := List (String × Nat)

namespace Bindings

/-- What is visible after declarations in the current scope, given in the order in which they are made. -/
def after (B : Bindings) (top : Bool) (added : Bindings) : Bindings :=
  if top then B else added.reverse ++ B

/-- What is visible in the body of a function: its parameters and its own name, unless one of them
has it. -/
def within (B : Bindings) (line : Nat) (self : Option String) (params : List String) : Bindings :=
  ((self.filter fun x => !params.contains x).toList ++ params.reverse).map (fun x => (x, line)) ++ B

end Bindings

/-- A place where a name is mentioned, with the names that are visible there. -/
structure Use where
  name : String
  line : Nat
  visible : Bindings

/-- What a name that is mentioned on a line refers to: the declaration on another line, or a global
variable. -/
structure Reference where
  name : String
  line : Nat
  binder : Option Nat
  deriving DecidableEq

namespace Use

/-- The line of the declaration that a name refers to; global variables have none. -/
def binder (u : Use) : Option Nat :=
  (u.visible.find? fun b => b.1 == u.name).map Prod.snd

/-- What is referred to. -/
def reference (u : Use) : Reference :=
  ⟨u.name, u.line, u.binder⟩

end Use

mutual

/-- The names that an expression adds to the scope where it stands, in the order in which it is compiled. -/
def Expr.adds : Expr → Bindings
  | .call _ callee args => addsAll args ++ callee.adds
  | .cond _ test whenTrue whenFalse =>
    test.adds ++ (whenTrue.adds ++ match whenFalse with
      | some e => e.adds
      | none => [])
  | .declare line x value => value.adds ++ [(x, line)]
  | .assign _ _ value => value.adds
  | .list _ items | .tuple _ items => addsAll items
  | .record _ fields => addsFields fields
  | .field _ target _ => target.adds
  | .handled _ pairs _ => addsPairs pairs
  | _ => []

/-- The names that expressions in a row add. -/
def addsAll : List Expr → Bindings
  | [] => []
  | e :: es => e.adds ++ addsAll es

/-- The names that the fields of a record add. -/
def addsFields : List (String × Expr) → Bindings
  | [] => []
  | (_, e) :: fields => e.adds ++ addsFields fields

/-- The names that pairs of an effect and its function add. -/
def addsPairs : List (Expr × Expr) → Bindings
  | [] => []
  | (effect, function) :: pairs => effect.adds ++ (function.adds ++ addsPairs pairs)

end

/-- The name that a path starts with, as it is mentioned where some names are visible. -/
def Expr.rootUses (B : Bindings) : Expr → List Use
  | .name line x => [⟨x, line, B⟩]
  | .field _ target _ => target.rootUses B
  | _ => []

mutual

/-- The places where names are mentioned in an expression; `top` tells whether it stands at top level. The
effect of a handler is that of the first clause for its path. -/
def Expr.uses (top : Bool) (B : Bindings) : Expr → List Use
  | .name line x => [⟨x, line, B⟩]
  | .call _ callee args => usesAll top B args ++ callee.uses top (B.after top (addsAll args))
  | .cond _ test whenTrue whenFalse =>
    test.uses top B ++ (whenTrue.uses top (B.after top test.adds) ++ match whenFalse with
      | some e => e.uses top (B.after top (test.adds ++ whenTrue.adds))
      | none => [])
  | .lambda line self params body => body.uses false (B.within line self params)
  | .block _ body => usesAll false B body
  | .declare _ _ value => value.uses top B
  | .assign line x value => value.uses top B ++ [⟨x, line, B.after top value.adds⟩]
  | .list _ items | .tuple _ items => usesAll top B items
  | .record _ fields => usesFields top B fields
  | .field _ target _ => target.uses top B
  | .handle _ body clauses =>
    (firstClauses clauses).flatMap (fun c => c.effect.rootUses B) ++
      (usesClauses B clauses ++ body.uses false B)
  | .handled _ pairs body =>
    usesPairs top B pairs ++ body.uses false (B.after top (addsPairs pairs))
  | _ => []

/-- The places where names are mentioned in expressions in a row. -/
def usesAll (top : Bool) (B : Bindings) : List Expr → List Use
  | [] => []
  | e :: es => e.uses top B ++ usesAll top (B.after top e.adds) es

/-- The places where names are mentioned in the fields of a record. -/
def usesFields (top : Bool) (B : Bindings) : List (String × Expr) → List Use
  | [] => []
  | (_, e) :: fields => e.uses top B ++ usesFields top (B.after top e.adds) fields

/-- The places where names are mentioned in pairs of an effect and its function. -/
def usesPairs (top : Bool) (B : Bindings) : List (Expr × Expr) → List Use
  | [] => []
  | (effect, function) :: pairs =>
    effect.uses top B ++ (function.uses top (B.after top effect.adds) ++
      usesPairs top (B.after top (effect.adds ++ function.adds)) pairs)

/-- The places where names are mentioned in the guards and bodies of clauses. -/
def usesClauses (B : Bindings) : List (Clause Expr) → List Use
  | [] => []
  | ⟨_, param, resume, guard, body, line⟩ :: clauses =>
    (match guard with
      | some e => e.uses false (B.within line none [param])
      | none => []) ++
    (body.uses false (B.within line none (param :: resume.toList)) ++ usesClauses B clauses)

end

/-- The places where names are mentioned in the guard and the body of a clause. -/
def Clause.uses (c : Clause Expr) (B : Bindings) : List Use :=
  (c.guard.toList.flatMap fun e => e.uses false (B.within c.line none [c.param])) ++
    c.body.uses false (B.within c.line none (c.param :: c.resume.toList))

/-- The places where names are mentioned in a program. -/
def Program.uses (program : Program) : List Use :=
  usesAll true [] program

@[simp]
theorem addsAll_eq_flatMap (es : List Expr) : addsAll es = es.flatMap Expr.adds := by
  induction es with
  | nil => rw [addsAll, List.flatMap_nil]
  | cons e es ih => rw [addsAll, ih, List.flatMap_cons]

@[simp]
theorem addsFields_eq_flatMap (fields : List (String × Expr)) :
    addsFields fields = fields.flatMap fun f => f.2.adds := by
  induction fields with
  | nil => rw [addsFields, List.flatMap_nil]
  | cons f fields ih => rw [addsFields, ih, List.flatMap_cons]

@[simp]
theorem addsPairs_eq_flatMap (pairs : List (Expr × Expr)) :
    addsPairs pairs = pairs.flatMap fun p => p.1.adds ++ p.2.adds := by
  induction pairs with
  | nil => rw [addsPairs, List.flatMap_nil]
  | cons p pairs ih => rw [addsPairs, ih, List.flatMap_cons, List.append_assoc]

namespace Bindings

variable {B : Bindings} {top : Bool} {added added' : Bindings} {b : String × Nat}

@[simp]
theorem after_nil : B.after top [] = B := by
  cases top <;> rfl

theorem after_append : B.after top (added ++ added') = (B.after top added).after top added' := by
  cases top <;> simp [after]

theorem mem_after (hb : b ∈ B.after top added) : b ∈ B ∨ b ∈ added := by
  cases top with
  | true => exact Or.inl hb
  | false => simpa [after, or_comm] using hb

theorem mem_within {line : Nat} {self : Option String} {params : List String}
    (hb : b ∈ B.within line self params) : b ∈ B ∨ b.2 = line ∧ b.1 ∈ self.toList ++ params := by
  simp only [within, List.mem_append, List.mem_map] at hb
  obtain ⟨x, hx, rfl⟩ | hb := hb
  · refine Or.inr ⟨rfl, ?_⟩
    simp only [Option.mem_toList, Option.filter_eq_some_iff, List.mem_reverse] at hx
    simpa using hx.imp_left And.left
  · exact Or.inl hb

end Bindings

theorem usesAll_append (top : Bool) (B : Bindings) (es es' : List Expr) :
    usesAll top B (es ++ es') = usesAll top B es ++ usesAll top (B.after top (addsAll es)) es' := by
  induction es generalizing B with
  | nil => simp [usesAll]
  | cons e es ih => simp [usesAll, ih, Bindings.after_append]

theorem mem_usesClauses {B : Bindings} {clauses : List (Clause Expr)} {u : Use} :
    u ∈ usesClauses B clauses ↔ ∃ c ∈ clauses, u ∈ c.uses B := by
  induction clauses with
  | nil => simp [usesClauses]
  | cons c clauses ih =>
    obtain ⟨effect, param, resume, guard, body, line⟩ := c
    cases guard <;> simp [usesClauses, Clause.uses, ih, or_assoc]

namespace Expr

/-- What an expression adds to its scope, it or something in it introduces. -/
theorem mem_binders_of_adds {e : Expr} {b : String × Nat} (hb : b ∈ e.adds) : b ∈ e.binders := by
  have ih : ∀ part ∈ e.parts, b ∈ part.adds → b ∈ e.binders := by
    intro part hmem hb
    have := sizeOf_lt_of_mem_parts hmem
    rw [binders_eq]
    exact List.mem_append_right _ (List.mem_flatMap.2 ⟨part, hmem, mem_binders_of_adds hb⟩)
  cases e with
  | call line callee args =>
    simp only [adds, addsAll_eq_flatMap, List.mem_append, List.mem_flatMap] at hb
    obtain ⟨e, he, hb⟩ | hb := hb
    · exact ih e (.tail _ he) hb
    · exact ih callee (.head _) hb
  | cond line test whenTrue whenFalse =>
    cases whenFalse <;> simp [adds, parts] at hb ih <;> grind
  | declare line x value =>
    simp only [adds, List.mem_append, List.mem_singleton] at hb
    obtain hb | rfl := hb
    · exact ih value (.head _) hb
    · rw [binders_eq]
      exact .head _
  | assign line x value => exact ih value (.head _) (by simpa [adds] using hb)
  | field line target x => exact ih target (.head _) (by simpa [adds] using hb)
  | list line items | tuple line items =>
    simp only [adds, addsAll_eq_flatMap, List.mem_flatMap] at hb
    obtain ⟨e, he, hb⟩ := hb
    exact ih e he hb
  | record line fields =>
    simp only [adds, addsFields_eq_flatMap, List.mem_flatMap] at hb
    obtain ⟨f, hf, hb⟩ := hb
    exact ih f.2 (List.mem_map_of_mem hf) hb
  | handled line pairs body =>
    simp only [adds, addsPairs_eq_flatMap, List.mem_flatMap, List.mem_append] at hb
    obtain ⟨p, hp, hb | hb⟩ := hb
    · exact ih p.1 (.tail _ (List.mem_flatMap.2 ⟨p, hp, by simp⟩)) hb
    · exact ih p.2 (.tail _ (List.mem_flatMap.2 ⟨p, hp, by simp⟩)) hb
  | _ => simp [adds] at hb
termination_by sizeOf e

end Expr

section Visible

variable {P : String × Nat → Prop} {top : Bool} {B : Bindings}

theorem forall_mem_after {added : Bindings} (hB : ∀ b ∈ B, P b) (hadded : ∀ b ∈ added, P b) :
    ∀ b ∈ B.after top added, P b := fun b hb =>
  (Bindings.mem_after hb).elim (hB b) (hadded b)

theorem forall_mem_within {line : Nat} {self : Option String} {params : List String}
    (hB : ∀ b ∈ B, P b) (hnames : ∀ x ∈ self.toList ++ params, P (x, line)) :
    ∀ b ∈ B.within line self params, P b := by
  rintro ⟨x, line'⟩ hb
  obtain hb | ⟨rfl, hx⟩ := Bindings.mem_within hb
  · exact hB _ hb
  · exact hnames x hx

/-- Whatever names are visible, those that are visible where something is mentioned have a property that
they and the ones that are introduced have. -/
def ShowsOnly (P : String × Nat → Prop) (e : Expr) : Prop :=
  ∀ top B, (∀ b ∈ B, P b) → ∀ u ∈ e.uses top B, ∀ b ∈ u.visible, P b

theorem usesAll_visible {es : List Expr} (hadds : ∀ e ∈ es, ∀ b ∈ e.adds, P b)
    (hes : ∀ e ∈ es, ShowsOnly P e) (hB : ∀ b ∈ B, P b) :
    ∀ u ∈ usesAll top B es, ∀ b ∈ u.visible, P b := by
  induction es generalizing B with
  | nil => simp [usesAll]
  | cons e es ih =>
    obtain ⟨ha, hadds⟩ := List.forall_mem_cons.1 hadds
    obtain ⟨he, hes⟩ := List.forall_mem_cons.1 hes
    exact List.forall_mem_append.2 ⟨he top B hB, ih hadds hes (forall_mem_after hB ha)⟩

theorem usesFields_visible {fields : List (String × Expr)} (hadds : ∀ f ∈ fields, ∀ b ∈ f.2.adds, P b)
    (hfields : ∀ f ∈ fields, ShowsOnly P f.2) (hB : ∀ b ∈ B, P b) :
    ∀ u ∈ usesFields top B fields, ∀ b ∈ u.visible, P b := by
  induction fields generalizing B with
  | nil => simp [usesFields]
  | cons f fields ih =>
    obtain ⟨ha, hadds⟩ := List.forall_mem_cons.1 hadds
    obtain ⟨hf, hfields⟩ := List.forall_mem_cons.1 hfields
    exact List.forall_mem_append.2 ⟨hf top B hB, ih hadds hfields (forall_mem_after hB ha)⟩

theorem usesPairs_visible {pairs : List (Expr × Expr)}
    (hadds : ∀ p ∈ pairs, ∀ b ∈ p.1.adds ++ p.2.adds, P b)
    (hpairs : ∀ p ∈ pairs, ShowsOnly P p.1 ∧ ShowsOnly P p.2) (hB : ∀ b ∈ B, P b) :
    ∀ u ∈ usesPairs top B pairs, ∀ b ∈ u.visible, P b := by
  induction pairs generalizing B with
  | nil => simp [usesPairs]
  | cons p pairs ih =>
    obtain ⟨ha, hadds⟩ := List.forall_mem_cons.1 hadds
    obtain ⟨⟨heffect, hfunction⟩, hpairs⟩ := List.forall_mem_cons.1 hpairs
    have hfirst := (List.forall_mem_append.1 ha).1
    refine List.forall_mem_append.2 ⟨heffect top B hB, List.forall_mem_append.2 ⟨?_, ?_⟩⟩
    · exact hfunction top _ (forall_mem_after hB hfirst)
    · exact ih hadds hpairs (forall_mem_after hB ha)

theorem rootUses_visible {e : Expr} : ∀ u ∈ e.rootUses B, u.visible = B := by
  match e with
  | .name _ _ => simp [Expr.rootUses]
  | .field _ target _ =>
    rw [Expr.rootUses]
    exact rootUses_visible
  | .nothing _ | .bool _ _ | .int _ _ | .float _ _ | .str _ _ | .call _ _ _ | .cond _ _ _ _
  | .lambda _ _ _ _ | .block _ _ | .declare _ _ _ | .assign _ _ _ | .list _ _ | .tuple _ _
  | .record _ _ | .handle _ _ _ | .handled _ _ _ => simp [Expr.rootUses]

/-- A name that is visible where something is mentioned in an expression is visible where the expression
stands, or introduced in it. -/
theorem Expr.showsOnly_of_binders {e : Expr} (hbinders : ∀ b ∈ e.binders, P b) : ShowsOnly P e := by
  have hparts : ∀ part ∈ e.parts, ∀ b ∈ part.binders, P b := fun part hmem b hb => hbinders b (by
    rw [binders_eq]
    exact List.mem_append_right _ (List.mem_flatMap.2 ⟨part, hmem, hb⟩))
  have hintroduces : ∀ b ∈ e.introduces, P b := fun b hb => hbinders b (by
    rw [binders_eq]
    exact List.mem_append_left _ hb)
  have hadds : ∀ part ∈ e.parts, ∀ b ∈ part.adds, P b :=
    fun part hmem b hb => hparts part hmem b (mem_binders_of_adds hb)
  have ih : ∀ part ∈ e.parts, ShowsOnly P part := fun part hmem =>
    have := sizeOf_lt_of_mem_parts hmem
    showsOnly_of_binders (hparts part hmem)
  intro top B hB
  cases e with
  | name line x => simpa [uses] using hB
  | call line callee args =>
    obtain ⟨hcallee, hargs⟩ := List.forall_mem_cons.1 ih
    obtain ⟨-, haddsArgs⟩ := List.forall_mem_cons.1 hadds
    refine List.forall_mem_append.2 ⟨usesAll_visible haddsArgs hargs hB, ?_⟩
    refine hcallee top _ (forall_mem_after hB ?_)
    simpa using fun x line e he => haddsArgs e he (x, line)
  | cond line test whenTrue whenFalse =>
    obtain ⟨htest, ih⟩ := List.forall_mem_cons.1 ih
    obtain ⟨htrue, ih⟩ := List.forall_mem_cons.1 ih
    obtain ⟨haddsTest, hadds⟩ := List.forall_mem_cons.1 hadds
    obtain ⟨haddsTrue, -⟩ := List.forall_mem_cons.1 hadds
    cases whenFalse with
    | none =>
      simp only [uses, List.append_nil]
      exact List.forall_mem_append.2 ⟨htest top B hB, htrue top _ (forall_mem_after hB haddsTest)⟩
    | some e =>
      simp only [uses]
      refine List.forall_mem_append.2 ⟨htest top B hB, List.forall_mem_append.2
        ⟨htrue top _ (forall_mem_after hB haddsTest), ?_⟩⟩
      exact ih e (.head _) top _
        (forall_mem_after hB (List.forall_mem_append.2 ⟨haddsTest, haddsTrue⟩))
  | lambda line self params body =>
    refine ih body (.head _) false _ (forall_mem_within hB fun x hx => hintroduces _ ?_)
    exact List.mem_map_of_mem hx
  | block line body => exact usesAll_visible hadds ih hB
  | declare line x value => exact ih value (.head _) top B hB
  | assign line x value =>
    refine List.forall_mem_append.2 ⟨ih value (.head _) top B hB, ?_⟩
    exact List.forall_mem_singleton.2 (forall_mem_after hB (hadds value (.head _)))
  | list line items | tuple line items => exact usesAll_visible hadds ih hB
  | record line fields =>
    exact usesFields_visible (fun f hf => hadds f.2 (List.mem_map_of_mem hf))
      (fun f hf => ih f.2 (List.mem_map_of_mem hf)) hB
  | field line target x => exact ih target (.head _) top B hB
  | handle line body clauses =>
    have hmem : ∀ c ∈ clauses, ∀ part ∈ c.effect :: c.body :: c.guard.toList,
        part ∈ (handle line body clauses).parts :=
      fun c hc part hpart => .tail _ (List.mem_flatMap.2 ⟨c, hc, hpart⟩)
    have hnames : ∀ c ∈ clauses, ∀ x ∈ c.param :: c.resume.toList, P (x, c.line) :=
      fun c hc x hx => hintroduces _ (List.mem_flatMap.2 ⟨c, hc, List.mem_map_of_mem hx⟩)
    refine List.forall_mem_append.2 ⟨fun u hu => ?_, List.forall_mem_append.2
      ⟨fun u hu => ?_, ih body (.head _) false B hB⟩⟩
    · obtain ⟨c, -, hu⟩ := List.mem_flatMap.1 hu
      rwa [rootUses_visible u hu]
    · obtain ⟨c, hc, hu⟩ := mem_usesClauses.1 hu
      obtain hu | hu := List.mem_append.1 hu
      · obtain ⟨guard, hguard, hu⟩ := List.mem_flatMap.1 hu
        refine ih guard (hmem c hc _ (by simp [Option.mem_toList.1 hguard])) false _
          (forall_mem_within hB fun x hx => hnames c hc x ?_) u hu
        exact List.mem_of_mem_take (i := 1) hx
      · exact ih c.body (hmem c hc _ (by simp)) false _ (forall_mem_within hB (hnames c hc)) u hu
  | handled line pairs body =>
    obtain ⟨hbody, ih⟩ := List.forall_mem_cons.1 ih
    obtain ⟨-, hadds⟩ := List.forall_mem_cons.1 hadds
    have hmem : ∀ p ∈ pairs, ∀ e ∈ [p.1, p.2], e ∈ pairs.flatMap fun p => [p.1, p.2] :=
      fun p hp e he => List.mem_flatMap.2 ⟨p, hp, he⟩
    have haddsPairs : ∀ p ∈ pairs, ∀ b ∈ p.1.adds ++ p.2.adds, P b := fun p hp =>
      List.forall_mem_append.2 ⟨hadds _ (hmem p hp _ (by simp)), hadds _ (hmem p hp _ (by simp))⟩
    refine List.forall_mem_append.2 ⟨usesPairs_visible haddsPairs (fun p hp =>
      ⟨ih _ (hmem p hp _ (by simp)), ih _ (hmem p hp _ (by simp))⟩) hB, ?_⟩
    refine hbody false _ (forall_mem_after hB fun b hb => ?_)
    rw [addsPairs_eq_flatMap] at hb
    obtain ⟨p, hp, hb⟩ := List.mem_flatMap.1 hb
    exact haddsPairs p hp b hb
  | nothing | bool | int | float | str => simp [uses]
termination_by sizeOf e

end Visible

end Resumable
