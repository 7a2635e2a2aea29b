import Resumable.Proofs.Expr.Scoping
import Resumable.Proofs.Expr.Surface

/-!
Lowering keeps what names refer to. Among the names that are visible somewhere in what an expression is
lowered to, those that can be written are the ones that are visible in the expression itself; the others
are made up, and each of them is declared around all places where it is mentioned.
-/

namespace Resumable

/-- Of some names, those that programs can write. -/
def Bindings.written (B : Bindings) : Bindings :=
  B.filter fun b => decide (¬ Reserved b.1)

section Written

variable {B added : Bindings} {top : Bool}

theorem Bindings.written_append (B B' : Bindings) : written (B ++ B') = written B ++ written B' :=
  List.filter_append _ _

theorem Bindings.written_of_not_reserved (h : ∀ b ∈ added, ¬ Reserved b.1) : written added = added :=
  List.filter_eq_self.2 fun b hb => decide_eq_true (h b hb)

theorem Bindings.written_of_reserved (h : ∀ b ∈ added, Reserved b.1) : written added = [] :=
  List.filter_eq_nil_iff.2 fun b hb => by simpa using h b hb

theorem Bindings.written_after (h : ∀ b ∈ added, ¬ Reserved b.1) :
    (B.after top added).written = B.written.after top added := by
  have hadded : written added.reverse = added.reverse :=
    written_of_not_reserved fun b hb => h b (List.mem_reverse.1 hb)
  cases top with
  | true => rfl
  | false => rw [after, after, if_neg Bool.false_ne_true, if_neg Bool.false_ne_true, written_append, hadded]

theorem Bindings.written_within {line : Nat} {self : Option String} {params : List String}
    (h : ∀ x ∈ self.toList ++ params, ¬ Reserved x) :
    (B.within line self params).written = B.written.within line self params := by
  rw [within, within, written_append]
  congr 1
  refine written_of_not_reserved fun b hb => ?_
  have hmem : b ∈ within [] line self params := by simpa [within] using hb
  obtain hnone | ⟨-, hx⟩ := mem_within hmem
  · cases hnone
  · exact h b.1 hx

namespace Use

/-- Reserved names do not decide what others refer to. -/
theorem binder_written {x : String} (hx : ¬ Reserved x) (line : Nat) (B : Bindings) :
    (⟨x, line, B.written⟩ : Use).binder = (⟨x, line, B⟩ : Use).binder := by
  rw [binder, binder, Bindings.written, List.find?_filter]
  congr 2
  funext b
  by_cases hb : b.1 = x
  · simp [hb, hx]
  · simp [hb]

theorem isSome_binder {u : Use} : u.binder.isSome = true ↔ u.name ∈ u.visible.map Prod.fst := by
  simp [binder, List.find?_isSome]

end Use

end Written

/-- What is mentioned in an expression is mentioned in what it is lowered to, and refers to the same; in
there only reserved names are mentioned besides, and they are declared around. -/
structure Kept (us us' : List Use) : Prop where
  kept : ∀ u ∈ us, ∃ u' ∈ us', u'.reference = u.reference
  old : ∀ u' ∈ us', ¬ Reserved u'.name → ∃ u ∈ us, u.reference = u'.reference
  made : ∀ u' ∈ us', Reserved u'.name → u'.binder.isSome = true

namespace Kept

variable {us us' vs vs' : List Use}

theorem nil : Kept [] [] :=
  ⟨nofun, nofun, nofun⟩

theorem append (h : Kept us us') (h' : Kept vs vs') : Kept (us ++ vs) (us' ++ vs') := by
  refine ⟨fun u hu => ?_, fun u' hu' hname => ?_, List.forall_mem_append.2 ⟨h.made, h'.made⟩⟩
  · obtain hu | hu := List.mem_append.1 hu
    · obtain ⟨u', hu', hsame⟩ := h.kept u hu
      exact ⟨u', List.mem_append_left _ hu', hsame⟩
    · obtain ⟨u', hu', hsame⟩ := h'.kept u hu
      exact ⟨u', List.mem_append_right _ hu', hsame⟩
  · obtain hu' | hu' := List.mem_append.1 hu'
    · obtain ⟨u, hu, hsame⟩ := h.old u' hu' hname
      exact ⟨u, List.mem_append_left _ hu, hsame⟩
    · obtain ⟨u, hu, hsame⟩ := h'.old u' hu' hname
      exact ⟨u, List.mem_append_right _ hu, hsame⟩

theorem single {x : String} (hx : ¬ Reserved x) (line : Nat) (B : Bindings) :
    Kept [⟨x, line, B.written⟩] [⟨x, line, B⟩] := by
  have hsame : (⟨x, line, B.written⟩ : Use).reference = (⟨x, line, B⟩ : Use).reference := by
    rw [Use.reference, Use.binder_written hx]
    rfl
  exact ⟨by simpa using hsame.symm, by simpa using fun _ => hsame, by simpa using fun h => absurd h hx⟩

/-- Only a reserved name that is declared around is mentioned besides. -/
theorem cons {x : String} (hx : Reserved x) {line : Nat} {B : Bindings} (hB : x ∈ B.map Prod.fst)
    (h : Kept us us') : Kept us (⟨x, line, B⟩ :: us') := by
  have hfirst : Kept [] [⟨x, line, B⟩] := by
    refine ⟨nofun, List.forall_mem_singleton.2 fun hplain => absurd hx hplain, ?_⟩
    exact List.forall_mem_singleton.2 fun _ => Use.isSome_binder.2 hB
  exact hfirst.append h

theorem congr (h : Kept us us') (hmem : ∀ u, u ∈ us ↔ u ∈ vs) : Kept vs us' := by
  refine ⟨fun u hu => h.kept u ((hmem u).2 hu), fun u' hu' hname => ?_, h.made⟩
  obtain ⟨u, hu, hsame⟩ := h.old u' hu' hname
  exact ⟨u, (hmem u).1 hu, hsame⟩

theorem flatMap {α : Type} {xs : List α} {f g : α → List Use} (h : ∀ x ∈ xs, Kept (f x) (g x)) :
    Kept (xs.flatMap f) (xs.flatMap g) := by
  induction xs with
  | nil => exact nil
  | cons x xs ih =>
    obtain ⟨hx, hxs⟩ := List.forall_mem_cons.1 h
    exact hx.append (ih hxs)

end Kept

mutual

/-- Lowering keeps what an expression adds to its scope. -/
theorem Expr.Lowered.adds_eq {e e' : Expr} : e.Lowered e' → e'.adds = e.adds
  | .atom _ => rfl
  | .call hcallee hargs => by rw [Expr.adds, Expr.adds, hargs.adds_eq, hcallee.adds_eq]
  | .condElse htest htrue hfalse => by
    simp only [Expr.adds, htest.adds_eq, htrue.adds_eq, hfalse.adds_eq]
  | .condOnly htest htrue => by simp only [Expr.adds, htest.adds_eq, htrue.adds_eq]
  | .lambda _ => rfl
  | .block _ => rfl
  | .declare hvalue => by rw [Expr.adds, Expr.adds, hvalue.adds_eq]
  | .assign hvalue => by rw [Expr.adds, Expr.adds, hvalue.adds_eq]
  | .list hitems => by rw [Expr.adds, Expr.adds, hitems.adds_eq]
  | .tuple hitems => by rw [Expr.adds, Expr.adds, hitems.adds_eq]
  | .record hfields => by rw [Expr.adds, Expr.adds, hfields.adds_eq]
  | .field htarget => by rw [Expr.adds, Expr.adds, htarget.adds_eq]
  | .handle _ _ _ _ _ => rfl
  | .handled hpairs _ => by rw [Expr.adds, Expr.adds, hpairs.adds_eq]

theorem LoweredAll.adds_eq {es es' : List Expr} : LoweredAll es es' → addsAll es' = addsAll es
  | .nil => rfl
  | .cons hfirst hrest => by rw [addsAll, addsAll, hfirst.adds_eq, hrest.adds_eq]

theorem LoweredFields.adds_eq {fields fields' : List (String × Expr)} :
    LoweredFields fields fields' → addsFields fields' = addsFields fields
  | .nil => rfl
  | .cons hfirst hrest => by rw [addsFields, addsFields, hfirst.adds_eq, hrest.adds_eq]

theorem LoweredPairs.adds_eq {pairs pairs' : List (Expr × Expr)} :
    LoweredPairs pairs pairs' → addsPairs pairs' = addsPairs pairs
  | .nil => rfl
  | .cons heffect hfunction hrest => by
    rw [addsPairs, addsPairs, heffect.adds_eq, hfunction.adds_eq, hrest.adds_eq]

end

/-- What an expression whose names can be written adds to its scope. -/
theorem Expr.Worded.adds {e : Expr} (h : e.Worded fun x => ¬ Reserved x) :
    ∀ b ∈ e.adds, ¬ Reserved b.1 :=
  fun b hb => h.binders b (mem_binders_of_adds hb)

/-- What is mentioned in an expression is kept by its lowering, wherever it stands. -/
def KeepsUses (e e' : Expr) : Prop :=
  ∀ top (B : Bindings), Kept (e.uses top B.written) (e'.uses top B)

section Rows

theorem LoweredAll.kept {es es' : List Expr} (hlowered : LoweredAll es es')
    (hadds : ∀ e ∈ es, ∀ b ∈ e.adds, ¬ Reserved b.1)
    (hes : ∀ e ∈ es, ∀ e' : Expr, e.Lowered e' → KeepsUses e e') (top : Bool) (B : Bindings) :
    Kept (usesAll top B.written es) (usesAll top B es') := by
  induction es generalizing es' B with
  | nil =>
    cases hlowered
    exact .nil
  | cons e es ih =>
    obtain ⟨ha, hadds⟩ := List.forall_mem_cons.1 hadds
    obtain ⟨he, hes⟩ := List.forall_mem_cons.1 hes
    cases hlowered with
    | cons hfirst hrest =>
      rw [usesAll, usesAll, hfirst.adds_eq, ← Bindings.written_after ha]
      exact (he _ hfirst top B).append (ih hrest hadds hes _)

theorem LoweredFields.kept {fields fields' : List (String × Expr)}
    (hlowered : LoweredFields fields fields')
    (hadds : ∀ f ∈ fields, ∀ b ∈ f.2.adds, ¬ Reserved b.1)
    (hfields : ∀ f ∈ fields, ∀ e' : Expr, f.2.Lowered e' → KeepsUses f.2 e') (top : Bool)
    (B : Bindings) : Kept (usesFields top B.written fields) (usesFields top B fields') := by
  induction fields generalizing fields' B with
  | nil =>
    cases hlowered
    exact .nil
  | cons f fields ih =>
    obtain ⟨ha, haddsRest⟩ := List.forall_mem_cons.1 hadds
    obtain ⟨hf, hfieldsRest⟩ := List.forall_mem_cons.1 hfields
    cases hlowered with
    | cons hfirst hrest =>
      rw [usesFields, usesFields, hfirst.adds_eq, ← Bindings.written_after ha]
      exact (hf _ hfirst top B).append (ih hrest haddsRest hfieldsRest _)

end Rows

section Paths

/-- Paths declare nothing. -/
theorem Expr.adds_of_path {e : Expr} (hpath : e.path?.isSome = true) : e.adds = [] := by
  match e with
  | .name _ _ => rfl
  | .field _ target _ =>
    rw [path?, Option.isSome_map] at hpath
    rw [adds]
    exact adds_of_path hpath

/-- A path mentions the name that it starts with. -/
theorem Expr.uses_of_path {e : Expr} (hpath : e.path?.isSome = true) (top : Bool) (B : Bindings) :
    e.uses top B = e.rootUses B := by
  match e with
  | .name _ _ => rfl
  | .field _ target _ =>
    rw [path?, Option.isSome_map] at hpath
    rw [uses, rootUses]
    exact uses_of_path hpath top B

theorem Expr.rootUses_kept {e : Expr} (hwords : e.Worded fun x => ¬ Reserved x) (B : Bindings) :
    Kept (e.rootUses B.written) (e.rootUses B) := by
  match e with
  | .name line x => exact .single (hwords.here.mentioned x (.head _)) line B
  | .field _ target _ =>
    rw [rootUses, rootUses]
    exact rootUses_kept (hwords.part (.head _)) B
  | .nothing _ | .bool _ _ | .int _ _ | .float _ _ | .str _ _ | .call _ _ _ | .cond _ _ _ _
  | .lambda _ _ _ _ | .block _ _ | .declare _ _ _ | .assign _ _ _ | .list _ _ | .tuple _ _
  | .record _ _ | .handle _ _ _ | .handled _ _ _ => exact .nil

end Paths

namespace PathFunction

variable {line : Nat} {ps : List PathFunction}

theorem reserved_effect (p : PathFunction) : Reserved p.effect :=
  reserved_append (by decide) _

theorem reserved_arg (p : PathFunction) : Reserved p.arg :=
  reserved_append (by decide) _

theorem reserved_k (p : PathFunction) : Reserved p.k :=
  reserved_append (by decide) _

/-- The names that are declared around a handled body. -/
def around (line : Nat) (ps : List PathFunction) : Bindings :=
  ps.map fun p => (p.effect, line)

theorem addsAll_binding (hpaths : ∀ p ∈ ps, p.head.effect.path?.isSome = true) :
    addsAll (ps.map (·.binding line)) = around line ps := by
  induction ps with
  | nil => rfl
  | cons p ps ih =>
    obtain ⟨hp, hps⟩ := List.forall_mem_cons.1 hpaths
    rw [List.map_cons, addsAll, ih hps, binding, Expr.adds, Expr.adds_of_path hp]
    rfl

/-- Only the names that the paths start with are mentioned in the bindings. -/
theorem usesAll_binding_kept (hpaths : ∀ p ∈ ps, p.head.effect.path?.isSome = true)
    (hwords : ∀ p ∈ ps, p.head.effect.Worded fun x => ¬ Reserved x) (B : Bindings) :
    Kept (ps.flatMap fun p => p.head.effect.rootUses B.written)
      (usesAll false B (ps.map (·.binding line))) := by
  induction ps generalizing B with
  | nil => exact .nil
  | cons p ps ih =>
    obtain ⟨hp, hps⟩ := List.forall_mem_cons.1 hpaths
    obtain ⟨hw, hws⟩ := List.forall_mem_cons.1 hwords
    have hadds : (p.binding line).adds = [(p.effect, line)] := by
      rw [binding, Expr.adds, Expr.adds_of_path hp]
      rfl
    have hhidden : Bindings.written [(p.effect, line)] = [] :=
      Bindings.written_of_reserved (List.forall_mem_singleton.2 p.reserved_effect)
    have hrest := ih hps hws ([(p.effect, line)] ++ B)
    rw [Bindings.written_append, hhidden, List.nil_append] at hrest
    rw [List.map_cons, usesAll, hadds, binding, Expr.uses, Expr.uses_of_path hp]
    exact (Expr.rootUses_kept hw B).append hrest

theorem addsPairs_clause : addsPairs (ps.map (·.clause line)) = [] := by
  induction ps with
  | nil => rfl
  | cons p ps ih =>
    rw [List.map_cons, clause, addsPairs, ih]
    rfl

theorem usesPairs_clause (B : Bindings) :
    usesPairs false B (ps.map (·.clause line)) = ps.flatMap fun p =>
      ⟨p.effect, line, B⟩ :: p.body.uses false (B.within line none [p.arg, p.k]) := by
  induction ps with
  | nil => rfl
  | cons p ps ih =>
    rw [List.map_cons, clause, usesPairs, List.flatMap_cons, ← ih]
    rfl

end PathFunction

section Clauses

variable {B : Bindings} {arg k : String}

/-- The test of a guard sees the payload besides. -/
theorem LoweredClause.test_kept {c : LoweredClause} {guard guard' : Expr} (hparam : ¬ Reserved c.param)
    (harg : Reserved arg) (hB : arg ∈ B.map Prod.fst) (hguard : KeepsUses guard guard') :
    Kept (guard.uses false (B.written.within c.line none [c.param]))
      ((c.test guard' arg).uses false B) := by
  have hwithin := hguard false (B.within c.line none [c.param])
  rw [Bindings.written_within (by simpa using hparam)] at hwithin
  have huses : (c.test guard' arg).uses false B =
      ⟨arg, c.line, B⟩ :: guard'.uses false (B.within c.line none [c.param]) := by
    simp only [LoweredClause.test, Expr.uses, usesAll, List.append_nil]
    rfl
  rw [huses]
  exact hwithin.cons harg hB

/-- The body of a clause sees the payload and the continuation besides. -/
theorem LoweredClause.bound_kept {c : LoweredClause} {body : Expr}
    (hnames : ∀ x ∈ c.param :: c.resume.toList, ¬ Reserved x) (harg : Reserved arg) (hk : Reserved k)
    (hargB : arg ∈ B.map Prod.fst) (hkB : k ∈ B.map Prod.fst) (hbody : KeepsUses body c.body) :
    Kept (body.uses false (B.written.within c.line none (c.param :: c.resume.toList)))
      ((c.bound arg k).uses false B) := by
  have hwithin := hbody false (B.within c.line none (c.param :: c.resume.toList))
  rw [Bindings.written_within (by simpa using hnames)] at hwithin
  obtain ⟨param, resume, line, body'⟩ := c
  cases resume with
  | none =>
    have huses : ((⟨param, none, line, body'⟩ : LoweredClause).bound arg k).uses false B =
        ⟨arg, line, B⟩ :: body'.uses false (B.within line none [param]) := by
      simp only [LoweredClause.bound, List.nil_append, Expr.uses, usesAll, List.append_nil]
      rfl
    rw [huses]
    exact hwithin.cons harg hargB
  | some x =>
    have huses : ((⟨param, some x, line, body'⟩ : LoweredClause).bound arg k).uses false B =
        ⟨arg, line, B⟩ :: ⟨k, line, (param, line) :: B⟩ ::
          body'.uses false (B.within line none [param, x]) := by
      simp only [LoweredClause.bound, List.cons_append, List.nil_append, Expr.uses, usesAll,
        List.append_nil]
      rfl
    rw [huses]
    have hkB' : k ∈ (((param, line) :: B).map Prod.fst) := .tail _ hkB
    exact (hwithin.cons hk hkB').cons harg hargB

/-- The clauses that are tried: those with a guard that have not been yet, and then the one without. -/
def clausesTried (all rest : List (Clause Expr)) : List (Clause Expr) :=
  rest.filter (fun c => c.guard.isSome) ++ (all.find? fun c => c.guard.isNone).toList

theorem mem_clausesTried {all : List (Clause Expr)} {c : Clause Expr}
    (hunguarded : (all.filter fun c => c.guard.isNone).length ≤ 1) :
    c ∈ clausesTried all all ↔ c ∈ all := by
  have hlast : (all.find? fun c => c.guard.isNone).toList = all.filter fun c => c.guard.isNone := by
    rw [← List.head?_filter]
    generalize all.filter (fun c => c.guard.isNone) = unguarded at hunguarded
    match unguarded, hunguarded with
    | [], _ | [_], _ => rfl
  rw [clausesTried, hlast, List.mem_append, List.mem_filter, List.mem_filter]
  cases c.guard <;> simp

/-- Trying clauses mentions what they do. -/
theorem TriesLowered.kept {line : Nat} {effect : String} {all rest : List (Clause Expr)} {e : Expr}
    (hlowered : TriesLowered line effect arg k all rest e)
    (hnames : ∀ c ∈ all, ∀ x ∈ c.param :: c.resume.toList, ¬ Reserved x)
    (hparts : ∀ c ∈ all, ∀ part ∈ c.loweredParts, ∀ e' : Expr, part.Lowered e' → KeepsUses part e')
    (hrest : ∀ c ∈ rest, c ∈ all) (hreserved : ∀ x ∈ [effect, arg, k], Reserved x)
    (hB : ∀ x ∈ [effect, arg, k], x ∈ B.map Prod.fst) :
    Kept ((clausesTried all rest).flatMap fun c => c.uses B.written) (e.uses false B) := by
  simp only [List.forall_mem_cons] at hreserved hB
  obtain ⟨heffect, harg, hk, -⟩ := hreserved
  obtain ⟨heffectB, hargB, hkB, -⟩ := hB
  have hbound : ∀ c ∈ all, ∀ body : Expr, c.body.Lowered body →
      Kept (c.body.uses false (B.written.within c.line none (c.param :: c.resume.toList)))
        (((c.lowered body).bound arg k).uses false B) := fun c hc body hbody =>
    LoweredClause.bound_kept (c := c.lowered body) (hnames c hc) harg hk hargB hkB
      (hparts c hc _ (List.mem_append_right _ (.head _)) _ hbody)
  induction rest generalizing e with
  | nil =>
    cases hlowered with
    | @catchAll _ _ _ _ _ c body hfind hbody =>
      have hnone : c.guard = none := Option.isNone_iff_eq_none.1 (by simpa using List.find?_some hfind)
      have hlast := hbound c (List.mem_of_find?_eq_some hfind) body hbody
      simpa [clausesTried, hfind, Clause.uses, hnone] using hlast
    | again hfind =>
      have hargs : (raiseAgain line effect arg k).uses false B =
          [⟨arg, line, B⟩, ⟨effect, line, B⟩, ⟨k, line, B⟩] := by
        simp [raiseAgain, Expr.uses, usesAll, Expr.adds]
      rw [hargs, clausesTried, hfind]
      exact .cons harg hargB (.cons heffect heffectB (.cons hk hkB .nil))
  | cons c rest ih =>
    obtain ⟨hc, hcs⟩ := List.forall_mem_cons.1 hrest
    cases hlowered with
    | @guarded _ _ _ _ _ _ _ guard guard' body next hsome hguard hbody hnext =>
      have htest := LoweredClause.test_kept (c := c.lowered body) (hnames c hc _ (.head _)) harg hargB
        (hparts c hc guard (by simp [Clause.loweredParts, hsome]) guard' hguard)
      have hclause := htest.append (hbound c hc body hbody)
      have huses : c.uses B.written = guard.uses false (B.written.within c.line none [c.param]) ++
          c.body.uses false (B.written.within c.line none (c.param :: c.resume.toList)) := by
        simp [Clause.uses, hsome]
      rw [clausesTried, List.filter_cons_of_pos (by simp [hsome]), List.cons_append,
        List.flatMap_cons, huses, Expr.uses, ← List.append_assoc]
      exact hclause.append (ih hnext hcs)
    | unguarded hnone hnext =>
      rw [clausesTried, List.filter_cons_of_neg (by simp [hnone])]
      exact ih hnext hcs

/-- The clauses for all paths are the clauses. -/
theorem mem_usesClauses_paths {clauses : List (Clause Expr)} (hfit : ClausesFit clauses)
    {ps : List PathFunction} (hheads : ps.map PathFunction.head = firstClauses clauses) {u : Use} :
    (u ∈ ps.flatMap fun p => (clausesTried (clausesFor p.head.path clauses)
        (clausesFor p.head.path clauses)).flatMap fun c => c.uses B) ↔ u ∈ usesClauses B clauses := by
  simp only [List.mem_flatMap, mem_clausesTried (hfit.unguarded _), mem_clausesFor, mem_usesClauses]
  constructor
  · rintro ⟨p, -, c, ⟨hc, -⟩, hu⟩
    exact ⟨c, hc, hu⟩
  · rintro ⟨c, hc, hu⟩
    obtain ⟨d, hd, hpath⟩ := List.mem_map.1
      ((mem_paths_firstClauses _ _).2 (List.mem_map_of_mem hc))
    obtain ⟨p, hp, rfl⟩ := List.mem_map.1 (hheads ▸ hd)
    exact ⟨p, hp, c, ⟨hc, hpath.symm⟩, hu⟩

/-- What a handler mentions is kept: the names that its paths start with where it stands, and what its
clauses and the handled body mention there, behind names that are made up. -/
theorem handle_kept {line : Nat} {body body' : Expr} {clauses : List (Clause Expr)}
    {ps : List PathFunction} (hfit : ClausesFit clauses)
    (hwords : (Expr.handle line body clauses).Worded fun x => ¬ Reserved x)
    (hbody : KeepsUses body body')
    (hparts : ∀ c ∈ clauses, ∀ part ∈ c.loweredParts, ∀ e' : Expr, part.Lowered e' →
      KeepsUses part e')
    (hheads : ps.map PathFunction.head = firstClauses clauses)
    (hbodies : ∀ p ∈ ps, TriesLowered line p.effect p.arg p.k (clausesFor p.head.path clauses)
      (clausesFor p.head.path clauses) p.body) :
    KeepsUses (.handle line body clauses)
      (.block line (ps.map (·.binding line) ++ [.handled line (ps.map (·.clause line)) body'])) := by
  intro top B
  have hclauses : ∀ p ∈ ps, p.head ∈ clauses := fun p hp =>
    mem_of_mem_firstClauses (hheads ▸ List.mem_map_of_mem hp)
  have hpaths : ∀ p ∈ ps, p.head.effect.path?.isSome = true := fun p hp =>
    hfit.paths _ (hclauses p hp)
  have heffects : ∀ p ∈ ps, p.head.effect.Worded fun x => ¬ Reserved x := fun p hp =>
    hwords.part (.tail _ (List.mem_flatMap.2 ⟨p.head, hclauses p hp, .head _⟩))
  have hnames : ∀ c ∈ clauses, ∀ x ∈ c.param :: c.resume.toList, ¬ Reserved x := fun c hc x hx =>
    hwords.here.introduced (x, c.line) (List.mem_flatMap.2 ⟨c, hc, List.mem_map_of_mem hx⟩)
  -- The handled body and the functions see the names of the effects, which are reserved.
  let B' : Bindings := B.after false (PathFunction.around line ps)
  have hseen : B'.written = B.written := by
    have haround : Bindings.written (PathFunction.around line ps).reverse = [] := by
      refine Bindings.written_of_reserved fun b hb => ?_
      obtain ⟨p, -, rfl⟩ := List.mem_map.1 (List.mem_reverse.1 hb)
      exact p.reserved_effect
    refine (Bindings.written_append _ B).trans ?_
    rw [haround, List.nil_append]
  have hfunctions : ∀ p ∈ ps, Kept ((clausesTried (clausesFor p.head.path clauses)
      (clausesFor p.head.path clauses)).flatMap fun c => c.uses B.written)
      (⟨p.effect, line, B'⟩ :: p.body.uses false (B'.within line none [p.arg, p.k])) := by
    intro p hp
    have heffect : p.effect ∈ B'.map Prod.fst := by
      refine List.mem_map.2 ⟨(p.effect, line), List.mem_append_left _ ?_, rfl⟩
      exact List.mem_reverse.2 (List.mem_map_of_mem hp)
    have hinner : (B'.within line none [p.arg, p.k]).written = B.written := by
      have hparams : Bindings.written [(p.k, line), (p.arg, line)] = [] :=
        Bindings.written_of_reserved (by simp [p.reserved_arg, p.reserved_k])
      rw [← hseen]
      exact (Bindings.written_append [(p.k, line), (p.arg, line)] B').trans
        (by rw [hparams, List.nil_append])
    have htried := (hbodies p hp).kept (B := B'.within line none [p.arg, p.k])
      (fun c hc => hnames c (mem_clausesFor.1 hc).1) (fun c hc => hparts c (mem_clausesFor.1 hc).1)
      (fun _ hc => hc) (by simp [p.reserved_effect, p.reserved_arg, p.reserved_k])
      (List.forall_mem_cons.2 ⟨.tail _ (.tail _ heffect), List.forall_mem_cons.2
        ⟨.tail _ (.head _), List.forall_mem_singleton.2 (.head _)⟩⟩)
    rw [hinner] at htried
    exact htried.cons p.reserved_effect heffect
  have hpairs := (Kept.flatMap hfunctions).congr fun u => mem_usesClauses_paths hfit hheads
  have hhandled := hbody false B'
  rw [hseen] at hhandled
  have hbindings : Kept _ (usesAll false B (ps.map (·.binding line))) :=
    PathFunction.usesAll_binding_kept hpaths heffects B
  have hroots : (ps.flatMap fun p => p.head.effect.rootUses B.written) =
      (firstClauses clauses).flatMap fun c => c.effect.rootUses B.written := by
    rw [← hheads, List.flatMap_map]
  rw [hroots] at hbindings
  rw [Expr.uses, Expr.uses, usesAll_append, PathFunction.addsAll_binding hpaths, usesAll, usesAll,
    List.append_nil, Expr.uses, PathFunction.addsPairs_clause, PathFunction.usesPairs_clause,
    Bindings.after_nil]
  exact hbindings.append (hpairs.append hhandled)

end Clauses

/-- Lowering keeps what is mentioned in an expression whose names can be written. -/
theorem Expr.Lowered.keepsUses {e e' : Expr} (hlowered : e.Lowered e') (hfits : e.Every HandlerFits)
    (hwords : e.Worded fun x => ¬ Reserved x) : KeepsUses e e' := by
  have ih : ∀ part ∈ e.parts, ∀ part' : Expr, part.Lowered part' → KeepsUses part part' :=
    fun part hmem part' hpart =>
      have := sizeOf_lt_of_mem_parts hmem
      Lowered.keepsUses hpart (hfits.part hmem) (hwords.part hmem)
  have hadds : ∀ part ∈ e.parts, ∀ b ∈ part.adds, ¬ Reserved b.1 :=
    fun part hmem => Worded.adds (hwords.part hmem)
  intro top B
  cases hlowered with
  | atom hatom =>
    cases e with
    | name line x => exact .single (hwords.here.mentioned x (.head _)) line B
    | nothing | bool | int | float | str => exact .nil
    | _ => cases hatom
  | @call line callee callee' args args' hcallee hargs =>
    obtain ⟨ihCallee, ihArgs⟩ := List.forall_mem_cons.1 ih
    obtain ⟨-, haddsArgs⟩ := List.forall_mem_cons.1 hadds
    have hbefore : ∀ b ∈ addsAll args, ¬ Reserved b.1 := by
      rw [addsAll_eq_flatMap]
      exact fun b hb => (List.mem_flatMap.1 hb).elim fun e he => haddsArgs e he.1 b he.2
    rw [uses, uses, hargs.adds_eq, ← Bindings.written_after hbefore]
    exact (hargs.kept haddsArgs ihArgs top B).append (ihCallee _ hcallee top _)
  | @condElse line test test' whenTrue whenTrue' whenFalse whenFalse' htest htrue hfalse =>
    simp only [parts, Option.toList_some, List.forall_mem_cons] at ih hadds
    obtain ⟨ihTest, ihTrue, ihFalse, -⟩ := ih
    obtain ⟨haddsTest, haddsTrue, -⟩ := hadds
    have hboth := List.forall_mem_append.2 ⟨haddsTest, haddsTrue⟩
    simp only [uses, htest.adds_eq, htrue.adds_eq, ← Bindings.written_after haddsTest,
      ← Bindings.written_after hboth]
    exact (ihTest _ htest top B).append
      ((ihTrue _ htrue top _).append (ihFalse _ hfalse top _))
  | @condOnly line test test' whenTrue whenTrue' htest htrue =>
    simp only [parts, Option.toList_none, List.forall_mem_cons] at ih hadds
    obtain ⟨ihTest, ihTrue, -⟩ := ih
    rw [uses, uses, htest.adds_eq, ← Bindings.written_after hadds.1]
    exact (ihTest _ htest top B).append ((ihTrue _ htrue top _).append .nil)
  | @lambda line self params body body' hbody =>
    have hinside := ih _ (.head _) _ hbody false (B.within line self params)
    rwa [Bindings.written_within fun x hx =>
      hwords.here.introduced (x, line) (List.mem_map_of_mem hx)] at hinside
  | block hitems => exact hitems.kept hadds ih false B
  | list hitems | tuple hitems => exact hitems.kept hadds ih top B
  | declare hvalue => exact ih _ (.head _) _ hvalue top B
  | @assign line x value value' hvalue =>
    have hname := Kept.single (hwords.here.mentioned x (.head _)) line (B.after top value.adds)
    rw [Bindings.written_after (hadds _ (.head _))] at hname
    rw [uses, uses, hvalue.adds_eq]
    exact (ih _ (.head _) _ hvalue top B).append hname
  | record hfields =>
    exact hfields.kept (fun f hf => hadds _ (List.mem_map_of_mem hf))
      (fun f hf => ih _ (List.mem_map_of_mem hf)) top B
  | field htarget => exact ih _ (.head _) _ htarget top B
  | handle hbody hpaths hheads hnumbers hbodies =>
    refine handle_kept (hfits.here _ _ _ rfl) hwords (ih _ (.head _) _ hbody) (fun c hc part hpart =>
      ih part ?_) hheads hbodies top B
    refine List.mem_cons_of_mem _ (List.mem_flatMap.2 ⟨c, hc, ?_⟩)
    exact List.mem_cons_of_mem _ (by simpa [Clause.loweredParts, or_comm] using hpart)
  | handled => cases hwords.here.written
termination_by sizeOf e

/-- What a program whose names can be written mentions is kept by its lowering. -/
theorem Program.uses_kept {program lowered : Program}
    (hwords : ∀ e ∈ program, e.Worded fun x => ¬ Reserved x) (hlower : program.lower = .ok lowered) :
    Kept program.uses lowered.uses := by
  have hfits := program.lower_iff.1 ⟨lowered, hlower⟩
  exact (loweredAll hlower).kept (fun e he => (hwords e he).adds)
    (fun e he _ hlowered => hlowered.keepsUses (hfits e he) (hwords e he)) true []

section Lines

/-- The parts of an expression without their line numbers. -/
theorem Expr.parts_unlined (e : Expr) : e.unlined.parts = e.parts.map unlined := by
  cases e with
  | cond line test whenTrue whenFalse => cases whenFalse <;> simp [parts]
  | handle line body clauses =>
    have hclause : ∀ c : Clause Expr, c.unlined.effect :: c.unlined.body :: c.unlined.guard.toList =
        (c.effect :: c.body :: c.guard.toList).map unlined := by
      intro c
      cases hguard : c.guard <;> simp [Clause.unlined, hguard]
    simp only [unlined_handle, parts, List.flatMap_map, hclause, List.map_cons, List.map_flatMap]
  | handled line pairs body =>
    have hpairs : ∀ pairs, (unlinedPairs pairs).flatMap (fun p => [p.1, p.2]) =
        pairs.flatMap fun p => [p.1.unlined, p.2.unlined] := by
      intro pairs
      induction pairs with
      | nil => rfl
      | cons p pairs ih => rw [unlinedPairs, List.flatMap_cons, List.flatMap_cons, ih]
    simp [unlined, parts, hpairs, List.map_flatMap]
  | record line fields => simp [parts, unlinedField]
  | _ => simp [unlined, parts]

theorem Expr.introduces_unlined (e : Expr) :
    e.unlined.introduces.map Prod.fst = e.introduces.map Prod.fst := by
  cases e with
  | handle line body clauses =>
    simp [introduces, unlined_handle, List.flatMap_map, List.map_flatMap, Clause.unlined,
      Function.comp_def]
  | _ => simp [unlined, introduces, Function.comp_def]

theorem Expr.hasWords_unlined {W : String → Prop} (e : Expr) : HasWords W e.unlined ↔ HasWords W e := by
  have hwritten : e.unlined.isHandled = e.isHandled := by cases e <;> simp [unlined, isHandled]
  have hmentions : e.unlined.mentions = e.mentions := by cases e <;> simp [unlined, mentions]
  have hintroduced : ∀ e : Expr, (∀ b ∈ e.introduces, W b.1) ↔ ∀ x ∈ e.introduces.map Prod.fst, W x :=
    fun e => List.forall_mem_map.symm
  constructor
  · rintro ⟨hhandled, hintroduces, hmentioned⟩
    refine ⟨hwritten ▸ hhandled, ?_, hmentions ▸ hmentioned⟩
    rwa [hintroduced, ← introduces_unlined, ← hintroduced]
  · rintro ⟨hhandled, hintroduces, hmentioned⟩
    refine ⟨hwritten ▸ hhandled, ?_, hmentions ▸ hmentioned⟩
    rwa [hintroduced, introduces_unlined, ← hintroduced]

/-- The words of an expression are those of the same expression on other lines. -/
theorem Expr.worded_unlined {W : String → Prop} {e : Expr} : e.unlined.Worded W ↔ e.Worded W := by
  have ih : ∀ part ∈ e.parts, (part.unlined.Worded W ↔ part.Worded W) := fun part hmem =>
    have := sizeOf_lt_of_mem_parts hmem
    worded_unlined
  rw [Worded, every_iff, every_iff, parts_unlined, List.forall_mem_map]
  exact and_congr e.hasWords_unlined (forall₂_congr ih)
termination_by sizeOf e

/-- A program that is read but for its lines has no reserved names. -/
theorem Program.worded_of_unlined {W : String → Prop} {program read : Program}
    (hread : ∀ e ∈ read, e.Worded W) (hlines : program.map Expr.unlined = read.map Expr.unlined) :
    ∀ e ∈ program, e.Worded W := by
  intro e he
  obtain ⟨e', he', hsame⟩ := List.mem_map.1 (hlines ▸ List.mem_map_of_mem he : e.unlined ∈ read.map _)
  rw [← Expr.worded_unlined, ← hsame, Expr.worded_unlined]
  exact hread e' he'

end Lines

end Resumable
