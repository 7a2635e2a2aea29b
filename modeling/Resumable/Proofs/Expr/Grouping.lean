import Resumable.Expr.Handlers
import Resumable.Proofs.Action

/-!
The clauses of a handler by the paths of their effects. The groups that lowering makes are those of the
first clause for each path, in the order in which these are written, and each has the clauses for its
path in the order in which they are written.
-/

namespace Resumable

/-- The path of the effect of a clause. -/
def Clause.path (c : Clause Expr) : String :=
  c.effect.path?.getD ""

/-- A clause with the lowering of its guard and its body put off. -/
def Clause.pending (c : Clause Expr) : PendingClause :=
  ⟨c.param, c.resume, c.line, c.guard.map Expr.lower, c.body.lower⟩

theorem pendingClauses_eq (clauses : List (Clause Expr)) :
    pendingClauses clauses = clauses.map fun c => (c.effect, c.pending) := by
  induction clauses with
  | nil => rw [pendingClauses, List.map_nil]
  | cons c clauses ih =>
    obtain ⟨effect, param, resume, guard, body, line⟩ := c
    cases guard with
    | none => rw [pendingClauses, ih, List.map_cons, Clause.pending, Option.map_none]
    | some guard => rw [pendingClauses, ih, List.map_cons, Clause.pending, Option.map_some]

/-- The first clause for each path, in the order they are written. -/
def firstClauses : List (Clause Expr) → List (Clause Expr)
  | [] => []
  | c :: clauses => c :: (firstClauses clauses).filter fun d => decide (d.path ≠ c.path)

/-- The clauses for a path, in the order they are written. -/
def clausesFor (path : String) (clauses : List (Clause Expr)) : List (Clause Expr) :=
  clauses.filter fun c => decide (c.path = path)

/-- The group of the clauses for the path of one of them. -/
def groupOf (clauses : List (Clause Expr)) (c : Clause Expr) : ClauseGroup :=
  ⟨c.path, c.effect, (clausesFor c.path clauses).map Clause.pending⟩

variable {c : Clause Expr} {clauses heads : List (Clause Expr)}

theorem mem_clausesFor {path : String} : c ∈ clausesFor path clauses ↔ c ∈ clauses ∧ c.path = path := by
  simp [clausesFor]

theorem clausesFor_concat (path : String) (clauses : List (Clause Expr)) (c : Clause Expr) :
    clausesFor path (clauses ++ [c]) =
      clausesFor path clauses ++ if c.path = path then [c] else [] := by
  unfold clausesFor
  rw [List.filter_append]
  congr 1
  split
  next h => simp [h]
  next h => simp [h]

theorem mem_of_mem_firstClauses (hmem : c ∈ firstClauses clauses) : c ∈ clauses := by
  induction clauses with
  | nil => cases hmem
  | cons d clauses ih =>
    obtain rfl | hmem := List.mem_cons.1 hmem
    · exact .head _
    · exact .tail _ (ih (List.mem_filter.1 hmem).1)

theorem mem_paths_firstClauses (path : String) (clauses : List (Clause Expr)) :
    path ∈ (firstClauses clauses).map Clause.path ↔ path ∈ clauses.map Clause.path := by
  induction clauses with
  | nil => rfl
  | cons c clauses ih =>
    rw [firstClauses, List.map_cons, List.map_cons, List.mem_cons, List.mem_cons, ← ih]
    by_cases hpath : path = c.path
    · simp [hpath]
    · simp only [hpath, false_or, List.mem_map, List.mem_filter, decide_eq_true_eq]
      constructor
      · rintro ⟨d, ⟨hd, -⟩, rfl⟩
        exact ⟨d, hd, rfl⟩
      · rintro ⟨d, hd, rfl⟩
        exact ⟨d, ⟨hd, hpath⟩, rfl⟩

theorem pairwise_firstClauses (clauses : List (Clause Expr)) :
    (firstClauses clauses).Pairwise fun c d => d.path ≠ c.path := by
  induction clauses with
  | nil => exact .nil
  | cons c clauses ih =>
    refine List.pairwise_cons.2 ⟨?_, ih.filter _⟩
    intro d hd
    simpa using (List.mem_filter.1 hd).2

theorem firstClauses_concat (clauses : List (Clause Expr)) (c : Clause Expr) :
    firstClauses (clauses ++ [c]) =
      firstClauses clauses ++ if c.path ∈ clauses.map Clause.path then [] else [c] := by
  induction clauses with
  | nil => rfl
  | cons d clauses ih =>
    rw [List.cons_append, firstClauses, firstClauses, ih, List.filter_append, List.cons_append,
      List.map_cons]
    congr 2
    by_cases hmem : c.path ∈ clauses.map Clause.path
    · rw [if_pos hmem, if_pos (List.mem_cons_of_mem _ hmem), List.filter_nil]
    · rw [if_neg hmem]
      by_cases hsame : c.path = d.path
      · rw [if_pos (by simp [hsame]), List.filter_cons_of_neg (by simpa using hsame),
          List.filter_nil]
      · rw [if_neg (by simpa [hsame] using hmem), List.filter_cons_of_pos (by simpa using hsame),
          List.filter_nil]

theorem clausesFor_eq_nil (hpath : c.path ∉ clauses.map Clause.path) :
    clausesFor c.path clauses = [] := by
  refine List.filter_eq_nil_iff.2 fun d hd => ?_
  intro hsame
  exact hpath (List.mem_map.2 ⟨d, hd, of_decide_eq_true hsame⟩)

namespace ClauseGroup

/-- A clause joins the group of its path, or opens one behind the others. -/
theorem insert_groupOf (hdistinct : heads.Pairwise fun c d => d.path ≠ c.path)
    (hnew : c.path ∉ heads.map Clause.path → c.path ∉ clauses.map Clause.path) :
    insert c.path c.effect c.pending (heads.map (groupOf clauses)) =
      (heads ++ if c.path ∈ heads.map Clause.path then [] else [c]).map
        (groupOf (clauses ++ [c])) := by
  induction heads with
  | nil =>
    have hnone := clausesFor_eq_nil (hnew (by simp))
    simp [insert, groupOf, clausesFor_concat, hnone]
  | cons h heads ih =>
    obtain ⟨hfirst, hrest⟩ := List.pairwise_cons.1 hdistinct
    rw [List.map_cons, insert]
    by_cases hsame : h.path = c.path
    · have hothers : heads.map (groupOf clauses) = heads.map (groupOf (clauses ++ [c])) := by
        refine List.map_congr_left fun d hd => ?_
        have hne : c.path ≠ d.path := fun heq => hfirst d hd (by rw [← heq, hsame])
        simp [groupOf, clausesFor_concat, hne]
      have hjoined : { groupOf clauses h with
          clauses := (groupOf clauses h).clauses ++ [c.pending] } = groupOf (clauses ++ [c]) h := by
        simp [groupOf, clausesFor_concat, hsame]
      rw [if_pos (show (groupOf clauses h).key = c.path from hsame), hjoined, hothers,
        if_pos (by simp [hsame]), List.append_nil, List.map_cons]
    · have hkept : groupOf clauses h = groupOf (clauses ++ [c]) h := by
        simp [groupOf, clausesFor_concat, Ne.symm hsame]
      have hmem : c.path ∈ (h :: heads).map Clause.path ↔ c.path ∈ heads.map Clause.path := by
        simp [Ne.symm hsame]
      rw [if_neg (show (groupOf clauses h).key ≠ c.path from hsame),
        ih hrest fun hnot => hnew (mt hmem.1 hnot), hkept, List.cons_append, List.map_cons]
      simp only [hmem]

/-- Clauses whose effects are paths are grouped by them, behind clauses that have been grouped
already. -/
theorem collect_groupOf (hpaths : ∀ c ∈ clauses, c.effect.path?.isSome = true)
    (done : List (Clause Expr)) (s : LowerState) :
    collect ((firstClauses done).map (groupOf done)) (clauses.map fun c => (c.effect, c.pending)) s =
      .ok ((firstClauses (done ++ clauses)).map (groupOf (done ++ clauses))) s := by
  induction clauses generalizing done with
  | nil =>
    rw [List.append_nil, List.map_nil, collect]
    rfl
  | cons c clauses ih =>
    obtain ⟨hc, hrest⟩ := List.forall_mem_cons.1 hpaths
    obtain ⟨key, hkey⟩ := Option.isSome_iff_exists.1 hc
    have hpath : c.path = key := by simp [Clause.path, hkey]
    have hnew : c.path ∉ (firstClauses done).map Clause.path → c.path ∉ done.map Clause.path :=
      mt (mem_paths_firstClauses _ _).2
    have hinsert := insert_groupOf (pairwise_firstClauses done) hnew
    simp only [mem_paths_firstClauses] at hinsert
    rw [← firstClauses_concat] at hinsert
    rw [List.map_cons, collect]
    simp only [hkey]
    rw [← hpath, hinsert, ih hrest, List.append_assoc, List.singleton_append]

/-- The clauses in groups are those that have been collected. -/
theorem mem_insert {key : String} {effect : Expr} {clause : PendingClause}
    {groups : List ClauseGroup} {g : ClauseGroup} (hg : g ∈ insert key effect clause groups)
    {d : PendingClause} (hd : d ∈ g.clauses) : d = clause ∨ ∃ g' ∈ groups, d ∈ g'.clauses := by
  induction groups with
  | nil =>
    obtain rfl := List.mem_singleton.1 hg
    exact Or.inl (List.mem_singleton.1 hd)
  | cons first groups ih =>
    rw [insert] at hg
    split at hg
    · obtain rfl | hg := List.mem_cons.1 hg
      · obtain hd | hd := List.mem_append.1 hd
        · exact Or.inr ⟨first, .head _, hd⟩
        · exact Or.inl (List.mem_singleton.1 hd)
      · exact Or.inr ⟨g, .tail _ hg, hd⟩
    · obtain rfl | hg := List.mem_cons.1 hg
      · exact Or.inr ⟨g, .head _, hd⟩
      · exact (ih hg).imp_right fun ⟨g', hg', hd⟩ => ⟨g', .tail _ hg', hd⟩

end ClauseGroup

end Resumable
