import Resumable.Proofs.Expr.Taking

/-!
Reading with a larger measure. What is read, and where reading stops, does not depend on the measure as
long as it does not run out.
-/

namespace Resumable

namespace Read

variable {α β : Type}

/-- The second of two actions does what the first does, except where the measure of the first runs
out. -/
def Outlasts (p q : Read α) : Prop :=
  ∀ s, (∃ s', p s = .error .exhausted s') ∨ q s = p s

namespace Outlasts

variable {p q : Read α} {f g : α → Read β}

theorem rfl (p : Read α) : Outlasts p p :=
  fun _ => .inr (Eq.refl _)

theorem exhausted (q : Read α) : Outlasts (throw .exhausted) q :=
  fun s => .inl ⟨s, Eq.refl _⟩

theorem bind (hp : Outlasts p q) (hf : ∀ a, Outlasts (f a) (g a)) :
    Outlasts (p >>= f) (q >>= g) := by
  intro s
  obtain ⟨s', hrun⟩ | hsame := hp s
  · exact .inl ⟨s', bind_of_error hrun⟩
  · cases hrun : p s with
    | error stop s₁ =>
      rw [bind_of_error hrun, bind_of_error (hsame.trans hrun)]
      exact .inr (Eq.refl _)
    | ok a s₁ =>
      rw [bind_of_ok hrun, bind_of_ok (hsame.trans hrun)]
      exact hf a s₁

/-- The same action first. -/
theorem next (p : Read α) (hf : ∀ a, Outlasts (f a) (g a)) : Outlasts (p >>= f) (p >>= g) :=
  (Outlasts.rfl p).bind hf

theorem either {c : Prop} [Decidable c] {p' q' : Read α} (hp : Outlasts p q)
    (hp' : Outlasts p' q') : Outlasts (if c then p else p') (if c then q else q') := by
  split
  · exact hp
  · exact hp'

theorem map {h : α → β} (hp : Outlasts p q) : Outlasts (h <$> p) (h <$> q) := by
  rw [map_eq_pure_bind, map_eq_pure_bind]
  exact hp.bind fun _ => .rfl _

theorem attempt (hp : Outlasts p q) : Outlasts (Read.attempt p) (Read.attempt q) := by
  intro s
  obtain ⟨s', hrun⟩ | hsame := hp s
  · refine .inl ⟨s', ?_⟩
    rw [Read.attempt, hrun]
  · refine .inr ?_
    rw [Read.attempt, Read.attempt, hsame]

theorem ok_of_ok {a : α} {s s' : ReadState} (h : Outlasts p q) (hp : p s = .ok a s') :
    q s = .ok a s' := by
  refine ((h s).resolve_left ?_).trans hp
  rintro ⟨s₁, hrun⟩
  rw [hp] at hrun
  cases hrun

/-- An outcome other than exhaustion is kept. -/
theorem run_eq (h : Outlasts p q) {s : ReadState} (hp : Takes false p s) : q s = p s := by
  refine (h s).resolve_left ?_
  rintro ⟨s', hrun⟩
  rw [Takes, hrun] at hp
  exact hp

end Outlasts

variable {expr expr' : Read Expr} {bound bound' : Nat}

theorem items_outlasts {item item' : Read α} (hitem : Outlasts item item') (close : Mark)
    (hbound : bound ≤ bound') (done : List α) :
    Outlasts (items item close bound done) (items item' close bound' done) := by
  induction bound generalizing bound' done with
  | zero => exact .exhausted _
  | succ bound ih =>
    obtain _ | bound' := bound'
    · omega
    rw [items, items]
    refine .next _ fun _ => .either (.rfl _) (hitem.bind fun x => .next _ fun _ => .either ?_ (.rfl _))
    exact ih (by omega) (x :: done)

theorem enclosed_outlasts {item item' : Read α} (hitem : Outlasts item item') (close : Mark)
    (what : String) (hbound : bound ≤ bound') :
    Outlasts (enclosed item close what bound) (enclosed item' close what bound') :=
  (items_outlasts hitem close hbound []).bind fun _ => .rfl _

theorem parameters_outlasts (hbound : bound ≤ bound') (done : List String) :
    Outlasts (parameters bound done) (parameters bound' done) := by
  induction bound generalizing bound' done with
  | zero => exact .exhausted _
  | succ bound ih =>
    obtain _ | bound' := bound'
    · omega
    rw [parameters, parameters]
    exact .next _ fun name => .next _ fun _ => .either (ih (by omega) (name :: done)) (.rfl _)

theorem path_outlasts (line : Nat) (hbound : bound ≤ bound') (start : Expr) :
    Outlasts (path line bound start) (path line bound' start) := by
  induction bound generalizing bound' start with
  | zero => exact .exhausted _
  | succ bound ih =>
    obtain _ | bound' := bound'
    · omega
    rw [path, path]
    exact .next _ fun _ => .either (.next _ fun _ => ih (by omega) _) (.rfl _)

theorem round_outlasts (hexpr : Outlasts expr expr') (isEnd : Lexeme → Bool) :
    Outlasts (round expr isEnd) (round expr' isEnd) := by
  refine hexpr.attempt.bind fun r => ?_
  cases r <;> exact .rfl _

theorem statements_outlasts (hexpr : Outlasts expr expr') (isEnd : Lexeme → Bool)
    (hbound : bound ≤ bound') (done : List Expr) :
    Outlasts (statements expr isEnd bound done) (statements expr' isEnd bound' done) := by
  induction bound generalizing bound' done with
  | zero => exact .exhausted _
  | succ bound ih =>
    obtain _ | bound' := bound'
    · omega
    rw [statements_succ, statements_succ]
    exact .next _ fun _ => .either (.rfl _)
      ((round_outlasts hexpr isEnd).bind fun _ => ih (by omega) _)

section Constructs

variable (hexpr : Outlasts expr expr') (hbound : bound ≤ bound')
include hexpr

theorem conditional_outlasts : Outlasts (conditional expr) (conditional expr') :=
  .next _ fun _ => hexpr.bind fun _ => .next _ fun _ => hexpr.bind fun _ => .next _ fun _ =>
    .either (.next _ fun _ => hexpr.bind fun _ => .rfl _) (.rfl _)

include hbound

theorem lambda_outlasts (name : Option String) :
    Outlasts (lambda expr bound name) (lambda expr' bound' name) := by
  have hbody : ∀ line params, Outlasts (do
      expect .pipe "'|' after parameters"
      let body ← expr
      return Expr.lambda line name params body) (do
      expect .pipe "'|' after parameters"
      let body ← expr'
      return Expr.lambda line name params body) :=
    fun _ _ => .next _ fun _ => hexpr.bind fun _ => .rfl _
  exact .next _ fun _ => .next _ fun _ => .either (.next _ fun _ => hbody _ _)
    ((parameters_outlasts hbound []).bind fun _ => hbody _ _)

theorem declaration_outlasts : Outlasts (declaration expr bound) (declaration expr' bound') :=
  .next _ fun _ => .next _ fun _ => .next _ fun _ => .next _ fun _ =>
    .either ((lambda_outlasts hexpr hbound _).bind fun _ => .rfl _) (hexpr.bind fun _ => .rfl _)

theorem clause_outlasts : Outlasts (clause expr bound) (clause expr' bound') := by
  have hend : ∀ effect param resume guard line, Outlasts (do
      expect .fatArrow "'=>'"
      let body ← expr
      return ({ effect, param, resume, guard, body, line } : Clause Expr)) (do
      expect .fatArrow "'=>'"
      let body ← expr'
      return ({ effect, param, resume, guard, body, line } : Clause Expr)) :=
    fun _ _ _ _ _ => .next _ fun _ => hexpr.bind fun _ => .rfl _
  refine .next _ fun _ => .next _ fun _ => (path_outlasts _ hbound _).bind fun _ => .next _ fun _ =>
    .next _ fun _ => .next _ fun _ => .either ?_ ?_ <;>
  · refine .next _ fun _ => .next _ fun _ => .next _ fun _ => .either ?_ ?_
    · exact hexpr.map.bind fun _ => hend _ _ _ _ _
    · exact .next _ fun _ => hend _ _ _ _ _

theorem handler_outlasts : Outlasts (handler expr bound) (handler expr' bound') :=
  .next _ fun _ => hexpr.bind fun _ => .next _ fun _ => .next _ fun _ =>
    (enclosed_outlasts (clause_outlasts hexpr hbound) _ _ hbound).bind fun _ => .rfl _

theorem recordLiteral_outlasts : Outlasts (recordLiteral expr bound) (recordLiteral expr' bound') :=
  have hfield : Outlasts (recordField expr) (recordField expr') :=
    .next _ fun _ => .next _ fun _ => hexpr.bind fun _ => .rfl _
  .next _ fun _ => .next _ fun _ => (enclosed_outlasts hfield _ _ hbound).bind fun _ => .rfl _

theorem parenthesized_outlasts : Outlasts (parenthesized expr bound) (parenthesized expr' bound') :=
  .next _ fun _ => .next _ fun _ => .either (.rfl _) (hexpr.bind fun _ => .next _ fun _ =>
    .either (.rfl _) (.next _ fun _ => (enclosed_outlasts hexpr _ _ hbound).bind fun _ => .rfl _))

theorem block_outlasts : Outlasts (block expr bound) (block expr' bound') :=
  .next _ fun _ => (statements_outlasts hexpr _ hbound []).bind fun _ => .rfl _

theorem listLiteral_outlasts : Outlasts (listLiteral expr bound) (listLiteral expr' bound') :=
  .next _ fun _ => (enclosed_outlasts hexpr _ _ hbound).bind fun _ => .rfl _

theorem primary_outlasts : Outlasts (primary expr bound) (primary expr' bound') := by
  refine .next _ fun _ => ?_
  split
  case h_1 | h_2 | h_3 | h_4 | h_5 | h_6 | h_7 | h_15 => exact .rfl _
  case h_8 => exact recordLiteral_outlasts hexpr hbound
  case h_9 | h_10 | h_11 => exact hexpr
  case h_12 => exact parenthesized_outlasts hexpr hbound
  case h_13 => exact listLiteral_outlasts hexpr hbound
  case h_14 => exact block_outlasts hexpr hbound

theorem postfixes_outlasts (subject : Expr) :
    Outlasts (postfixes expr bound subject) (postfixes expr' bound' subject) := by
  induction bound generalizing bound' subject with
  | zero => exact .exhausted _
  | succ bound ih =>
    obtain _ | bound' := bound'
    · omega
    have hless : bound ≤ bound' := by omega
    rw [postfixes, postfixes]
    refine .next _ fun _ => .next _ fun _ => .either ?_ (.next _ fun _ => .either ?_
      (.next _ fun _ => .either ?_ (.rfl _)))
    · exact (enclosed_outlasts hexpr _ _ hless).bind fun _ => ih hless _
    · exact .next _ fun _ => ih hless _
    · exact hexpr.bind fun _ => .next _ fun _ => ih hless _

theorem unary_outlasts : Outlasts (unary expr bound) (unary expr' bound') := by
  induction bound generalizing bound' with
  | zero => exact .exhausted _
  | succ bound ih =>
    obtain _ | bound' := bound'
    · omega
    have hless : bound ≤ bound' := by omega
    rw [unary, unary]
    refine .next _ fun _ => .next _ fun _ => .either ?_ (.next _ fun _ => .either ?_ ?_)
    · exact (ih hless).bind fun _ => .rfl _
    · exact (ih hless).bind fun _ => .rfl _
    · exact (primary_outlasts hexpr hless).bind fun subject => postfixes_outlasts hexpr hless subject

end Constructs

theorem climb_outlasts {operand operand' : Read Expr} (hoperand : Outlasts operand operand')
    (hbound : bound ≤ bound') (least : Nat) (left : Expr) :
    Outlasts (climb operand bound least left) (climb operand' bound' least left) := by
  induction bound generalizing bound' least left with
  | zero => exact .exhausted _
  | succ bound ih =>
    obtain _ | bound' := bound'
    · omega
    have hless : bound ≤ bound' := by omega
    rw [climb, climb]
    refine .next _ fun token => ?_
    split
    · exact .either (.rfl _) (.next _ fun _ => hoperand.bind fun _ => (ih hless _ _).bind fun _ =>
        ih hless _ _)
    · exact .rfl _

theorem binary_outlasts {operand operand' : Read Expr} (hoperand : Outlasts operand operand')
    (hbound : bound ≤ bound') (least : Nat) :
    Outlasts (binary operand bound least) (binary operand' bound' least) :=
  hoperand.bind fun left => climb_outlasts hoperand hbound least left

/-- A larger measure changes nothing in what is read as an expression. -/
theorem expr_outlasts (hbound : bound ≤ bound') : Outlasts (Read.expr bound) (Read.expr bound') := by
  induction bound generalizing bound' with
  | zero => exact .exhausted _
  | succ bound ih =>
    obtain _ | bound' := bound'
    · omega
    have hless : bound ≤ bound' := by omega
    have hexpr := ih hless
    have hoperators := binary_outlasts (unary_outlasts hexpr hless) hless 0
    rw [Read.expr, Read.expr]
    refine .next _ fun token => ?_
    simp only []
    split
    · exact declaration_outlasts hexpr hless
    · exact .rfl _
    · exact handler_outlasts hexpr hless
    · exact conditional_outlasts hexpr
    · exact lambda_outlasts hexpr hless none
    · exact .next _ fun _ => .either (.next _ fun _ => .next _ fun _ => hexpr.bind fun _ => .rfl _)
        hoperators
    · exact hoperators

end Read

end Resumable
