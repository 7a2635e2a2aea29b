import Mathlib.Logic.Relation
import Resumable.Proofs.Expr.Outlasting

/-!
Which token lists can be read to an end. The loop over the statements of a program takes tokens in
every iteration but those that begin at a closing brace; these leave everything as it is but the
errors, so that the loop goes on for ever. Nothing else keeps reading from coming to an end.
-/

namespace Resumable

namespace Read

/-- One iteration of a loop over statements leads from the first state to the second. -/
def Round (isEnd : Lexeme → Bool) (s s' : ReadState) : Prop :=
  ∃ bound r, round (Read.expr bound) isEnd s = .ok r s'

/-- The loop over the statements of a program goes on from the first state to the second. -/
def Next (s s' : ReadState) : Prop :=
  s.front.lexeme.isEnding = false ∧ Round Lexeme.isEnding s s'

/-- The states at which the loop over the statements of a program arrives. -/
def Head (tokens : List Token) (s : ReadState) : Prop :=
  Relation.ReflTransGen Next ⟨tokens, []⟩ s

/-- From the first state a whole statement is read, and the semicolon after it leads to the second. -/
def Completes (s s' : ReadState) : Prop :=
  ∃ x s₁, Read.expr (2 * s.tokens.length + 2) s = .ok x s₁ ∧ s₁.front.lexeme.isMark .semicolon = true ∧
    s' = s₁.rest

/-- An error stops the statement at the first state, or something else than a semicolon follows it, and
recovery from that ends at the second. -/
def Recovers (s s' : ReadState) : Prop :=
  ∃ e s₁, recover e s₁ = .ok () s' ∧
    (Read.expr (2 * s.tokens.length + 2) s = .error (.error e) s₁ ∨
      ∃ x, Read.expr (2 * s.tokens.length + 2) s = .ok x s₁ ∧ unexpected "';'" s₁ = .ok e s₁)

/-- A closing brace is at the front. -/
def Stuck (s : ReadState) : Prop :=
  s.front.lexeme.isMark .closeCurly = true

section Rounds

variable {isEnd : Lexeme → Bool} {s s' : ReadState}

theorem expr_ample (s : ReadState) : Takes true (Read.expr (2 * s.tokens.length + 2)) s :=
  expr_takes (.inl (Nat.le_refl _))

theorem expr_run_eq {bound : Nat} (hbound : 2 * s.tokens.length + 2 ≤ bound) :
    Read.expr bound s = Read.expr (2 * s.tokens.length + 2) s :=
  (expr_outlasts hbound).run_eq (expr_ample s).weaken

/-- The outcome of an iteration does not depend on the measure. -/
theorem round_of_ok {bound : Nat} {r : Option Expr}
    (h : round (Read.expr bound) isEnd s = .ok r s') :
    round (Read.expr (2 * s.tokens.length + 2)) isEnd s = .ok r s' := by
  obtain hle | hle := Nat.le_total bound (2 * s.tokens.length + 2)
  · exact (round_outlasts (expr_outlasts hle) isEnd).ok_of_ok h
  · obtain ⟨r', s₁, hround, _⟩ := round_run (expr_ample s) isEnd
    have hsame := (round_outlasts (expr_outlasts hle) isEnd).ok_of_ok hround
    rw [hround, ← hsame, h]

/-- An iteration fails only where the measure runs out. -/
theorem round_error {bound : Nat} {stop : ReadStop}
    (h : round (Read.expr bound) isEnd s = .error stop s') : stop = .exhausted := by
  obtain ⟨r, s₁, hround, _⟩ := round_run (expr_ample s) isEnd
  obtain hle | hle := Nat.le_total bound (2 * s.tokens.length + 2)
  · obtain ⟨s₂, hrun⟩ | hsame := round_outlasts (expr_outlasts hle) isEnd s
    · rw [h] at hrun
      cases hrun
      rfl
    · rw [hround, h] at hsame
      cases hsame
  · rw [(round_outlasts (expr_outlasts hle) isEnd).ok_of_ok hround] at h
    cases h

theorem round_exists (isEnd : Lexeme → Bool) (s : ReadState) : ∃ s', Round isEnd s s' := by
  obtain ⟨r, s', hround, _⟩ := round_run (expr_ample s) isEnd
  exact ⟨s', _, r, hround⟩

theorem Round.unique {s₁ s₂ : ReadState} (h₁ : Round isEnd s s₁) (h₂ : Round isEnd s s₂) :
    s₁ = s₂ := by
  obtain ⟨_, r₁, h₁⟩ := h₁
  obtain ⟨_, r₂, h₂⟩ := h₂
  have hsame := (round_of_ok h₁).symm.trans (round_of_ok h₂)
  injection hsame

theorem Round.facts (h : Round isEnd s s') : s'.tokens <:+ s.tokens ∧
    (s.front.lexeme.isEnding = false → s.front.lexeme.isMark .closeCurly = false →
      s'.tokens.length < s.tokens.length) ∧
    RoundEnd (Read.expr (2 * s.tokens.length + 2)) isEnd s s' := by
  obtain ⟨r, s₁, hround, hfacts⟩ := round_run (expr_ample s) isEnd
  rwa [h.unique ⟨_, r, hround⟩]

end Rounds

section Brace

variable {s s' : ReadState}

theorem operand_error {operand : Read Expr} {e : SyntaxError} (bound least : Nat)
    (h : operand s = .error (.error e) s) : binary operand bound least s = .error (.error e) s :=
  bind_of_error h

/-- No expression begins with a closing brace or parenthesis. -/
theorem expr_refused {bound : Nat} (hbound : 2 ≤ bound) {m : Mark}
    (hm : m = .closeCurly ∨ m = .closeParen) (h : s.front.lexeme.isMark m = true) :
    ∃ e, Read.expr bound s = .error (.error e) s := by
  obtain _ | _ | bound := bound
  · omega
  · omega
  have hfront : s.front.lexeme = .mark m := eq_of_isMark h
  have hprimary : ∀ expr bound, ∃ e, primary expr bound s = .error (.error e) s := by
    intro expr bound
    obtain ⟨e, he⟩ := refuse_run (α := Expr) "expression" s
    refine ⟨e, ?_⟩
    rw [primary, bind_of_ok (current_run s)]
    obtain rfl | rfl := hm <;> simp only [hfront] <;> exact he
  obtain ⟨e, he⟩ := hprimary (Read.expr (bound + 1)) bound
  have hunary : unary (Read.expr (bound + 1)) (bound + 1) s = .error (.error e) s := by
    obtain ⟨hminus, _⟩ | ⟨_, hminus⟩ := accept_cases .minus s
    · rw [hfront] at hminus
      obtain rfl | rfl := hm <;> cases hminus
    obtain ⟨hnot, _⟩ | ⟨_, hnot⟩ := acceptKeyword_cases .negate s
    · rw [hfront] at hnot
      cases hnot
    rw [unary, bind_of_ok (current_run s), bind_of_ok hminus]
    refine Eq.trans (bind_of_ok hnot) ?_
    exact bind_of_error he
  refine ⟨e, ?_⟩
  rw [Read.expr, bind_of_ok (current_run s)]
  obtain rfl | rfl := hm <;> simp only [hfront] <;> exact operand_error _ _ hunary

theorem expr_stuck {bound : Nat} (hbound : 2 ≤ bound) (h : Stuck s) :
    ∃ e, Read.expr bound s = .error (.error e) s :=
  expr_refused hbound (.inl rfl) h

theorem resync_stuck (h : Stuck s) : resync 0 s.tokens = s.tokens := by
  obtain ⟨_ | ⟨t, ts⟩, errors⟩ := s
  · rfl
  · have hfront : t.lexeme = .mark .closeCurly := eq_of_isMark h
    simp [resync, hfront]

/-- An iteration that begins at a closing brace only adds an error. -/
theorem Round.stuck {isEnd : Lexeme → Bool} (h : Stuck s) (hround : Round isEnd s s') :
    ∃ e, s' = ⟨s.tokens, e :: s.errors⟩ := by
  have hbound : 2 ≤ 2 * s.tokens.length + 2 := Nat.le_add_left _ _
  obtain ⟨e, he⟩ := expr_stuck hbound h
  have hattempt : attempt (Read.expr (2 * s.tokens.length + 2)) s = .ok (.error e) s := by
    rw [attempt, he]
  have hrun : round (Read.expr (2 * s.tokens.length + 2)) isEnd s =
      .ok none ⟨resync 0 s.tokens, e :: s.errors⟩ := by
    rw [round, bind_of_ok hattempt]
    exact bind_of_ok (recover_run e s)
  rw [resync_stuck h] at hrun
  exact ⟨e, hround.unique ⟨_, _, hrun⟩⟩

end Brace

section Loop

variable {s s' t : ReadState} {n bound : Nat}

theorem Stuck.isEnding (h : Stuck s) : s.front.lexeme.isEnding = false :=
  isEnding_of_isMark h

/-- From a closing brace on the position never changes again. -/
theorem Stuck.tokens_eq (h : Stuck s) (hreach : Relation.ReflTransGen Next s s') :
    Stuck s' ∧ s'.tokens = s.tokens := by
  induction hreach with
  | refl => exact ⟨h, rfl⟩
  | tail _ hnext ih =>
    obtain ⟨e, rfl⟩ := Round.stuck ih.1 hnext.2
    exact ih

/-- Where the loop arrives at a closing brace, no measure lasts to its end. -/
theorem statements_exhausted (n bound : Nat) (hreach : Relation.ReflTransGen Next s t) (ht : Stuck t)
    (done : List Expr) :
    ∃ s', statements (Read.expr n) Lexeme.isEnding bound done s = .error .exhausted s' := by
  induction bound generalizing s t done with
  | zero => exact ⟨s, rfl⟩
  | succ bound ih =>
    -- the loop goes on, and where it goes on to, it still arrives at a closing brace
    obtain ⟨hend, s₁, hround, hreach₁⟩ : s.front.lexeme.isEnding = false ∧
        ∃ s₁, Round Lexeme.isEnding s s₁ ∧ ∃ t, Relation.ReflTransGen Next s₁ t ∧ Stuck t := by
      obtain rfl | ⟨s₁, hnext, hmore⟩ := hreach.cases_head
      · obtain ⟨s₁, hround⟩ := round_exists Lexeme.isEnding s
        obtain ⟨e, rfl⟩ := Round.stuck ht hround
        exact ⟨ht.isEnding, _, hround, _, .refl, ht⟩
      · exact ⟨hnext.1, s₁, hnext.2, t, hmore, ht⟩
    obtain ⟨t, hreach₁, ht₁⟩ := hreach₁
    have hrest : statements (Read.expr n) Lexeme.isEnding (bound + 1) done s =
        (round (Read.expr n) Lexeme.isEnding >>= fun r =>
          statements (Read.expr n) Lexeme.isEnding bound (r.toList ++ done)) s := by
      rw [statements_succ, bind_of_ok (sees_run _ s), hend]
      rfl
    rw [hrest]
    cases hrun : round (Read.expr n) Lexeme.isEnding s with
    | ok r s₂ =>
      rw [bind_of_ok hrun]
      have hsame : s₂ = s₁ := Round.unique ⟨n, r, hrun⟩ hround
      subst hsame
      exact ih hreach₁ ht₁ _
    | error stop s₂ =>
      rw [bind_of_error hrun, round_error hrun]
      exact ⟨s₂, rfl⟩

/-- Where the loop never arrives at a closing brace, it comes to its end. -/
theorem statements_ample (hfree : ∀ t, Relation.ReflTransGen Next s t → ¬ Stuck t)
    (hn : 2 * s.tokens.length + 2 ≤ n) (hbound : s.tokens.length < bound) (done : List Expr) :
    ∃ body s', statements (Read.expr n) Lexeme.isEnding bound done s = .ok body s' := by
  induction bound generalizing s done with
  | zero => omega
  | succ bound ih =>
    rw [statements_succ, bind_of_ok (sees_run _ s)]
    split
    next => exact ⟨_, s, rfl⟩
    next hmore =>
      simp only [Bool.or_self, Bool.not_eq_true] at hmore
      obtain ⟨r, s₁, hrun, hsuffix, hless, _⟩ :=
        round_run (expr_takes (.inl hn)) Lexeme.isEnding
      have hless := hless hmore (Bool.eq_false_iff.2 (hfree s .refl))
      rw [bind_of_ok hrun]
      exact ih (fun t ht => hfree t (.head ⟨hmore, n, r, hrun⟩ ht)) (by omega) (by omega) _

theorem Head.suffix {tokens : List Token} (h : Head tokens s) : s.tokens <:+ tokens := by
  induction h with
  | refl => exact List.suffix_rfl
  | tail _ hnext ih => exact hnext.2.facts.1.trans ih

/-- The loop arrives at a closing brace only where it begins, or from an iteration before, which read a
whole statement with its semicolon or found an error and recovered from it up to the brace. -/
theorem Head.stuck_origin {tokens : List Token} (h : Head tokens s) (hstuck : Stuck s) :
    s.tokens = tokens ∨ ∃ t, Head tokens t ∧ Next t s ∧
      ((∃ semi : Token, semi.lexeme.isMark .semicolon = true ∧ semi :: s.tokens <:+ tokens) ∧
          Completes t s ∨
        Recovers t s) := by
  obtain rfl | ⟨t, hbefore, hnext⟩ := Relation.ReflTransGen.cases_tail h
  · exact .inl rfl
  refine .inr ⟨t, hbefore, hnext, ?_⟩
  obtain ⟨_, _, hend⟩ := hnext.2.facts
  cases hend with
  | @semicolon x s₁ hread hsuffix hsemi =>
    refine .inl ⟨?_, x, s₁, hread, hsemi, rfl⟩
    obtain ⟨_ | ⟨semi, ts⟩, errors⟩ := s₁
    · cases hsemi
    · exact ⟨semi, hsemi, hsuffix.trans (Head.suffix hbefore)⟩
  | ending hending =>
    rw [hstuck.isEnding] at hending
    cases hending
  | stopped hread hrecover => exact .inr ⟨_, _, hrecover, .inl hread⟩
  | unseparated hread hcomplaint hrecover => exact .inr ⟨_, _, hrecover, .inr ⟨_, hread, hcomplaint⟩⟩

end Loop

end Read

namespace Program

variable {tokens : List Token}

theorem readWithin_of_stuck {s : ReadState} (hhead : Read.Head tokens s) (h : Read.Stuck s)
    (bound : Nat) : readWithin bound tokens = .unending := by
  obtain ⟨s', hrun⟩ := Read.statements_exhausted bound bound hhead h []
  rw [readWithin, hrun]

/-- Where the loop never arrives at a closing brace, reading a program comes to an end, and a larger
measure changes nothing. -/
theorem readWithin_of_free (hfree : ∀ s, Read.Head tokens s → ¬ Read.Stuck s) :
    ofTokens tokens ≠ .unending ∧
      ∀ bound, 2 * tokens.length + 2 ≤ bound → readWithin bound tokens = ofTokens tokens := by
  have hlength : tokens.length < 2 * tokens.length + 2 := by omega
  obtain ⟨body, s, hrun⟩ := Read.statements_ample hfree (Nat.le_refl _) hlength []
  have hsame : ∀ bound, 2 * tokens.length + 2 ≤ bound →
      Read.statements (Read.expr bound) Lexeme.isEnding bound [] ⟨tokens, []⟩ = .ok body s :=
    fun bound hbound =>
      (Read.statements_outlasts (Read.expr_outlasts hbound) _ hbound []).ok_of_ok hrun
  constructor
  · rw [ofTokens, readWithin, hrun]
    simp only []
    split <;> exact ReadResult.noConfusion
  · intro bound hbound
    rw [ofTokens, readWithin, readWithin, hrun, hsame bound hbound]

theorem ofSource_ne_unending {source : String}
    (h : ofTokens (Scan.ofSource source).tokens ≠ .unending) :
    ofSource source ≠ .error .unending := by
  unfold ofSource
  simp only []
  split
  · split <;> exact nofun
  · exact nofun
  · contradiction

/-- A text without closing braces, or one in which no error is found, is free of stops. -/
theorem not_stuck {s : ReadState} (hhead : Read.Head tokens s)
    (h : (∀ t ∈ tokens, t.lexeme ≠ .mark .closeCurly) ∨
      ∀ s, Read.Head tokens s → s.errors = []) : ¬ Read.Stuck s := by
  intro hstuck
  obtain hnone | hclean := h
  · obtain ⟨_ | ⟨t, ts⟩, errors⟩ := s
    · cases hstuck
    · exact hnone t (hhead.suffix.subset List.mem_cons_self) (Read.eq_of_isMark hstuck)
  · obtain ⟨s', hround⟩ := Read.round_exists Lexeme.isEnding s
    obtain ⟨e, rfl⟩ := hround.stuck hstuck
    exact List.cons_ne_nil _ _ (hclean _ (hhead.tail ⟨hstuck.isEnding, hround⟩))

/-- Which token lists are read to an end. Reading an expression always comes to an end, with one outcome
for every measure that is large enough. An iteration of a loop over statements that does not begin at
a closing brace takes tokens. Where the loop over a program arrives at a closing brace, it stays there for
ever: the brace is the first token, the iteration before read a whole statement with its semicolon, so
that no construct of it opened the brace, or recovery in the iteration before ended at the brace. Where
the loop never arrives at one, reading comes to an end. This is so without closing braces, and without errors. -/
theorem reading_ends (tokens : List Token) :
    (∀ s : ReadState, ∃ r, (∀ s', r ≠ .error .exhausted s') ∧
      ∀ bound, 2 * s.tokens.length + 2 ≤ bound → Read.expr bound s = r) ∧
    (∀ isEnd s, s.front.lexeme.isEnding = false → ¬ Read.Stuck s →
      (∃ s', Read.Round isEnd s s') ∧ ∀ s', Read.Round isEnd s s' →
        s'.tokens <:+ s.tokens ∧ s'.tokens.length < s.tokens.length) ∧
    (∀ s, Read.Head tokens s → Read.Stuck s →
      (s.tokens = tokens ∨ ∃ t, Read.Head tokens t ∧ Read.Next t s ∧
        ((∃ semi : Token, semi.lexeme.isMark .semicolon = true ∧ semi :: s.tokens <:+ tokens) ∧
            Read.Completes t s ∨
          Read.Recovers t s)) ∧
      (∀ s', Relation.ReflTransGen Read.Next s s' →
        s'.tokens = s.tokens ∧ ∃ t, Read.Next s' t) ∧
      ∀ bound, readWithin bound tokens = .unending) ∧
    ((∀ s, Read.Head tokens s → ¬ Read.Stuck s) → ofTokens tokens ≠ .unending ∧
      ∀ bound, 2 * tokens.length + 2 ≤ bound → readWithin bound tokens = ofTokens tokens) ∧
    (∀ source, (Scan.ofSource source).tokens = tokens →
      ((∀ t ∈ tokens, t.lexeme ≠ .mark .closeCurly) ∨
        ∀ s, Read.Head tokens s → s.errors = []) →
      ofSource source ≠ .error .unending) := by
  refine ⟨fun s => ?expression, fun isEnd s hend hfree => ?iteration, fun s hhead hstuck => ?stuck,
    readWithin_of_free, ?source⟩
  case expression =>
    refine ⟨_, fun s' hrun => ?_, fun bound hbound => Read.expr_run_eq hbound⟩
    have htakes := Read.expr_ample s
    rw [Read.Takes, hrun] at htakes
    exact htakes
  case iteration =>
    refine ⟨Read.round_exists isEnd s, fun s' hround => ?_⟩
    obtain ⟨hsuffix, hless, _⟩ := hround.facts
    exact ⟨hsuffix, hless hend (Bool.eq_false_iff.2 hfree)⟩
  case stuck =>
    refine ⟨hhead.stuck_origin hstuck, fun s' hreach => ?_, readWithin_of_stuck hhead hstuck⟩
    obtain ⟨hstuck', htokens⟩ := hstuck.tokens_eq hreach
    obtain ⟨t, hround⟩ := Read.round_exists Lexeme.isEnding s'
    exact ⟨htokens, t, hstuck'.isEnding, hround⟩
  case source =>
    rintro source rfl h
    exact ofSource_ne_unending (readWithin_of_free fun s hhead => not_stuck hhead h).1

example : ofTokens (Scan.ofSource "1 \x7d").tokens = .unending := by
  rfl

end Program

end Resumable
