import Resumable.Failure
import Resumable.Proofs.Expr.Taking
import Resumable.Proofs.Token.Places

/-!
The errors of a source text. What reading complains of stands at one of the tokens, what scanning
complains of at a place of the text. The list that is reported consists of both and comes in the order
of the places, except that where reading finds nothing the errors of scanning stay as they were
found, with the start of a string that is not closed after an unknown escape in it.
-/

namespace Resumable

/-- The error stands at one of the tokens. -/
def SyntaxError.AtToken (all : List Token) (e : SyntaxError) : Prop :=
  ∃ t ∈ all, e.place = t.place

/-- The last token is the end of the input. -/
def Closed (all : List Token) : Prop :=
  ∃ init t, all = init ++ [t] ∧ t.lexeme.isEnding = true

theorem Closed.rest_ne_nil {all ts : List Token} {t : Token} (h : Closed all) (hts : t :: ts <:+ all)
    (hend : t.lexeme.isEnding = false) : ts ≠ [] := by
  rintro rfl
  obtain ⟨init, last, rfl, hlast⟩ := h
  obtain ⟨before, hbefore⟩ := hts
  obtain ⟨_, hsame⟩ := List.append_inj' hbefore rfl
  cases hsame
  rw [hlast] at hend
  cases hend

/-- Some of the tokens are left to read, and the errors recorded so far stand at tokens. -/
structure ReadState.Within (all : List Token) (s : ReadState) : Prop where
  suffix : s.tokens <:+ all
  left : s.tokens ≠ []
  errors : ∀ e ∈ s.errors, e.AtToken all

theorem ReadState.Within.front_mem {all : List Token} {s : ReadState} (h : s.Within all) :
    s.front ∈ all := by
  obtain ⟨_ | ⟨t, ts⟩, errors⟩ := s
  · exact absurd rfl h.left
  · exact h.suffix.subset List.mem_cons_self

namespace Read

variable {α β : Type} {all : List Token}

/-- Reading keeps to the tokens, and its complaints stand at tokens. -/
def Blames (all : List Token) (p : Read α) : Prop :=
  ∀ s : ReadState, s.Within all →
    match p s with
    | .ok _ s' => s'.Within all
    | .error (.error e) s' => s'.Within all ∧ e.AtToken all
    | .error .exhausted _ => True

namespace Blames

variable {p : Read α} {f : α → Read β}

theorem ret (a : α) : Blames all (pure a : Read α) :=
  fun _ hs => hs

theorem exhausted : Blames all (throw .exhausted : Read α) :=
  fun _ _ => trivial

theorem bind (hp : Blames all p) (hf : ∀ a, Blames all (f a)) : Blames all (p >>= f) := by
  intro s hs
  have hfirst := hp s hs
  cases hrun : p s with
  | ok a s₁ =>
    rw [hrun] at hfirst
    rw [bind_of_ok hrun]
    exact hf a s₁ hfirst
  | error stop s₁ =>
    rw [hrun] at hfirst
    rw [bind_of_error hrun]
    cases stop <;> exact hfirst

theorem map {g : α → β} (hp : Blames all p) : Blames all (g <$> p) := by
  rw [map_eq_pure_bind]
  exact hp.bind fun _ => ret _

theorem ite {c : Prop} [Decidable c] {q : Read α} (hp : Blames all p) (hq : Blames all q) :
    Blames all (if c then p else q) := by
  split
  · exact hp
  · exact hq

/-- What looks at the tokens only. -/
theorem look {g : ReadState → α} (h : ∀ s, p s = .ok (g s) s) : Blames all p := by
  intro s hs
  rw [h s]
  exact hs

end Blames

section Primitives

variable {p : Read α} {f : α → Read β}

theorem current_blames : Blames all current :=
  .look current_run

theorem sees_blames (p : Lexeme → Bool) : Blames all (sees p) :=
  .look (sees_run p)

theorem seesSecond_blames (m : Mark) : Blames all (seesSecond m) :=
  .look (seesSecond_run m)

theorem unexpected_place {s : ReadState} (hs : s.Within all) (what : String) :
    ∃ e, unexpected what s = .ok e s ∧ e.AtToken all := by
  refine ⟨⟨.expected what s.front.lexeme.describe, s.front.line, s.front.column⟩, ?_, s.front,
    hs.front_mem, rfl⟩
  rw [unexpected, bind_of_ok (current_run s)]
  rfl

theorem refuse_blames (what : String) : Blames all (refuse what : Read α) := by
  intro s hs
  obtain ⟨e, hrun, he⟩ := unexpected_place hs what
  have hrefuse : (refuse what : Read α) s = .error (.error e) s := by
    rw [refuse, bind_of_ok hrun]
    rfl
  rw [hrefuse]
  exact ⟨hs, he⟩

variable (hall : Closed all)
include hall

theorem rest_within {s : ReadState} (hs : s.Within all) (hend : s.front.lexeme.isEnding = false) :
    s.rest.Within all := by
  obtain ⟨_ | ⟨t, ts⟩, errors⟩ := s
  · exact absurd rfl hs.left
  · exact ⟨(List.suffix_cons t ts).trans hs.suffix, hall.rest_ne_nil hs.suffix hend, hs.errors⟩

theorem take_blames : Blames all take := by
  intro s hs
  cases hend : s.front.lexeme.isEnding with
  | false =>
    rw [take_run hend]
    exact rest_within hall hs hend
  | true =>
    have hrun : take s = .ok s.front s := by
      rw [take, bind_of_ok (current_run s), hend]
      rfl
    rw [hrun]
    exact hs

theorem accept_blames (m : Mark) : Blames all (accept m) :=
  (sees_blames _).bind fun _ => .ite ((take_blames hall).bind fun _ => .ret _) (.ret _)

theorem acceptKeyword_blames (w : Keyword) : Blames all (acceptKeyword w) :=
  (sees_blames _).bind fun _ => .ite ((take_blames hall).bind fun _ => .ret _) (.ret _)

theorem expect_blames (m : Mark) (what : String) : Blames all (expect m what) :=
  (accept_blames hall m).bind fun _ => .ite (.ret _) (refuse_blames what)

theorem expectKeyword_blames (w : Keyword) (what : String) : Blames all (expectKeyword w what) :=
  (acceptKeyword_blames hall w).bind fun _ => .ite (.ret _) (refuse_blames what)

theorem expectName_blames (what : String) : Blames all (expectName what) := by
  refine current_blames.bind fun token => ?_
  split
  · exact (take_blames hall).bind fun _ => .ret _
  · exact refuse_blames what

/-- Recovery leaves some tokens to read. -/
theorem resync_ne_nil {ts : List Token} (hts : ts <:+ all) (hne : ts ≠ []) (depth : Nat) :
    resync depth ts ≠ [] := by
  induction ts generalizing depth with
  | nil => exact absurd rfl hne
  | cons t ts ih =>
    have hmore : t.lexeme.isEnding = false → ts ≠ [] ∧ ∀ depth, resync depth ts ≠ [] := by
      intro hend
      have hrest := hall.rest_ne_nil hts hend
      exact ⟨hrest, ih ((List.suffix_cons t ts).trans hts) hrest⟩
    rw [resync]
    split
    next => exact List.cons_ne_nil _ _
    next m hm =>
      have hmore := hmore (by rw [hm]; rfl)
      split_ifs
      · exact hmore.1
      · exact List.cons_ne_nil _ _
      · exact hmore.2 _
      · exact hmore.2 _
      · exact hmore.2 _
    next hnot _ =>
      refine (hmore ?_).2 depth
      cases hl : t.lexeme <;> first | rfl | exact absurd hl hnot

theorem recover_blames {e : SyntaxError} (he : e.AtToken all) : Blames all (recover e) := by
  intro s hs
  rw [recover_run]
  exact ⟨(resync_suffix 0 s.tokens).trans hs.suffix, resync_ne_nil hall hs.suffix hs.left 0,
    List.forall_mem_cons.2 ⟨he, hs.errors⟩⟩

end Primitives

section Lists

variable (hall : Closed all)
include hall

theorem items_blames {item : Read α} (hitem : Blames all item) (close : Mark) (bound : Nat)
    (done : List α) : Blames all (items item close bound done) := by
  induction bound generalizing done with
  | zero => exact .exhausted
  | succ bound ih =>
    exact (sees_blames _).bind fun _ => .ite (.ret _) (hitem.bind fun x =>
      (accept_blames hall _).bind fun _ => .ite (ih _) (.ret _))

theorem enclosed_blames {item : Read α} (hitem : Blames all item) (close : Mark) (what : String)
    (bound : Nat) : Blames all (enclosed item close what bound) :=
  (items_blames hall hitem close bound []).bind fun _ => (expect_blames hall close what).bind
    fun _ => .ret _

theorem parameters_blames (bound : Nat) (done : List String) : Blames all (parameters bound done) := by
  induction bound generalizing done with
  | zero => exact .exhausted
  | succ bound ih =>
    exact (expectName_blames hall _).bind fun _ => (accept_blames hall _).bind fun _ =>
      .ite (ih _) (.ret _)

theorem path_blames (line bound : Nat) (start : Expr) : Blames all (path line bound start) := by
  induction bound generalizing start with
  | zero => exact .exhausted
  | succ bound ih =>
    exact (accept_blames hall _).bind fun _ => .ite ((expectName_blames hall _).bind fun _ => ih _)
      (.ret _)

theorem statements_blames {expr : Read Expr} (hexpr : Blames all expr) (isEnd : Lexeme → Bool)
    (bound : Nat) (done : List Expr) : Blames all (statements expr isEnd bound done) := by
  induction bound generalizing done with
  | zero => exact .exhausted
  | succ bound ih =>
    rw [statements]
    refine (sees_blames _).bind fun _ => .ite (.ret _) fun s hs => ?_
    have hfirst := hexpr s hs
    have hblame : ∀ {e : SyntaxError} (done : List Expr), e.AtToken all → Blames all (do
        recover e
        statements expr isEnd bound done) :=
      fun done he => (recover_blames hall he).bind fun _ => ih done
    cases hrun : expr s with
    | ok e s₁ =>
      have hattempt : attempt expr s = .ok (.ok e) s₁ := by rw [attempt, hrun]
      rw [hrun] at hfirst
      rw [bind_of_ok hattempt]
      refine ((accept_blames hall _).bind fun _ => .ite (ih _) ((sees_blames _).bind fun _ =>
        .ite (ih _) fun s₂ hs₂ => ?_)) s₁ hfirst
      obtain ⟨complaint, hcomplaint, hplace⟩ := unexpected_place hs₂ "';'"
      rw [bind_of_ok hcomplaint]
      exact hblame _ hplace s₂ hs₂
    | error stop s₁ =>
      rw [hrun] at hfirst
      cases stop with
      | error e =>
        have hattempt : attempt expr s = .ok (.error e) s₁ := by rw [attempt, hrun]
        rw [bind_of_ok hattempt]
        exact hblame done hfirst.2 s₁ hfirst.1
      | exhausted =>
        have hattempt : attempt expr s = .error .exhausted s₁ := by rw [attempt, hrun]
        rw [bind_of_error hattempt]
        trivial

end Lists

section Constructs

variable {expr : Read Expr} (hall : Closed all) (hexpr : Blames all expr) (bound : Nat)
include hall hexpr

theorem lambda_blames (name : Option String) : Blames all (lambda expr bound name) := by
  have hbody : ∀ params line, Blames all (do
      expect .pipe "'|' after parameters"
      let body ← expr
      return Expr.lambda line name params body) := fun params line =>
    (expect_blames hall _ _).bind fun _ => hexpr.bind fun _ => .ret _
  exact (take_blames hall).bind fun _ => (sees_blames _).bind fun _ =>
    .ite (.bind (.ret []) fun _ => hbody _ _)
      ((parameters_blames hall bound []).bind fun _ => hbody _ _)

theorem declaration_blames : Blames all (declaration expr bound) :=
  (take_blames hall).bind fun _ => (expectName_blames hall _).bind fun _ =>
    (expect_blames hall _ _).bind fun _ => (sees_blames _).bind fun _ =>
      .ite ((lambda_blames hall hexpr bound _).bind fun _ => .ret _) (hexpr.bind fun _ => .ret _)

omit hexpr in
theorem effect_blames : Blames all effect :=
  (take_blames hall).bind fun _ => (expectName_blames hall _).bind fun _ => .ret _

theorem conditional_blames : Blames all (conditional expr) :=
  (take_blames hall).bind fun _ => hexpr.bind fun _ => (expect_blames hall _ _).bind fun _ =>
    hexpr.bind fun _ => (acceptKeyword_blames hall _).bind fun _ =>
      .ite ((expect_blames hall _ _).bind fun _ => hexpr.bind fun _ => .ret _) (.ret _)

theorem clause_blames : Blames all (clause expr bound) := by
  have hend : ∀ effect param resume guard line, Blames all (do
      expect .fatArrow "'=>'"
      let body ← expr
      return ({ effect, param, resume, guard, body, line } : Clause Expr)) :=
    fun effect param resume guard line =>
      (expect_blames hall _ _).bind fun _ => hexpr.bind fun _ => .ret _
  have hguard : ∀ effect param resume line, Blames all (do
      expect .closeParen "')'"
      let guard ←
        if ← acceptKeyword .when then some <$> expr
        else pure none
      expect .fatArrow "'=>'"
      let body ← expr
      return ({ effect, param, resume, guard, body, line } : Clause Expr)) :=
    fun effect param resume line => (expect_blames hall _ _).bind fun _ =>
      (acceptKeyword_blames hall _).bind fun _ =>
        .ite (hexpr.map.bind fun _ => hend _ _ _ _ _) (.bind (.ret none) fun _ => hend _ _ _ _ _)
  exact current_blames.bind fun _ => (expectName_blames hall _).bind fun _ =>
    (path_blames hall _ _ _).bind fun _ => (expect_blames hall _ _).bind fun _ =>
      (expectName_blames hall _).bind fun _ => (accept_blames hall _).bind fun _ =>
        .ite ((expectName_blames hall _).map.bind fun _ => hguard _ _ _ _)
          (.bind (.ret none) fun _ => hguard _ _ _ _)

theorem handler_blames : Blames all (handler expr bound) :=
  (take_blames hall).bind fun _ => hexpr.bind fun _ => (expectKeyword_blames hall _ _).bind fun _ =>
    (expect_blames hall _ _).bind fun _ =>
      (enclosed_blames hall (clause_blames hall hexpr bound) _ _ _).bind fun _ => .ret _

theorem recordField_blames : Blames all (recordField expr) :=
  (expectName_blames hall _).bind fun _ => (expect_blames hall _ _).bind fun _ =>
    hexpr.bind fun _ => .ret _

theorem recordLiteral_blames : Blames all (recordLiteral expr bound) :=
  (take_blames hall).bind fun _ => (expect_blames hall _ _).bind fun _ =>
    (enclosed_blames hall (recordField_blames hall hexpr) _ _ _).bind fun _ => .ret _

theorem parenthesized_blames : Blames all (parenthesized expr bound) :=
  (take_blames hall).bind fun _ => (accept_blames hall _).bind fun _ => .ite (.ret _)
    (hexpr.bind fun _ => (accept_blames hall _).bind fun _ => .ite (.ret _)
      ((expect_blames hall _ _).bind fun _ => (enclosed_blames hall hexpr _ _ _).bind fun _ => .ret _))

theorem block_blames : Blames all (block expr bound) :=
  (take_blames hall).bind fun _ => (statements_blames hall hexpr _ _ _).bind fun _ =>
    (expect_blames hall _ _).bind fun _ => .ret _

theorem listLiteral_blames : Blames all (listLiteral expr bound) :=
  (take_blames hall).bind fun _ => (enclosed_blames hall hexpr _ _ _).bind fun _ => .ret _

omit hexpr in
theorem literal_blames (e : Expr) : Blames all (literal e) :=
  (take_blames hall).bind fun _ => .ret _

theorem primary_blames : Blames all (primary expr bound) := by
  refine current_blames.bind fun token => ?_
  simp only []
  split
  case h_8 => exact recordLiteral_blames hall hexpr bound
  case h_9 | h_10 | h_11 => exact hexpr
  case h_12 => exact parenthesized_blames hall hexpr bound
  case h_13 => exact listLiteral_blames hall hexpr bound
  case h_14 => exact block_blames hall hexpr bound
  case h_15 => exact refuse_blames _
  all_goals exact literal_blames hall _

theorem postfixes_blames (subject : Expr) : Blames all (postfixes expr bound subject) := by
  induction bound generalizing subject with
  | zero => exact .exhausted
  | succ bound ih =>
    exact current_blames.bind fun _ => (accept_blames hall _).bind fun _ =>
      .ite ((enclosed_blames hall hexpr _ _ _).bind fun _ => ih _)
        ((accept_blames hall _).bind fun _ => .ite ((expectName_blames hall _).bind fun _ => ih _)
          ((accept_blames hall _).bind fun _ => .ite (hexpr.bind fun _ =>
            (expect_blames hall _ _).bind fun _ => ih _) (.ret _)))

theorem unary_blames : Blames all (unary expr bound) := by
  induction bound with
  | zero => exact .exhausted
  | succ bound ih =>
    exact current_blames.bind fun _ => (accept_blames hall _).bind fun _ =>
      .ite (ih.bind fun _ => .ret _) ((acceptKeyword_blames hall _).bind fun _ =>
        .ite (ih.bind fun _ => .ret _) ((primary_blames hall hexpr bound).bind fun _ =>
          postfixes_blames hall hexpr bound _))

omit hexpr in
theorem climb_blames {operand : Read Expr} (hoperand : Blames all operand) (least : Nat)
    (left : Expr) : Blames all (climb operand bound least left) := by
  induction bound generalizing least left with
  | zero => exact .exhausted
  | succ bound ih =>
    refine current_blames.bind fun token => ?_
    split
    · exact .ite (.ret _) ((take_blames hall).bind fun _ => hoperand.bind fun _ =>
        (ih _ _).bind fun _ => ih _ _)
    · exact .ret _

omit hexpr in
theorem binary_blames {operand : Read Expr} (hoperand : Blames all operand) (least : Nat) :
    Blames all (binary operand bound least) :=
  hoperand.bind fun _ => climb_blames hall bound hoperand least _

omit hexpr in
/-- Reading an expression complains at tokens only. -/
theorem expr_blames : Blames all (Read.expr bound) := by
  induction bound with
  | zero => exact .exhausted
  | succ bound ih =>
    have hoperators := binary_blames hall bound (unary_blames hall ih bound) 0
    refine current_blames.bind fun token => ?_
    simp only []
    split
    · exact declaration_blames hall ih bound
    · exact effect_blames hall
    · exact handler_blames hall ih bound
    · exact conditional_blames hall ih
    · exact lambda_blames hall ih bound none
    · exact (seesSecond_blames _).bind fun _ => .ite ((take_blames hall).bind fun _ =>
        (take_blames hall).bind fun _ => ih.bind fun _ => .ret _) hoperators
    · exact hoperators

end Constructs

end Read

/-- What reading found wrong. -/
def ReadResult.errors : ReadResult → List SyntaxError
  | .faulty errors => errors
  | _ => []

namespace Program

/-- What reading finds wrong with tokens is not nothing, and stands at tokens. -/
theorem faulty_errors {tokens : List Token} {found : List SyntaxError} (hclosed : Closed tokens)
    (h : ofTokens tokens = .faulty found) : found ≠ [] ∧ ∀ e ∈ found, e.AtToken tokens := by
  have hwithin : ReadState.Within tokens ⟨tokens, []⟩ := by
    refine ⟨List.suffix_rfl, ?_, nofun⟩
    obtain ⟨init, t, rfl, _⟩ := hclosed
    exact List.append_ne_nil_of_right_ne_nil _ (List.cons_ne_nil _ _)
  have hblames := Read.statements_blames hclosed (Read.expr_blames hclosed (2 * tokens.length + 2))
    Lexeme.isEnding (2 * tokens.length + 2) [] _ hwithin
  unfold ofTokens readWithin at h
  split at h
  next body s hrun =>
    rw [hrun] at hblames
    split at h
    next => cases h
    next herrors =>
      cases h
      refine ⟨fun hnil => herrors ?_, fun e he => hblames.errors e (List.mem_reverse.1 he)⟩
      rw [List.reverse_eq_nil_iff.1 hnil]
      rfl
  next => cases h

end Program

theorem Scan.closed (source : String) : Closed (Scan.ofSource source).tokens :=
  (Scan.ofSource_cut source).ending_last

namespace Program

/-- Every error that is reported stands at a place of the text. -/
theorem error_place {source : String} {errors : List SyntaxError}
    (h : ofSource source = .error (.malformed errors)) {e : SyntaxError} (he : e ∈ errors) :
    ∃ before after, source.toList = before ++ after ∧ e.place = Position.over {} before := by
  have hcut := Scan.ofSource_cut source
  unfold ofSource at h
  simp only at h
  split at h
  next p _ =>
    split at h
    · cases h
    · cases h
      exact hcut.error_place he
  next found hread =>
    cases h
    obtain he | he := List.mem_append.1 (List.mem_mergeSort.1 he)
    · exact hcut.error_place he
    · obtain ⟨t, ht, hplace⟩ := (faulty_errors (Scan.closed source) hread).2 e he
      rw [hplace]
      exact hcut.token_place ht
  next => cases h

theorem mergeSort_inOrder (errors : List SyntaxError) :
    SyntaxError.InOrder (errors.mergeSort SyntaxError.notAfter) := by
  refine (List.pairwise_mergeSort (fun a b c hab hbc => ?_) (fun a b => ?_) errors).imp
    SyntaxError.notAfter_iff.1
  · rw [SyntaxError.notAfter_iff] at *
    exact hab.trans hbc
  · rw [Bool.or_eq_true, SyntaxError.notAfter_iff, SyntaxError.notAfter_iff]
    exact Position.NotAfter.total _ _

/-- A failure reports the place of its first error, which no other error stands before if the errors come
in order. -/
theorem place_of_inOrder {errors : List SyntaxError} (h : SyntaxError.InOrder errors) (hne : errors ≠ []) :
    ∃ first ∈ errors, (Failure.malformed errors).line? = some first.line ∧
      (Failure.malformed errors).column? = some first.column ∧
      ∀ e ∈ errors, first.place.NotAfter e.place := by
  obtain ⟨first, others, rfl⟩ := List.exists_cons_of_ne_nil hne
  refine ⟨first, List.mem_cons_self, rfl, rfl, List.forall_mem_cons.2 ⟨.refl _, ?_⟩⟩
  exact (List.pairwise_cons.1 h).1

/-- Which errors are reported for a text on which reading comes to an end. There are none exactly if
neither scanning nor reading found any. Otherwise all of them are reported, each once, and in order,
so that the place of the failure is that of the earliest; only where reading found nothing, and the text ends
in a string that is not closed after an unknown escape in it, that string is reported after the escape. -/
theorem errors_in_order {source : String} {found : List SyntaxError}
    (hends : ofTokens (Scan.ofSource source).tokens ≠ .unending)
    (hfound : found = (ofTokens (Scan.ofSource source).tokens).errors) :
    ((∃ p, ofSource source = .ok p) ↔ (Scan.ofSource source).errors = [] ∧ found = []) ∧
    ∀ failure, ofSource source = .error failure →
      ∃ errors, failure = .malformed errors ∧ errors ≠ [] ∧
        errors.Perm ((Scan.ofSource source).errors ++ found) ∧
        (SyntaxError.InOrder errors ↔
          found ≠ [] ∨ ¬ Scan.EscapeInOpenString (Scan.ofSource source).errors) ∧
        (SyntaxError.InOrder errors → ∃ first ∈ errors,
          (Failure.malformed errors).line? = some first.line ∧
          (Failure.malformed errors).column? = some first.column ∧
          ∀ e ∈ errors, first.place.NotAfter e.place) := by
  subst hfound
  cases hread : ofTokens (Scan.ofSource source).tokens with
  | unending => exact absurd hread hends
  | program p =>
    have hscan := (Scan.ofSource_cut source).almostSorted.1.sorted_iff
    by_cases hclean : (Scan.ofSource source).errors = []
    · have hok : ofSource source = .ok p := by simp [ofSource, hread, hclean]
      refine ⟨⟨fun _ => ⟨hclean, rfl⟩, fun _ => ⟨p, hok⟩⟩, fun failure h => ?_⟩
      rw [hok] at h
      cases h
    · have hfails : ofSource source = .error (.malformed (Scan.ofSource source).errors) := by
        simp [ofSource, hread, hclean]
      refine ⟨⟨fun ⟨_, h⟩ => ?_, fun h => absurd h.1 hclean⟩, fun failure h => ?_⟩
      · rw [hfails] at h
        cases h
      · rw [hfails] at h
        cases h
        refine ⟨_, rfl, hclean, by simp [ReadResult.errors], ?_, fun h => place_of_inOrder h hclean⟩
        simpa [ReadResult.errors] using hscan
  | faulty found =>
    have hnone := (faulty_errors (Scan.closed source) hread).1
    have hfails : ofSource source = .error (.malformed
        (((Scan.ofSource source).errors ++ found).mergeSort SyntaxError.notAfter)) := by
      simp [ofSource, hread]
    refine ⟨⟨fun ⟨_, h⟩ => ?_, fun h => absurd h.2 hnone⟩, fun failure h => ?_⟩
    · rw [hfails] at h
      cases h
    · rw [hfails] at h
      cases h
      have hperm := List.mergeSort_perm ((Scan.ofSource source).errors ++ found) SyntaxError.notAfter
      have hne : ((Scan.ofSource source).errors ++ found).mergeSort SyntaxError.notAfter ≠ [] := by
        intro hnil
        rw [hnil] at hperm
        exact hnone (List.append_eq_nil_iff.1 hperm.nil_eq.symm).2
      exact ⟨_, rfl, hne, hperm, iff_of_true (mergeSort_inOrder _) (.inl hnone),
        fun h => place_of_inOrder h hne⟩

/-- A character without a place, and a string that is not closed after an unknown escape: reading finds
nothing, and the escape is reported before the start of the string. -/
theorem errors_in_order_open_string :
    ofTokens (Scan.ofSource "@ \"\\q").tokens ≠ .unending ∧
      ofSource "@ \"\\q" = .error (.malformed
        [⟨.strayCharacter '@', 1, 1⟩, ⟨.unknownEscape 'q', 1, 6⟩, ⟨.openString, 1, 3⟩]) ∧
      ¬ SyntaxError.InOrder
        [⟨.strayCharacter '@', 1, 1⟩, ⟨.unknownEscape 'q', 1, 6⟩, ⟨.openString, 1, 3⟩] := by
  have hread : ofTokens (Scan.ofSource "@ \"\\q").tokens = .program [] := rfl
  have hends : ofTokens (Scan.ofSource "@ \"\\q").tokens ≠ .unending := by
    rw [hread]
    exact ReadResult.noConfusion
  have hfails : ofSource "@ \"\\q" = .error (.malformed
      [⟨.strayCharacter '@', 1, 1⟩, ⟨.unknownEscape 'q', 1, 6⟩, ⟨.openString, 1, 3⟩]) := rfl
  obtain ⟨_, herrors⟩ := errors_in_order hends rfl
  obtain ⟨errors, hsame, _, _, horder, _⟩ := herrors _ hfails
  cases hsame
  refine ⟨hends, hfails, fun h => ?_⟩
  obtain hfound | hclosed := horder.1 h
  · exact hfound (by rw [hread]; rfl)
  · exact hclosed ⟨[⟨.strayCharacter '@', 1, 1⟩], _, _, 'q', rfl, rfl, rfl, by decide⟩

end Program

end Resumable
