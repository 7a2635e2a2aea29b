import Resumable.Proofs.Expr.Surface
import Resumable.Proofs.Expr.Taking

/-!
Reading what is known to be well formed. For each function of the grammar it is said which lexemes it goes
over without an error and what it gives, depending on the same for the expressions within. What may
follow the lexemes is part of each statement, since operators, calls and fields prolong an expression.
-/

namespace Resumable

/-- The lexemes that are left to read. -/
def ReadState.lexemes (s : ReadState) : List Lexeme :=
  s.tokens.map Token.lexeme

theorem ReadState.of_lexemes {s : ReadState} {l : Lexeme} {ls : List Lexeme} (h : s.lexemes = l :: ls) :
    s.front.lexeme = l ∧ s.rest.lexemes = ls ∧ s.rest.errors = s.errors := by
  obtain ⟨_ | ⟨t, ts⟩, errors⟩ := s
  · cases h
  · obtain ⟨hl, hls⟩ := List.cons.inj h
    exact ⟨hl, hls, rfl⟩

namespace Read

variable {α β : Type}

/-- Where the lexemes `ls` are left, reading with `p` succeeds with a result that satisfies `Q`, leaves the
lexemes `rest` and records no error. -/
def Reads (p : Read α) (ls rest : List Lexeme) (Q : α → Prop) : Prop :=
  ∀ s : ReadState, s.lexemes = ls →
    ∃ a s', p s = .ok a s' ∧ s'.lexemes = rest ∧ s'.errors = s.errors ∧ Q a

namespace Reads

variable {p : Read α} {f : α → Read β} {l : Lexeme} {ls mid rest : List Lexeme} {P : α → Prop}
  {Q : β → Prop}

theorem ret {a : α} (h : P a) : Reads (pure a) ls ls P :=
  fun s hs => ⟨a, s, rfl, hs, rfl, h⟩

theorem bind (hp : Reads p ls mid P) (hf : ∀ a, P a → Reads (f a) mid rest Q) :
    Reads (p >>= f) ls rest Q := by
  intro s hs
  obtain ⟨a, s₁, hrun, hmid, herrors, ha⟩ := hp s hs
  obtain ⟨b, s₂, hrun', hrest, herrors', hb⟩ := hf a ha s₁ hmid
  exact ⟨b, s₂, (bind_of_ok hrun).trans hrun', hrest, herrors'.trans herrors, hb⟩

theorem imp {P' : α → Prop} (hp : Reads p ls rest P) (h : ∀ a, P a → P' a) : Reads p ls rest P' := by
  intro s hs
  obtain ⟨a, s', hrun, hrest, herrors, ha⟩ := hp s hs
  exact ⟨a, s', hrun, hrest, herrors, h a ha⟩

theorem map {g : α → β} (hp : Reads p ls rest P) (h : ∀ a, P a → Q (g a)) :
    Reads (g <$> p) ls rest Q := by
  rw [map_eq_pure_bind]
  exact hp.bind fun a ha => .ret (h a ha)

end Reads

section Primitives

variable {l : Lexeme} {ls rest : List Lexeme} {Q : β → Prop}

theorem current_reads {f : Token → Read β} (h : ∀ t, t.lexeme = l → Reads (f t) (l :: ls) rest Q) :
    Reads (current >>= f) (l :: ls) rest Q := by
  intro s hs
  obtain ⟨hfront, _⟩ := ReadState.of_lexemes hs
  rw [bind_of_ok (current_run s)]
  exact h _ hfront s hs

theorem sees_reads {p : Lexeme → Bool} {f : Bool → Read β} (h : Reads (f (p l)) (l :: ls) rest Q) :
    Reads (sees p >>= f) (l :: ls) rest Q := by
  intro s hs
  obtain ⟨hfront, _⟩ := ReadState.of_lexemes hs
  rw [bind_of_ok (sees_run p s), hfront]
  exact h s hs

theorem seesSecond_reads {m : Mark} {f : Bool → Read β}
    (h : Reads (f true) (l :: .mark m :: ls) rest Q) :
    Reads (seesSecond m >>= f) (l :: .mark m :: ls) rest Q := by
  intro s hs
  obtain ⟨_, hrest, _⟩ := ReadState.of_lexemes hs
  obtain ⟨hsecond, _⟩ := ReadState.of_lexemes hrest
  rw [bind_of_ok (seesSecond_run m s), hsecond, Lexeme.isMark, beq_self_eq_true]
  exact h s hs

theorem seesSecond_passes {m : Mark} {f : Bool → Read β}
    (hls : ∀ l' more, ls = l' :: more → l'.isMark m = false)
    (h : Reads (f false) (l :: ls) rest Q) : Reads (seesSecond m >>= f) (l :: ls) rest Q := by
  intro s hs
  obtain ⟨_, hrest, _⟩ := ReadState.of_lexemes hs
  have hsecond : s.rest.front.lexeme.isMark m = false := by
    cases ls with
    | nil =>
      have htokens : s.rest.tokens = [] := List.map_eq_nil_iff.1 hrest
      rw [ReadState.front, htokens]
      rfl
    | cons l' more =>
      obtain ⟨hfront, _⟩ := ReadState.of_lexemes hrest
      rw [hfront]
      exact hls l' more rfl
  rw [bind_of_ok (seesSecond_run m s), hsecond]
  exact h s hs

theorem take_reads {f : Token → Read β} (hl : l.isEnding = false) (h : ∀ t, Reads (f t) ls rest Q) :
    Reads (take >>= f) (l :: ls) rest Q := by
  intro s hs
  obtain ⟨hfront, hrest, herrors⟩ := ReadState.of_lexemes hs
  rw [bind_of_ok (take_run (by rw [hfront]; exact hl)), ← herrors]
  exact h _ s.rest hrest

theorem accept_reads {m : Mark} {f : Bool → Read β} (h : Reads (f true) ls rest Q) :
    Reads (accept m >>= f) (.mark m :: ls) rest Q := by
  intro s hs
  obtain ⟨hfront, hrest, herrors⟩ := ReadState.of_lexemes hs
  obtain ⟨_, hrun⟩ | ⟨hother, _⟩ := accept_cases m s
  · rw [bind_of_ok hrun, ← herrors]
    exact h s.rest hrest
  · simp [hfront, Lexeme.isMark] at hother

theorem accept_passes {m : Mark} {f : Bool → Read β} (hl : l.isMark m = false)
    (h : Reads (f false) (l :: ls) rest Q) : Reads (accept m >>= f) (l :: ls) rest Q := by
  intro s hs
  obtain ⟨hfront, _⟩ := ReadState.of_lexemes hs
  obtain ⟨hmark, _⟩ | ⟨_, hrun⟩ := accept_cases m s
  · rw [hfront, hl] at hmark
    cases hmark
  · rw [bind_of_ok hrun]
    exact h s hs

theorem acceptKeyword_reads {w : Keyword} {f : Bool → Read β} (h : Reads (f true) ls rest Q) :
    Reads (acceptKeyword w >>= f) (.keyword w :: ls) rest Q := by
  intro s hs
  obtain ⟨hfront, hrest, herrors⟩ := ReadState.of_lexemes hs
  obtain ⟨_, hrun⟩ | ⟨hother, _⟩ := acceptKeyword_cases w s
  · rw [bind_of_ok hrun, ← herrors]
    exact h s.rest hrest
  · simp [hfront, Lexeme.isKeyword] at hother

theorem acceptKeyword_passes {w : Keyword} {f : Bool → Read β} (hl : l.isKeyword w = false)
    (h : Reads (f false) (l :: ls) rest Q) : Reads (acceptKeyword w >>= f) (l :: ls) rest Q := by
  intro s hs
  obtain ⟨hfront, _⟩ := ReadState.of_lexemes hs
  obtain ⟨hkeyword, _⟩ | ⟨_, hrun⟩ := acceptKeyword_cases w s
  · rw [hfront, hl] at hkeyword
    cases hkeyword
  · rw [bind_of_ok hrun]
    exact h s hs

theorem expect_reads {m : Mark} {what : String} {f : Unit → Read β} (h : Reads (f ()) ls rest Q) :
    Reads (expect m what >>= f) (.mark m :: ls) rest Q :=
  Reads.bind (P := fun _ => True) (accept_reads (.ret trivial)) fun _ _ => h

theorem expectKeyword_reads {w : Keyword} {what : String} {f : Unit → Read β}
    (h : Reads (f ()) ls rest Q) :
    Reads (expectKeyword w what >>= f) (.keyword w :: ls) rest Q :=
  Reads.bind (P := fun _ => True) (acceptKeyword_reads (.ret trivial)) fun _ _ => h

theorem name_reads (x what : String) (ls : List Lexeme) :
    Reads (expectName what) (.word x :: ls) ls (· = x) := by
  refine current_reads fun t ht => ?_
  rw [ht]
  exact take_reads rfl fun _ => .ret rfl

theorem expectName_reads {x what : String} {f : String → Read β} (h : Reads (f x) ls rest Q) :
    Reads (expectName what >>= f) (.word x :: ls) rest Q := by
  refine (name_reads x what ls).bind fun y hy => ?_
  rw [hy]
  exact h

end Primitives

section Lists

variable {item : Read α} {write : β → List Lexeme} {R : β → α → Prop} {close : Mark} {bound : Nat}

/-- What is asked of the items of a list: that they can be read where a comma or the closing mark follows,
and do not begin with the closing mark. -/
structure ReadsItem (item : Read α) (close : Mark) (ls : List Lexeme) (Q : α → Prop) : Prop where
  reads : ∀ m rest, m = .comma ∨ m = close → Reads item (ls ++ .mark m :: rest) (.mark m :: rest) Q
  opens : ∃ l tail, ls = l :: tail ∧ l.isMark close = false

theorem items_reads (hclose : close ≠ .comma) {xs : List β}
    (hitem : ∀ x ∈ xs, ReadsItem item close (write x) (R x)) (hbound : xs.length < bound)
    (done : List α) (rest : List Lexeme) :
    Reads (items item close bound done) (commas (xs.map write) ++ .mark close :: rest)
      (.mark close :: rest) (fun ys => ∃ zs, List.Forall₂ R xs zs ∧ ys = done.reverse ++ zs) := by
  induction xs generalizing bound done with
  | nil =>
    obtain _ | bound := bound
    · cases hbound
    refine sees_reads ?_
    simp only [Lexeme.isMark, beq_self_eq_true, if_true]
    exact .ret ⟨[], .nil, by simp⟩
  | cons x xs ih =>
    obtain _ | bound := bound
    · cases hbound
    obtain ⟨hx, hxs⟩ := List.forall_mem_cons.1 hitem
    obtain ⟨l, tail, hwrite, hl⟩ := hx.opens
    rw [items]
    cases xs with
    | nil =>
      have hlexemes : commas ([x].map write) = write x := by simp [commas, List.intercalate]
      rw [hlexemes, hwrite, List.cons_append]
      refine sees_reads ?_
      rw [hl, ← List.cons_append, ← hwrite]
      refine (hx.reads close rest (.inr rfl)).bind fun y hy => accept_passes ?_ ?_
      · exact beq_eq_false_iff_ne.2 hclose
      · exact .ret ⟨[y], .cons hy .nil, by simp⟩
    | cons x' xs =>
      have hlexemes : commas ((x :: x' :: xs).map write) =
          write x ++ .mark .comma :: commas ((x' :: xs).map write) := by
        simp [commas, List.intercalate]
      rw [hlexemes, List.append_assoc, List.cons_append, hwrite, List.cons_append]
      refine sees_reads ?_
      rw [hl, ← List.cons_append, ← hwrite]
      refine (hx.reads .comma _ (.inl rfl)).bind fun y hy => accept_reads ?_
      refine (ih hxs (Nat.lt_of_succ_lt_succ hbound) (y :: done)).imp ?_
      rintro _ ⟨zs, hzs, rfl⟩
      exact ⟨y :: zs, .cons hy hzs, by simp⟩

theorem enclosed_reads (close : Mark) (hclose : close ≠ .comma) {xs : List β}
    (hitem : ∀ x ∈ xs, ReadsItem item close (write x) (R x)) (hbound : xs.length < bound)
    (what : String) (rest : List Lexeme) :
    Reads (enclosed item close what bound) (commas (xs.map write) ++ .mark close :: rest) rest
      (List.Forall₂ R xs) := by
  refine (items_reads hclose hitem hbound [] rest).bind ?_
  rintro _ ⟨zs, hzs, rfl⟩
  exact expect_reads (.ret hzs)

theorem parameters_reads {x : String} {xs : List String} (hbound : xs.length < bound)
    (done : List String) (rest : List Lexeme) :
    Reads (parameters bound done)
      (commas ((x :: xs).map fun x => [.word x]) ++ .mark .pipe :: rest) (.mark .pipe :: rest)
      (· = done.reverse ++ x :: xs) := by
  induction xs generalizing x bound done with
  | nil =>
    obtain _ | bound := bound
    · cases hbound
    exact expectName_reads (accept_passes rfl (.ret (by simp)))
  | cons x' xs ih =>
    obtain _ | bound := bound
    · cases hbound
    have hlexemes : commas ((x :: x' :: xs).map fun x => [Lexeme.word x]) =
        .word x :: .mark .comma :: commas ((x' :: xs).map fun x => [Lexeme.word x]) := by
      simp [commas, List.intercalate]
    rw [hlexemes, parameters]
    refine expectName_reads (accept_reads ?_)
    refine (ih (Nat.lt_of_succ_lt_succ hbound) (x :: done)).imp ?_
    rintro _ rfl
    simp

/-- Statements that can each be read where a semicolon or the lexeme after them all follows. -/
theorem statements_reads {expr : Read Expr} {isEnd : Lexeme → Bool} {R : β → Expr → Prop}
    {xs : List β} (l : Lexeme) (rest : List Lexeme) (hl : isEnd l = true)
    (hnosemi : l.isMark .semicolon = false)
    (hitem : ∀ x ∈ xs, ∀ l', l' = .mark .semicolon ∨ l' = l → ∀ rest,
      Reads expr (write x ++ l' :: rest) (l' :: rest) (R x))
    (hopens : ∀ x ∈ xs, ∃ l' tail, write x = l' :: tail ∧ isEnd l' = false ∧ l'.isEnding = false)
    (hbound : xs.length < bound) (done : List Expr) :
    Reads (statements expr isEnd bound done) (semicolons (xs.map write) ++ l :: rest) (l :: rest)
      (fun ys => ∃ zs, List.Forall₂ R xs zs ∧ ys = done.reverse ++ zs) := by
  have hattempt : ∀ {ls mid : List Lexeme} {Q : Expr → Prop}, Reads expr ls mid Q →
      Reads (attempt expr) ls mid (fun r => ∃ e, r = .ok e ∧ Q e) := by
    intro ls mid Q h s hs
    obtain ⟨e, s', hrun, hmid, herrors, he⟩ := h s hs
    exact ⟨.ok e, s', by rw [attempt, hrun], hmid, herrors, e, rfl, he⟩
  induction xs generalizing bound done with
  | nil =>
    obtain _ | bound := bound
    · cases hbound
    refine sees_reads ?_
    simp only [hl, Bool.true_or, if_true]
    exact .ret ⟨[], .nil, by simp⟩
  | cons x xs ih =>
    obtain _ | bound := bound
    · cases hbound
    obtain ⟨hx, hxs⟩ := List.forall_mem_cons.1 hitem
    obtain ⟨⟨l', tail, hwrite, hmore, hending⟩, hopens⟩ := List.forall_mem_cons.1 hopens
    have hbound := Nat.lt_of_succ_lt_succ hbound
    rw [statements]
    cases xs with
    | nil =>
      have hlexemes : semicolons ([x].map write) = write x := by simp [semicolons, List.intercalate]
      rw [hlexemes, hwrite, List.cons_append]
      refine sees_reads ?_
      rw [hmore, hending, ← List.cons_append, ← hwrite]
      refine (hattempt (hx l (.inr rfl) rest)).bind ?_
      rintro _ ⟨e, rfl, he⟩
      refine accept_passes hnosemi (sees_reads ?_)
      rw [hl]
      refine (ih (List.forall_mem_nil _) (List.forall_mem_nil _) hbound (e :: done)).imp ?_
      rintro _ ⟨zs, hzs, rfl⟩
      exact ⟨e :: zs, .cons he hzs, by simp⟩
    | cons x' xs =>
      have hlexemes : semicolons ((x :: x' :: xs).map write) =
          write x ++ .mark .semicolon :: semicolons ((x' :: xs).map write) := by
        simp [semicolons, List.intercalate]
      rw [hlexemes, List.append_assoc, List.cons_append, hwrite, List.cons_append]
      refine sees_reads ?_
      rw [hmore, hending, ← List.cons_append, ← hwrite]
      refine (hattempt (hx _ (.inl rfl) _)).bind ?_
      rintro _ ⟨e, rfl, he⟩
      refine accept_reads ((ih hxs hopens hbound (e :: done)).imp ?_)
      rintro _ ⟨zs, hzs, rfl⟩
      exact ⟨e :: zs, .cons he hzs, by simp⟩

end Lists

section Operators

variable {expr operand : Read Expr} {l l' : Lexeme} {ls mid rest : List Lexeme} {bound least precedence : Nat}
  {P P' Q : Expr → Prop}

theorem climb_stops (hl : Operator.ofLexeme? l = none) (least : Nat) (left : Expr) :
    Reads (climb operand (bound + 1) least left) (l :: ls) (l :: ls) (· = left) := by
  refine current_reads fun t ht => ?_
  rw [ht, hl]
  exact .ret rfl

/-- Where no operator follows, nothing is added to an operand. -/
theorem binary_operand (hl : Operator.ofLexeme? l = none) (h : Reads operand ls (l :: rest) Q)
    (least : Nat) : Reads (binary operand (bound + 1) least) ls (l :: rest) Q := by
  refine h.bind fun left hleft => (climb_stops hl least left).imp ?_
  rintro _ rfl
  exact hleft

/-- An operator between two operands. -/
theorem binary_operator {op : Operator} (bound : Nat)
    (hop : Operator.ofLexeme? l = some (precedence, op)) (hleast : least < precedence)
    (hl' : Operator.ofLexeme? l' = none) (hl : l.isEnding = false) (hleft : Reads operand ls (l :: mid) P)
    (hright : Reads operand mid (l' :: rest) P') :
    Reads (binary operand (bound + 2) least) ls (l' :: rest)
      (fun e => ∃ line left right, e = op.join line left right ∧ P left ∧ P' right) := by
  refine hleft.bind fun left hleft => current_reads fun t ht => ?_
  rw [ht, hop]
  simp only [Nat.not_le.2 hleast, if_false]
  refine take_reads hl fun _ => hright.bind fun first hfirst =>
    (climb_stops hl' precedence first).bind fun right hright => (climb_stops hl' least _).imp ?_
  rintro _ rfl
  exact ⟨_, left, right, rfl, hleft, hright ▸ hfirst⟩

theorem unary_plain (hminus : l.isMark .minus = false) (hnot : l.isKeyword .negate = false)
    (hprimary : Reads (primary expr bound) (l :: ls) mid P)
    (hpost : ∀ e, P e → Reads (postfixes expr bound e) mid rest Q) :
    Reads (unary expr (bound + 1)) (l :: ls) rest Q :=
  current_reads fun _ _ => accept_passes hminus (acceptKeyword_passes hnot (hprimary.bind hpost))

theorem unary_minus (h : Reads (unary expr bound) ls rest P) :
    Reads (unary expr (bound + 1)) (.mark .minus :: ls) rest
      (fun e => ∃ line e', e = negated line e' ∧ P e') :=
  current_reads fun _ _ => accept_reads (h.bind fun e he => .ret ⟨_, e, rfl, he⟩)

theorem unary_not (h : Reads (unary expr bound) ls rest P) :
    Reads (unary expr (bound + 1)) (.keyword .negate :: ls) rest
      (fun e => ∃ line e', e = .callOf line "not" [e'] ∧ P e') :=
  current_reads fun _ _ =>
    accept_passes rfl (acceptKeyword_reads (h.bind fun e he => .ret ⟨_, e, rfl, he⟩))

/-- The lexemes that prolong an operand: the beginnings of arguments, fields and indexes. -/
def prolongs : Lexeme → Bool
  | .mark .openParen | .mark .dot | .mark .openSquare => true
  | _ => false

theorem postfixes_stop (hl : prolongs l = false) (subject : Expr) :
    Reads (postfixes expr (bound + 1) subject) (l :: ls) (l :: ls) (· = subject) := by
  have hother : ∀ m, prolongs (.mark m) = true → l.isMark m = false := by
    intro m hm
    refine Bool.eq_false_iff.2 fun h => ?_
    rw [eq_of_isMark h, hm] at hl
    cases hl
  exact current_reads fun _ _ => accept_passes (hother _ rfl) (accept_passes (hother _ rfl)
    (accept_passes (hother _ rfl) (.ret rfl)))

theorem postfixes_call {P : List Expr → Prop} (subject : Expr)
    (hargs : Reads (enclosed expr .closeParen "')' after arguments" bound) ls mid P)
    (hpost : ∀ line args, P args → Reads (postfixes expr bound (.call line subject args)) mid rest Q) :
    Reads (postfixes expr (bound + 1) subject) (.mark .openParen :: ls) rest Q :=
  current_reads fun _ _ => accept_reads (hargs.bind fun args hargs => hpost _ args hargs)

theorem postfixes_field {x : String} (subject : Expr)
    (hpost : ∀ line, Reads (postfixes expr bound (.field line subject x)) ls rest Q) :
    Reads (postfixes expr (bound + 1) subject) (.mark .dot :: .word x :: ls) rest Q :=
  current_reads fun _ _ => accept_passes rfl (accept_reads (expectName_reads (hpost _)))

/-- Whether lexemes begin with a form that is read before all operators. -/
def opensForm : List Lexeme → Bool
  | .keyword .var :: _ | .keyword .effect :: _ | .keyword .handle :: _ | .keyword .when :: _
  | .mark .pipe :: _ | .word _ :: .mark .equal :: _ => true
  | _ => false

/-- Other expressions are made of operands and operators. -/
theorem expr_operators (hform : opensForm (l :: ls) = false)
    (h : Reads (binary (unary (Read.expr bound) bound) bound 0) (l :: ls) rest Q) :
    Reads (Read.expr (bound + 1)) (l :: ls) rest Q := by
  refine current_reads fun t ht => ?_
  simp only [ht]
  split
  case h_6 x =>
    refine seesSecond_passes (fun l' more hls => Bool.eq_false_iff.2 fun hequal => ?_) h
    rw [hls, eq_of_isMark hequal] at hform
    cases hform
  case h_7 => exact h
  all_goals cases hform

end Operators

end Read

end Resumable
