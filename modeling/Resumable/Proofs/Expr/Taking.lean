import Resumable.Expr.Reader
import Resumable.Proofs.Action

/-!
What reading takes from the tokens. Whatever is read, tokens are taken from the front only, an
expression takes at least one, and the measure of the functions never runs out if it is twice the number
of tokens.
-/

namespace Resumable

/-- The token at the front. -/
def ReadState.front (s : ReadState) : Token :=
  s.tokens.headD ⟨.ending, 0, 0⟩

/-- The state after the token at the front has been taken. -/
def ReadState.rest (s : ReadState) : ReadState :=
  { s with tokens := s.tokens.tail }

theorem ReadState.length_rest {s : ReadState} (h : s.front.lexeme.isEnding = false) :
    s.rest.tokens.length + 1 = s.tokens.length := by
  cases htokens : s.tokens with
  | nil => simp [front, htokens, Lexeme.isEnding] at h
  | cons t ts => simp [rest, htokens]

namespace Read

variable {α β : Type} {strict : Bool} {s : ReadState}

section Primitives

theorem current_run (s : ReadState) : current s = .ok s.front s := by
  obtain ⟨_ | ⟨t, ts⟩, errors⟩ := s <;> rfl

theorem sees_run (p : Lexeme → Bool) (s : ReadState) : sees p s = .ok (p s.front.lexeme) s := by
  rw [sees, bind_of_ok (current_run s)]
  rfl

theorem take_run (h : s.front.lexeme.isEnding = false) : take s = .ok s.front s.rest := by
  rw [take, bind_of_ok (current_run s), h]
  rfl

theorem unexpected_run (what : String) (s : ReadState) : ∃ e, unexpected what s = .ok e s := by
  rw [unexpected, bind_of_ok (current_run s)]
  exact ⟨_, rfl⟩

theorem refuse_run (what : String) (s : ReadState) :
    ∃ e, (refuse what : Read α) s = .error (.error e) s := by
  obtain ⟨e, he⟩ := unexpected_run what s
  rw [refuse, bind_of_ok he]
  exact ⟨e, rfl⟩

theorem eq_of_isMark {l : Lexeme} {m : Mark} (h : l.isMark m = true) : l = .mark m := by
  cases l with
  | mark m' => rw [Lexeme.isMark, beq_iff_eq] at h; rw [h]
  | _ => cases h

theorem isEnding_of_isMark {l : Lexeme} {m : Mark} (h : l.isMark m = true) : l.isEnding = false := by
  cases l <;> first | rfl | cases h

theorem isEnding_of_isKeyword {l : Lexeme} {w : Keyword} (h : l.isKeyword w = true) :
    l.isEnding = false := by
  cases l <;> first | rfl | cases h

/-- A mark is taken exactly if it is at the front. -/
theorem accept_cases (m : Mark) (s : ReadState) :
    s.front.lexeme.isMark m = true ∧ accept m s = .ok true s.rest ∨
      s.front.lexeme.isMark m = false ∧ accept m s = .ok false s := by
  cases h : s.front.lexeme.isMark m with
  | false =>
    refine .inr ⟨rfl, ?_⟩
    rw [accept, bind_of_ok (sees_run _ s), h]
    rfl
  | true =>
    refine .inl ⟨rfl, ?_⟩
    rw [accept, bind_of_ok (sees_run _ s), h, if_pos rfl, bind_of_ok (take_run (isEnding_of_isMark h))]
    rfl

theorem acceptKeyword_cases (w : Keyword) (s : ReadState) :
    s.front.lexeme.isKeyword w = true ∧ acceptKeyword w s = .ok true s.rest ∨
      s.front.lexeme.isKeyword w = false ∧ acceptKeyword w s = .ok false s := by
  cases h : s.front.lexeme.isKeyword w with
  | false =>
    refine .inr ⟨rfl, ?_⟩
    rw [acceptKeyword, bind_of_ok (sees_run _ s), h]
    rfl
  | true =>
    refine .inl ⟨rfl, ?_⟩
    rw [acceptKeyword, bind_of_ok (sees_run _ s), h, if_pos rfl,
      bind_of_ok (take_run (isEnding_of_isKeyword h))]
    rfl

theorem seesSecond_run (m : Mark) (s : ReadState) :
    seesSecond m s = .ok (s.rest.front.lexeme.isMark m) s := by
  obtain ⟨_ | ⟨t, _ | ⟨t', ts⟩⟩, errors⟩ := s <;> rfl

end Primitives

/-- Running `p` from `s` comes to an end without the measure running out. Tokens are taken from the
front only; if it is strict, at least one of them where `p` succeeds. -/
def Takes (strict : Bool) (p : Read α) (s : ReadState) : Prop :=
  match p s with
  | .ok _ s' => s'.tokens <:+ s.tokens ∧ s'.tokens.length + strict.toNat ≤ s.tokens.length
  | .error (.error _) s' => s'.tokens <:+ s.tokens
  | .error .exhausted _ => False

namespace Takes

variable {p : Read α} {f : α → Read β}

theorem of_ok {a : α} {s' : ReadState} (hrun : p s = .ok a s') (hsuffix : s'.tokens <:+ s.tokens)
    (hlength : s'.tokens.length + strict.toNat ≤ s.tokens.length) : Takes strict p s := by
  rw [Takes, hrun]
  exact ⟨hsuffix, hlength⟩

theorem of_error {e : SyntaxError} {s' : ReadState} (hrun : p s = .error (.error e) s')
    (hsuffix : s'.tokens <:+ s.tokens) : Takes strict p s := by
  rw [Takes, hrun]
  exact hsuffix

/-- What takes a token takes tokens. -/
theorem weaken (h : Takes true p s) : Takes strict p s := by
  have hle := Bool.toNat_le strict
  unfold Takes at h ⊢
  split at h
  · exact ⟨h.1, Nat.le_trans (Nat.add_le_add_left hle _) h.2⟩
  · exact h
  · exact h

theorem ret (a : α) : Takes false (pure a : Read α) s :=
  of_ok rfl List.suffix_rfl (Nat.le_refl _)

theorem refuse (what : String) : Takes strict (Read.refuse what : Read α) s := by
  obtain ⟨e, he⟩ := refuse_run (α := α) what s
  exact of_error he List.suffix_rfl

/-- What follows an action that succeeds takes tokens from those that are left. -/
theorem of_run {a : α} {s₁ : ReadState} {strict₁ strict₂ : Bool} (hrun : p s = .ok a s₁)
    (hsuffix : s₁.tokens <:+ s.tokens)
    (hlength : s₁.tokens.length + strict₁.toNat ≤ s.tokens.length)
    (hf : Takes strict₂ (f a) s₁) (hstrict : strict.toNat ≤ strict₁.toNat + strict₂.toNat) :
    Takes strict (p >>= f) s := by
  unfold Takes at hf ⊢
  rw [bind_of_ok hrun]
  revert hf
  split
  · rintro ⟨hmore, hless⟩
    exact ⟨hmore.trans hsuffix, by omega⟩
  · exact fun hmore => hmore.trans hsuffix
  · exact id

theorem bind {strict₁ strict₂ : Bool} (hp : Takes strict₁ p s)
    (hf : ∀ a s₁, s₁.tokens.length + strict₁.toNat ≤ s.tokens.length → Takes strict₂ (f a) s₁)
    (hstrict : strict.toNat ≤ strict₁.toNat + strict₂.toNat) : Takes strict (p >>= f) s := by
  cases hrun : p s with
  | ok a s₁ =>
    rw [Takes, hrun] at hp
    exact of_run hrun hp.1 hp.2 (hf a s₁ hp.2) hstrict
  | error stop s₁ =>
    rw [Takes, hrun] at hp
    rw [Takes, bind_of_error hrun]
    cases stop with
    | error e => exact hp
    | exhausted => exact hp

/-- Where a token has been taken, what follows need not take one. -/
theorem first (hp : Takes true p s)
    (hf : ∀ a s₁, s₁.tokens.length < s.tokens.length → Takes false (f a) s₁) :
    Takes strict (p >>= f) s :=
  hp.bind hf (Bool.toNat_le strict)

/-- Where nothing needs to be taken, what follows may. -/
theorem andThen (hp : Takes false p s)
    (hf : ∀ a s₁, s₁.tokens.length ≤ s.tokens.length → Takes strict (f a) s₁) :
    Takes strict (p >>= f) s :=
  hp.bind hf (Nat.le_add_left _ _)

theorem map {g : α → β} (hp : Takes strict p s) : Takes strict (g <$> p) s := by
  rw [map_eq_pure_bind]
  exact hp.bind (fun _ _ _ => .ret _) (Nat.le_add_right _ _)

/-- What looks at the tokens only leaves the state as it is. -/
theorem look {a : α} (hrun : p s = .ok a s) (hf : Takes strict (f a) s) : Takes strict (p >>= f) s :=
  of_run hrun List.suffix_rfl (Nat.le_refl (s.tokens.length + false.toNat)) hf (Nat.le_add_left _ _)

/-- What takes the token at the front and goes on. -/
theorem next {a : α} (hrun : p s = .ok a s.rest) (hfront : s.front.lexeme.isEnding = false)
    (hf : Takes false (f a) s.rest) : Takes strict (p >>= f) s := by
  have hlength : s.rest.tokens.length + true.toNat ≤ s.tokens.length :=
    Nat.le_of_eq (ReadState.length_rest hfront)
  exact of_run hrun (List.tail_suffix _) hlength hf (Bool.toNat_le strict)

end Takes

section Tokens

theorem take_takes (h : s.front.lexeme.isEnding = false) {f : Token → Read β}
    (hf : Takes false (f s.front) s.rest) : Takes strict (take >>= f) s :=
  .next (take_run h) h hf

/-- After a mark has been looked for, it was taken or the state is as it was. -/
theorem accept_takes {m : Mark} {f : Bool → Read β}
    (hyes : s.rest.tokens.length < s.tokens.length → Takes false (f true) s.rest)
    (hno : s.front.lexeme.isMark m = false → Takes strict (f false) s) :
    Takes strict (accept m >>= f) s := by
  obtain ⟨hfront, hrun⟩ | ⟨hfront, hrun⟩ := accept_cases m s
  · have hend := isEnding_of_isMark hfront
    have hlength := ReadState.length_rest hend
    exact .next hrun hend (hyes (by omega))
  · exact .look hrun (hno hfront)

theorem acceptKeyword_takes {w : Keyword} {f : Bool → Read β}
    (hyes : s.rest.tokens.length < s.tokens.length → Takes false (f true) s.rest)
    (hno : s.front.lexeme.isKeyword w = false → Takes strict (f false) s) :
    Takes strict (acceptKeyword w >>= f) s := by
  obtain ⟨hfront, hrun⟩ | ⟨hfront, hrun⟩ := acceptKeyword_cases w s
  · have hend := isEnding_of_isKeyword hfront
    have hlength := ReadState.length_rest hend
    exact .next hrun hend (hyes (by omega))
  · exact .look hrun (hno hfront)

theorem expect_takes (m : Mark) (what : String) (s : ReadState) : Takes true (expect m what) s :=
  accept_takes (fun _ => .ret _) fun _ => .refuse what

theorem expectKeyword_takes (w : Keyword) (what : String) (s : ReadState) :
    Takes true (expectKeyword w what) s :=
  acceptKeyword_takes (fun _ => .ret _) fun _ => .refuse what

theorem expectName_takes (what : String) (s : ReadState) : Takes true (expectName what) s := by
  refine .look (current_run s) ?_
  split
  next name hname => exact take_takes (by rw [hname]; rfl) (.ret name)
  next => exact .refuse what

end Tokens

section Lists

variable {n bound : Nat}

theorem items_takes {item : Read α} (hitem : ∀ s, s.tokens.length < n → Takes true item s)
    (close : Mark) (done : List α) (hn : s.tokens.length < n) (hbound : s.tokens.length < bound) :
    Takes false (items item close bound done) s := by
  induction bound generalizing s done with
  | zero => omega
  | succ bound ih =>
    rw [items]
    refine .look (sees_run _ s) ?_
    split
    · exact .ret _
    · refine (hitem s hn).first fun x s₁ h₁ => accept_takes (fun h₂ => ?_) fun _ => .ret _
      exact ih _ (by omega) (by omega)

theorem enclosed_takes {item : Read α} (hitem : ∀ s, s.tokens.length < n → Takes true item s)
    (close : Mark) (what : String) (hn : s.tokens.length < n) (hbound : s.tokens.length < bound) :
    Takes true (enclosed item close what bound) s :=
  (items_takes hitem close [] hn hbound).andThen fun _ _ _ =>
    (expect_takes close what _).first fun _ _ _ => .ret _

theorem parameters_takes (done : List String) (hbound : s.tokens.length < bound) :
    Takes true (parameters bound done) s := by
  induction bound generalizing s done with
  | zero => omega
  | succ bound ih =>
    rw [parameters]
    refine (expectName_takes _ s).first fun name s₁ h₁ =>
      accept_takes (fun h₂ => ?_) fun _ => .ret _
    exact (ih _ (by omega)).weaken

theorem path_takes (line : Nat) (start : Expr) (hbound : s.tokens.length < bound) :
    Takes false (path line bound start) s := by
  induction bound generalizing s start with
  | zero => omega
  | succ bound ih =>
    rw [path]
    refine accept_takes (fun h₁ => ?_) fun _ => .ret _
    exact (expectName_takes _ _).first fun name s₁ h₂ => ih _ (by omega)

end Lists

/-! The constructs that start with a token of their own, which is at the front, read expressions from
fewer tokens. -/

section Constructs

variable {expr : Read Expr} {n bound : Nat} (hexpr : ∀ s, s.tokens.length < n → Takes true expr s)
include hexpr

theorem lambda_takes (name : Option String) (hfront : s.front.lexeme.isEnding = false)
    (hn : s.tokens.length ≤ n) (hbound : s.tokens.length ≤ bound) :
    Takes true (lambda expr bound name) s := by
  have hlength := ReadState.length_rest hfront
  have hbody : ∀ params s₁, s₁.tokens.length < n → Takes false (do
      expect .pipe "'|' after parameters"
      let body ← expr
      return Expr.lambda s.front.line name params body) s₁ := fun params s₁ h₁ =>
    (expect_takes _ _ s₁).first fun _ s₂ h₂ => (hexpr s₂ (by omega)).first fun _ _ _ => .ret _
  refine take_takes hfront (.look (sees_run _ _) ?_)
  split
  · exact .look rfl (hbody _ _ (by omega))
  · exact (parameters_takes [] (by omega)).first fun params s₁ h₁ => hbody params s₁ (by omega)

theorem declaration_takes (hfront : s.front.lexeme.isEnding = false)
    (hn : s.tokens.length ≤ n) (hbound : s.tokens.length ≤ bound) :
    Takes true (declaration expr bound) s := by
  have hlength := ReadState.length_rest hfront
  refine take_takes hfront ((expectName_takes _ _).first fun name s₁ h₁ =>
    (expect_takes _ _ s₁).first fun _ s₂ h₂ => .look (sees_run (Lexeme.isMark .pipe) s₂) ?_)
  split
  next hpipe =>
    exact (lambda_takes hexpr (some name) (isEnding_of_isMark hpipe) (by omega) (by omega)).first
      fun _ _ _ => .ret _
  next => exact (hexpr s₂ (by omega)).first fun _ _ _ => .ret _

omit hexpr in
theorem effect_takes (hfront : s.front.lexeme.isEnding = false) : Takes true effect s :=
  take_takes hfront ((expectName_takes _ _).first fun _ _ _ => .ret _)

theorem conditional_takes (hfront : s.front.lexeme.isEnding = false)
    (hn : s.tokens.length ≤ n) : Takes true (conditional expr) s := by
  have hlength := ReadState.length_rest hfront
  refine take_takes hfront ((hexpr _ (by omega)).first fun test s₁ h₁ =>
    (expect_takes _ _ s₁).first fun _ s₂ h₂ => (hexpr s₂ (by omega)).first fun yes s₃ h₃ =>
      acceptKeyword_takes (fun h₄ => ?_) fun _ => .ret _)
  exact (expect_takes _ _ _).first fun _ s₄ h₄ => (hexpr s₄ (by omega)).first fun _ _ _ => .ret _

theorem clause_takes (hn : s.tokens.length < n) (hbound : s.tokens.length ≤ bound) :
    Takes true (clause expr bound) s := by
  have hend : ∀ effect param resume guard line s₁, s₁.tokens.length < n → Takes false (do
      expect .fatArrow "'=>'"
      let body ← expr
      return ({ effect, param, resume, guard, body, line } : Clause Expr)) s₁ :=
    fun effect param resume guard line s₁ h₁ =>
      (expect_takes _ _ s₁).first fun _ s₂ h₂ => (hexpr s₂ (by omega)).first fun _ _ _ => .ret _
  have hguard : ∀ effect param resume line s₁, s₁.tokens.length < n → Takes false (do
      expect .closeParen "')'"
      let guard ←
        if ← acceptKeyword .when then some <$> expr
        else pure none
      expect .fatArrow "'=>'"
      let body ← expr
      return ({ effect, param, resume, guard, body, line } : Clause Expr)) s₁ := by
    intro effect param resume line s₁ h₁
    refine (expect_takes _ _ s₁).first fun _ s₂ h₂ => acceptKeyword_takes (fun h₃ => ?_) fun _ => ?_
    · exact (hexpr _ (by omega)).map.first fun guard s₃ h₄ => hend _ _ _ _ _ s₃ (by omega)
    · exact .look rfl (hend _ _ _ _ _ s₂ (by omega))
  refine .look (current_run s) ((expectName_takes _ s).first fun start s₁ h₁ =>
    (path_takes _ _ (by omega)).andThen fun effect s₂ h₂ =>
      (expect_takes _ _ s₂).first fun _ s₃ h₃ => (expectName_takes _ s₃).first fun param s₄ h₄ =>
        accept_takes (fun h₅ => ?_) fun _ => ?_)
  · exact (expectName_takes _ _).map.first fun resume s₅ h₆ => hguard _ _ _ _ s₅ (by omega)
  · exact .look rfl (hguard _ _ _ _ s₄ (by omega))

theorem handler_takes (hfront : s.front.lexeme.isEnding = false)
    (hn : s.tokens.length ≤ n) (hbound : s.tokens.length ≤ bound) :
    Takes true (handler expr bound) s := by
  have hlength := ReadState.length_rest hfront
  refine take_takes hfront ((hexpr _ (by omega)).first fun body s₁ h₁ =>
    (expectKeyword_takes _ _ s₁).first fun _ s₂ h₂ => (expect_takes _ _ s₂).first fun _ s₃ h₃ => ?_)
  have hclause : ∀ s, s.tokens.length < s₃.tokens.length + 1 → Takes true (clause expr bound) s :=
    fun s hless => clause_takes hexpr (by omega) (by omega)
  exact (enclosed_takes hclause _ _ (Nat.lt_succ_self _) (by omega)).first fun _ _ _ => .ret _

theorem recordLiteral_takes (hfront : s.front.lexeme.isEnding = false)
    (hn : s.tokens.length ≤ n) (hbound : s.tokens.length ≤ bound) :
    Takes true (recordLiteral expr bound) s := by
  have hlength := ReadState.length_rest hfront
  have hfield : ∀ s, s.tokens.length < n → Takes true (recordField expr) s := fun s hs =>
    (expectName_takes _ s).first fun name s₁ h₁ => (expect_takes _ _ s₁).first fun _ s₂ h₂ =>
      (hexpr s₂ (by omega)).first fun _ _ _ => .ret _
  exact take_takes hfront ((expect_takes _ _ _).first fun _ s₁ h₁ =>
    (enclosed_takes hfield _ _ (by omega) (by omega)).first fun _ _ _ => .ret _)

theorem parenthesized_takes (hfront : s.front.lexeme.isEnding = false)
    (hn : s.tokens.length ≤ n) (hbound : s.tokens.length ≤ bound) :
    Takes true (parenthesized expr bound) s := by
  have hlength := ReadState.length_rest hfront
  refine take_takes hfront (accept_takes (fun _ => .ret _) fun _ => ?_)
  refine (hexpr _ (by omega)).first fun first s₁ h₁ => accept_takes (fun _ => .ret _) fun _ => ?_
  exact (expect_takes _ _ s₁).first fun _ s₂ h₂ =>
    (enclosed_takes hexpr _ _ (by omega) (by omega)).first fun _ _ _ => .ret _

theorem listLiteral_takes (hfront : s.front.lexeme.isEnding = false)
    (hn : s.tokens.length ≤ n) (hbound : s.tokens.length ≤ bound) :
    Takes true (listLiteral expr bound) s := by
  have hlength := ReadState.length_rest hfront
  exact take_takes hfront ((enclosed_takes hexpr _ _ (by omega) (by omega)).first fun _ _ _ =>
    .ret _)

omit hexpr in
theorem literal_takes (e : Expr) (hfront : s.front.lexeme.isEnding = false) :
    Takes true (literal e) s :=
  take_takes hfront (.ret e)

end Constructs

/-! The loop over statements. Its iterations never fail, since errors are recorded, and they take
tokens except where they begin at a closing brace. -/

section Statements

/-- One iteration of the loop over statements, from its head to the next, and the statement it reads. -/
def round (expr : Read Expr) (isEnd : Lexeme → Bool) : Read (Option Expr) := do
  match ← attempt expr with
  | .ok e =>
    if ← accept .semicolon then return some e
    else if ← sees isEnd then return some e
    else
      recover (← unexpected "';'")
      return some e
  | .error e =>
    recover e
    return none

variable {expr : Read Expr} {isEnd : Lexeme → Bool} {bound : Nat}

/-- The loop over statements is made of its iterations. -/
theorem statements_succ (expr : Read Expr) (isEnd : Lexeme → Bool) (bound : Nat)
    (done : List Expr) : statements expr isEnd (bound + 1) done = (do
      if ← sees fun l => isEnd l || l.isEnding then return done.reverse
      else statements expr isEnd bound ((← round expr isEnd).toList ++ done)) := by
  rw [statements]
  congr 1
  funext atEnd
  split
  · rfl
  rw [round, bind_assoc]
  congr 1
  funext r
  cases r with
  | error e => simp only [bind_assoc, pure_bind, Option.toList_none, List.nil_append]
  | ok e =>
    simp only [bind_assoc]
    congr 1
    funext b
    cases b with
    | true => rfl
    | false =>
      simp only [Bool.false_eq_true, if_false, bind_assoc]
      congr 1
      funext b
      cases b <;> simp

theorem resync_suffix (depth : Nat) (ts : List Token) : resync depth ts <:+ ts := by
  induction ts generalizing depth with
  | nil => exact List.suffix_rfl
  | cons t ts ih =>
    have hskip : ∀ depth, resync depth ts <:+ t :: ts := fun depth =>
      (ih depth).trans (List.suffix_cons t ts)
    rw [resync]
    split
    · exact List.suffix_rfl
    · split_ifs
      · exact List.suffix_cons t ts
      · exact List.suffix_rfl
      · exact hskip _
      · exact hskip _
      · exact hskip _
    · exact hskip _

/-- Recovery passes over at least one token, unless it stands at a closing brace or the end. -/
theorem resync_shorter {t : Token} (ts : List Token) (hend : t.lexeme.isEnding = false)
    (hcurly : t.lexeme.isMark .closeCurly = false) : resync 0 (t :: ts) <:+ ts := by
  rw [resync]
  split
  next h => rw [h] at hend; cases hend
  next m h =>
    have hm : m ≠ .closeCurly := by
      rintro rfl
      rw [h] at hcurly
      cases hcurly
    split_ifs
    · exact List.suffix_rfl
    · exact absurd ‹0 = 0 ∧ m = .closeCurly›.2 hm
    · exact resync_suffix _ _
    · exact resync_suffix _ _
    · exact resync_suffix _ _
  next => exact resync_suffix _ _

theorem recover_run (e : SyntaxError) (s : ReadState) :
    recover e s = .ok () ⟨resync 0 s.tokens, e :: s.errors⟩ :=
  rfl

/-- An attempt succeeds with what was read or with the error that stopped it. -/
theorem attempt_cases (h : Takes true expr s) :
    (∃ e s₁, expr s = .ok e s₁ ∧ attempt expr s = .ok (.ok e) s₁ ∧ s₁.tokens <:+ s.tokens ∧
        s₁.tokens.length < s.tokens.length) ∨
      ∃ e s₁, expr s = .error (.error e) s₁ ∧ attempt expr s = .ok (.error e) s₁ ∧
        s₁.tokens <:+ s.tokens := by
  unfold attempt
  cases hrun : expr s with
  | ok e s₁ =>
    rw [Takes, hrun] at h
    exact .inl ⟨e, s₁, rfl, rfl, h⟩
  | error stop s₁ =>
    rw [Takes, hrun] at h
    cases stop with
    | error e => exact .inr ⟨e, s₁, rfl, rfl, h⟩
    | exhausted => exact h.elim

/-- Where tokens that are left after an error are passed over, an iteration has taken some. -/
theorem resync_rest_shorter {s₁ : ReadState} (hsuffix : s₁.tokens <:+ s.tokens)
    (hend : s.front.lexeme.isEnding = false)
    (hcurly : s.front.lexeme.isMark .closeCurly = false) :
    (resync 0 s₁.tokens).length < s.tokens.length := by
  have hle := (resync_suffix 0 s₁.tokens).length_le
  have hlength := ReadState.length_rest hend
  by_cases hless : s₁.tokens.length < s.tokens.length
  · omega
  · have hsame : s₁.tokens = s.tokens := hsuffix.eq_of_length_le (by omega)
    obtain ⟨_ | ⟨t, ts⟩, errors⟩ := s
    · cases hend
    · rw [hsame]
      exact Nat.lt_succ_of_le (resync_shorter ts hend hcurly).length_le

/-- Where an iteration leads: past the semicolon after a statement that was read, to the end of the
statements, or to where recovery ends, from the error that stopped the statement or because something
else follows it. -/
inductive RoundEnd (expr : Read Expr) (isEnd : Lexeme → Bool) (s : ReadState) : ReadState → Prop
  | semicolon {x : Expr} {s₁ : ReadState} : expr s = .ok x s₁ → s₁.tokens <:+ s.tokens →
      s₁.front.lexeme.isMark .semicolon = true → RoundEnd expr isEnd s s₁.rest
  | ending {s' : ReadState} : isEnd s'.front.lexeme = true → RoundEnd expr isEnd s s'
  | stopped {s₁ s' : ReadState} {e : SyntaxError} : expr s = .error (.error e) s₁ →
      recover e s₁ = .ok () s' → RoundEnd expr isEnd s s'
  | unseparated {x : Expr} {s₁ s' : ReadState} {e : SyntaxError} : expr s = .ok x s₁ →
      unexpected "';'" s₁ = .ok e s₁ → recover e s₁ = .ok () s' → RoundEnd expr isEnd s s'

/-- An iteration never fails. Some token is taken, unless it begins at a closing brace or the end. -/
theorem round_run (h : Takes true expr s) (isEnd : Lexeme → Bool) :
    ∃ r s', round expr isEnd s = .ok r s' ∧ s'.tokens <:+ s.tokens ∧
      (s.front.lexeme.isEnding = false → s.front.lexeme.isMark .closeCurly = false →
        s'.tokens.length < s.tokens.length) ∧ RoundEnd expr isEnd s s' := by
  obtain ⟨e, s₁, hexpr, hattempt, hsuffix, hless⟩ | ⟨e, s₁, hexpr, hattempt, hsuffix⟩ :=
    attempt_cases h
  · obtain ⟨hsemi, haccept⟩ | ⟨_, haccept⟩ := accept_cases .semicolon s₁
    · have hlength := ReadState.length_rest (isEnding_of_isMark hsemi)
      refine ⟨some e, s₁.rest, ?_, (List.tail_suffix _).trans hsuffix, fun _ _ => by omega,
        .semicolon hexpr hsuffix hsemi⟩
      rw [round, bind_of_ok hattempt]
      exact bind_of_ok haccept
    · have hrun : round expr isEnd s = (do
          if ← sees isEnd then return some e
          recover (← unexpected "';'")
          return some e : Read (Option Expr)) s₁ := by
        rw [round, bind_of_ok hattempt]
        exact bind_of_ok haccept
      rw [hrun, bind_of_ok (sees_run isEnd s₁)]
      split
      next hend => exact ⟨some e, s₁, rfl, hsuffix, fun _ _ => hless, .ending hend⟩
      next =>
        obtain ⟨complaint, hcomplaint⟩ := unexpected_run "';'" s₁
        have hrecover := recover_run complaint s₁
        have hmore := resync_suffix 0 s₁.tokens
        have hle := hmore.length_le
        refine ⟨some e, _, ?_, hmore.trans hsuffix, fun _ _ => Nat.lt_of_le_of_lt hle hless,
          .unseparated hexpr hcomplaint hrecover⟩
        rw [bind_of_ok hcomplaint, bind_of_ok hrecover]
        rfl
  · have hrecover := recover_run e s₁
    refine ⟨none, _, ?_, (resync_suffix 0 s₁.tokens).trans hsuffix, resync_rest_shorter hsuffix,
      .stopped hexpr hrecover⟩
    rw [round, bind_of_ok hattempt]
    exact bind_of_ok hrecover

variable {n : Nat}

/-- Statements that end at a closing brace come to an end. -/
theorem statements_takes (hexpr : ∀ s, s.tokens.length < n → Takes true expr s)
    (hcurly : ∀ l : Lexeme, l.isMark .closeCurly = true → isEnd l = true) (done : List Expr)
    (hn : s.tokens.length < n) (hbound : s.tokens.length < bound) :
    Takes false (statements expr isEnd bound done) s := by
  induction bound generalizing s done with
  | zero => omega
  | succ bound ih =>
    rw [statements_succ]
    refine .look (sees_run _ s) ?_
    split
    next => exact .ret _
    next hmore =>
      simp only [Bool.or_eq_true, not_or, Bool.not_eq_true] at hmore
      have hopen : s.front.lexeme.isMark .closeCurly = false := by
        refine Bool.eq_false_iff.2 fun h => ?_
        rw [hcurly _ h] at hmore
        cases hmore.1
      obtain ⟨r, s₁, hrun, hsuffix, hless, _⟩ := round_run (hexpr s hn) isEnd
      have hless := hless hmore.2 hopen
      have hle : s₁.tokens.length + false.toNat ≤ s.tokens.length := Nat.le_of_lt hless
      exact .of_run hrun hsuffix hle (ih _ (by omega) (by omega)) (Nat.zero_le _)

end Statements

section Operators

variable {expr : Read Expr} {n bound : Nat} (hexpr : ∀ s, s.tokens.length < n → Takes true expr s)

theorem block_takes (hexpr : ∀ s, s.tokens.length < n → Takes true expr s)
    (hfront : s.front.lexeme.isEnding = false) (hn : s.tokens.length ≤ n)
    (hbound : s.tokens.length ≤ bound) : Takes true (block expr bound) s := by
  have hlength := ReadState.length_rest hfront
  exact take_takes hfront ((statements_takes hexpr (fun _ h => h) [] (by omega) (by omega)).andThen
    fun _ _ _ => (expect_takes _ _ _).first fun _ _ _ => .ret _)

/-- The lexemes at which a construct begins that goes on as far as possible. -/
def opensConstruct : Lexeme → Bool
  | .keyword .when | .keyword .handle | .mark .pipe => true
  | _ => false

include hexpr

theorem primary_takes (hself : opensConstruct s.front.lexeme = true → Takes true expr s)
    (hn : s.tokens.length ≤ n) (hbound : s.tokens.length ≤ bound) :
    Takes true (primary expr bound) s := by
  refine .look (current_run s) ?_
  have hend : ∀ {l}, s.front.lexeme = l → l.isEnding = false → s.front.lexeme.isEnding = false := by
    rintro l rfl h
    exact h
  have hopens : ∀ {l}, s.front.lexeme = l → opensConstruct l = true → Takes true expr s := by
    rintro l rfl h
    exact hself h
  split
  case h_1 h | h_2 h | h_3 h | h_4 h | h_5 h | h_6 h | h_7 h => exact literal_takes _ (hend h rfl)
  case h_8 h => exact recordLiteral_takes hexpr (hend h rfl) hn hbound
  case h_9 h | h_10 h | h_11 h => exact hopens h rfl
  case h_12 h => exact parenthesized_takes hexpr (hend h rfl) hn hbound
  case h_13 h => exact listLiteral_takes hexpr (hend h rfl) hn hbound
  case h_14 h => exact block_takes hexpr (hend h rfl) hn hbound
  case h_15 => exact .refuse _

theorem postfixes_takes (subject : Expr) (hn : s.tokens.length < n)
    (hbound : s.tokens.length < bound) : Takes false (postfixes expr bound subject) s := by
  induction bound generalizing s subject with
  | zero => omega
  | succ bound ih =>
    rw [postfixes]
    refine .look (current_run s) (accept_takes (fun h₁ => ?_) fun _ =>
      accept_takes (fun h₁ => ?_) fun _ => accept_takes (fun h₁ => ?_) fun _ => .ret _)
    · exact (enclosed_takes hexpr _ _ (by omega) (by omega)).first fun args s₁ h₂ =>
        ih _ (by omega) (by omega)
    · exact (expectName_takes _ _).first fun name s₁ h₂ => ih _ (by omega) (by omega)
    · exact (hexpr _ (by omega)).first fun index s₁ h₂ => (expect_takes _ _ s₁).first
        fun _ s₂ h₃ => ih _ (by omega) (by omega)

theorem unary_takes (hself : opensConstruct s.front.lexeme = true → Takes true expr s)
    (hn : s.tokens.length ≤ n) (hbound : s.tokens.length < bound) :
    Takes true (unary expr bound) s := by
  induction bound generalizing s with
  | zero => omega
  | succ bound ih =>
    rw [unary]
    refine .look (current_run s) (accept_takes (fun h₁ => ?_) fun _ =>
      acceptKeyword_takes (fun h₁ => ?_) fun _ => ?_)
    · exact (ih (fun _ => hexpr _ (by omega)) (by omega) (by omega)).first fun _ _ _ => .ret _
    · exact (ih (fun _ => hexpr _ (by omega)) (by omega) (by omega)).first fun _ _ _ => .ret _
    · exact (primary_takes hexpr hself hn (by omega)).first fun subject s₁ h₁ =>
        postfixes_takes hexpr subject (by omega) (by omega)

omit hexpr

theorem climb_takes {operand : Read Expr} (hoperand : ∀ s, s.tokens.length < n → Takes true operand s)
    (least : Nat) (left : Expr) (hn : s.tokens.length ≤ n) (hbound : s.tokens.length < bound) :
    Takes false (climb operand bound least left) s := by
  induction bound generalizing s least left with
  | zero => omega
  | succ bound ih =>
    rw [climb]
    refine .look (current_run s) ?_
    split
    next precedence op hop =>
      have hend : s.front.lexeme.isEnding = false := by
        cases hfront : s.front.lexeme <;> first | rfl | (rw [hfront] at hop; cases hop)
      have hlength := ReadState.length_rest hend
      split
      · exact .ret _
      · exact take_takes hend ((hoperand _ (by omega)).first fun first s₁ h₁ =>
          (ih _ _ (by omega) (by omega)).andThen fun right s₂ h₂ => ih _ _ (by omega) (by omega))
    next => exact .ret _

theorem binary_takes {operand : Read Expr} (hself : Takes true operand s)
    (hoperand : ∀ s, s.tokens.length < n → Takes true operand s) (least : Nat)
    (hn : s.tokens.length ≤ n) (hbound : s.tokens.length ≤ bound) :
    Takes true (binary operand bound least) s :=
  hself.first fun left _ _ => climb_takes hoperand least left (by omega) (by omega)

end Operators

/-- Reading an expression comes to an end and takes at least one token where it succeeds. The measure
lasts for two passes through the grammar at each token. -/
theorem expr_takes {bound : Nat} (hbound : 2 * s.tokens.length + 2 ≤ bound ∨
    opensConstruct s.front.lexeme = true ∧ 2 * s.tokens.length + 1 ≤ bound) :
    Takes true (Read.expr bound) s := by
  induction bound generalizing s with
  | zero => omega
  | succ bound ih =>
    have hexpr : ∀ s₁, s₁.tokens.length < s.tokens.length → Takes true (Read.expr bound) s₁ :=
      fun s₁ h₁ => ih (.inl (by omega))
    have hend : ∀ {l}, s.front.lexeme = l → l.isEnding = false → s.front.lexeme.isEnding = false := by
      rintro l rfl h
      exact h
    have hoperators : opensConstruct s.front.lexeme = false →
        Takes true (binary (unary (Read.expr bound) bound) bound 0) s := by
      intro hfront
      obtain hbound | ⟨hself, _⟩ := hbound
      · refine binary_takes (unary_takes hexpr (fun h => ?_) (Nat.le_refl _) (by omega))
          (fun s₁ h₁ => unary_takes hexpr (fun _ => hexpr s₁ h₁) (by omega) (by omega)) _
          (Nat.le_refl _) (by omega)
        rw [hfront] at h
        cases h
      · rw [hfront] at hself
        cases hself
    rw [Read.expr]
    refine .look (current_run s) ?_
    simp only []
    split
    case h_1 h => exact declaration_takes hexpr (hend h rfl) (Nat.le_refl _) (by omega)
    case h_2 h => exact effect_takes (hend h rfl)
    case h_3 h => exact handler_takes hexpr (hend h rfl) (Nat.le_refl _) (by omega)
    case h_4 h => exact conditional_takes hexpr (hend h rfl) (Nat.le_refl _)
    case h_5 h => exact lambda_takes hexpr none (hend h rfl) (Nat.le_refl _) (by omega)
    case h_6 name h =>
      refine .look (seesSecond_run .equal s) ?_
      split
      next hequal =>
        have hlength := ReadState.length_rest (hend h rfl)
        have hlength' := ReadState.length_rest (isEnding_of_isMark hequal)
        exact take_takes (hend h rfl) (take_takes (isEnding_of_isMark hequal)
          ((hexpr _ (by omega)).first fun _ _ _ => .ret _))
      next => exact hoperators (by rw [h]; rfl)
    case h_7 hhandle hwhen hpipe _ =>
      refine hoperators ?_
      unfold opensConstruct
      split
      next h => exact absurd h hwhen
      next h => exact absurd h hhandle
      next h => exact absurd h hpipe
      next => rfl

end Read

end Resumable
