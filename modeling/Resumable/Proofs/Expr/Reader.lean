import Resumable.Proofs.Expr.Every
import Resumable.Proofs.Expr.Taking

/-!
What is read from tokens has only the nodes that programs write: handlers with clauses, and never one that
is ready to be compiled. Its names are words among the tokens, or those that the grammar puts in for
operators and the like.
-/

namespace Resumable

namespace Expr

/-- Whether an expression is a handler that is ready to be compiled. -/
def isHandled : Expr → Bool
  | handled _ _ _ => true
  | _ => false

/-- An expression as it is written. -/
def Written : Expr → Prop :=
  Every fun e => e.isHandled = false

/-- The names that an expression introduces, those inside it apart, each with the line of the node. -/
def introduces : Expr → List (String × Nat)
  | lambda line self params _ => (self.toList ++ params).map fun x => (x, line)
  | declare line x _ => [(x, line)]
  | handle _ _ clauses =>
    clauses.flatMap fun c => (c.param :: c.resume.toList).map fun x => (x, c.line)
  | _ => []

/-- The names that an expression mentions, those inside it apart. -/
def mentions : Expr → List String
  | name _ x | assign _ x _ => [x]
  | _ => []

/-- The node of an expression is one that programs write, and its names have the property `W`. -/
structure HasWords (W : String → Prop) (e : Expr) : Prop where
  written : e.isHandled = false
  introduced : ∀ b ∈ e.introduces, W b.1
  mentioned : ∀ x ∈ e.mentions, W x

/-- An expression as it is written with names of which `W` holds. -/
def Worded (W : String → Prop) : Expr → Prop :=
  Every (HasWords W)

variable {W : String → Prop} {e : Expr}

theorem worded_intro (hhandled : e.isHandled = false) (hintroduces : e.introduces = [])
    (hmentions : e.mentions = []) (hparts : ∀ part ∈ e.parts, part.Worded W) : e.Worded W :=
  .intro ⟨hhandled, by simp [hintroduces], by simp [hmentions]⟩ hparts

theorem worded_name (line : Nat) {x : String} (hx : W x) : (name line x).Worded W :=
  .intro ⟨rfl, by simp [introduces], by simpa [mentions] using hx⟩ (by simp [parts])

theorem worded_callOf {args : List Expr} (line : Nat) {function : String} (hfunction : W function)
    (hargs : ∀ e ∈ args, e.Worded W) : (callOf line function args).Worded W :=
  worded_intro rfl rfl rfl (List.forall_mem_cons.2 ⟨worded_name line hfunction, hargs⟩)

theorem worded_declare (line : Nat) {x : String} {value : Expr} (hx : W x) (hvalue : value.Worded W) :
    (declare line x value).Worded W :=
  .intro ⟨rfl, by simpa [introduces] using hx, by simp [mentions]⟩ (List.forall_mem_singleton.2 hvalue)

end Expr

/-- All words among the tokens that are still to be read have the property `W`. -/
def ReadState.Words (W : String → Prop) (s : ReadState) : Prop :=
  ∀ t ∈ s.tokens, ∀ x, t.lexeme = .word x → W x

theorem ReadState.Words.rest {W : String → Prop} {s : ReadState} (h : s.Words W) : s.rest.Words W :=
  fun t ht => h t (List.mem_of_mem_tail ht)

theorem ReadState.Words.front {W : String → Prop} {s : ReadState} (h : s.Words W) {x : String}
    (hx : s.front.lexeme = .word x) : W x := by
  obtain ⟨_ | ⟨t, ts⟩, errors⟩ := s
  · cases hx
  · exact h t (.head _) x hx

namespace Read

/-- The names that the grammar puts in. -/
def supplied : List String :=
  ["new_effect", "get", "neg", "not", "*", "/", "%", "+", "-", "==", "!=", "<", "<=", ">", ">="]

/-- From tokens whose words have the property `W`, such tokens are left, and what is found has the
property `Q`. -/
def Finds {α : Type} (W : String → Prop) (Q : α → Prop) (p : Read α) : Prop :=
  ∀ s, s.Words W → match p s with
    | .ok a s' => Q a ∧ s'.Words W
    | .error _ s' => s'.Words W

namespace Finds

variable {α β : Type} {W : String → Prop} {P : α → Prop} {Q : β → Prop} {p : Read α} {f : α → Read β}

theorem ret {a : α} (ha : P a) : Finds W P (pure a : Read α) :=
  fun _ hs => ⟨ha, hs⟩

theorem fail (stop : ReadStop) : Finds W P (throw stop : Read α) :=
  fun _ hs => hs

theorem refuse (what : String) : Finds W P (Read.refuse what : Read α) := by
  intro s hs
  obtain ⟨e, he⟩ := refuse_run (α := α) what s
  rw [he]
  exact hs

theorem bind (hp : Finds W P p) (hf : ∀ a, P a → Finds W Q (f a)) : Finds W Q (p >>= f) := by
  intro s hs
  have hfirst := hp s hs
  cases hrun : p s with
  | ok a s₁ =>
    rw [hrun] at hfirst
    rw [bind_of_ok hrun]
    exact hf a hfirst.1 s₁ hfirst.2
  | error stop s₁ =>
    rw [hrun] at hfirst
    rw [bind_of_error hrun]
    exact hfirst

/-- What is known of the first of two actions is not needed. -/
theorem seq (hp : Finds W (fun _ => True) p) (hf : ∀ a, Finds W Q (f a)) : Finds W Q (p >>= f) :=
  hp.bind fun a _ => hf a

theorem either {c : Prop} [Decidable c] {p' : Read α} (hp : Finds W P p) (hp' : Finds W P p') :
    Finds W P (if c then p else p') := by
  split
  · exact hp
  · exact hp'

/-- What looks at the tokens only. -/
theorem look (hrun : ∀ s, ∃ a, p s = .ok a s) : Finds W (fun _ => True) p := by
  intro s hs
  obtain ⟨a, ha⟩ := hrun s
  rw [ha]
  exact ⟨trivial, hs⟩

end Finds

section Primitives

variable {W : String → Prop}

theorem current_finds : Finds W (fun t => ∀ x, t.lexeme = .word x → W x) current := by
  intro s hs
  rw [current_run]
  exact ⟨fun _ => hs.front, hs⟩

theorem sees_finds (p : Lexeme → Bool) : Finds W (fun _ => True) (sees p) :=
  .look fun s => ⟨_, sees_run p s⟩

theorem seesSecond_finds (m : Mark) : Finds W (fun _ => True) (seesSecond m) :=
  .look fun s => ⟨_, seesSecond_run m s⟩

theorem unexpected_finds (what : String) : Finds W (fun _ => True) (unexpected what) :=
  .look (unexpected_run what)

theorem take_finds : Finds W (fun _ => True) take := by
  intro s hs
  rw [take, bind_of_ok (current_run s)]
  cases s.front.lexeme.isEnding with
  | true => exact ⟨trivial, hs⟩
  | false => exact ⟨trivial, hs.rest⟩

theorem accept_finds (m : Mark) : Finds W (fun _ => True) (accept m) :=
  (sees_finds _).seq fun _ => .either (take_finds.seq fun _ => .ret trivial) (.ret trivial)

theorem acceptKeyword_finds (w : Keyword) : Finds W (fun _ => True) (acceptKeyword w) :=
  (sees_finds _).seq fun _ => .either (take_finds.seq fun _ => .ret trivial) (.ret trivial)

theorem expect_finds (m : Mark) (what : String) : Finds W (fun _ => True) (expect m what) :=
  (accept_finds m).seq fun _ => .either (.ret trivial) (.refuse what)

theorem expectKeyword_finds (w : Keyword) (what : String) :
    Finds W (fun _ => True) (expectKeyword w what) :=
  (acceptKeyword_finds w).seq fun _ => .either (.ret trivial) (.refuse what)

theorem expectName_finds (what : String) : Finds W W (expectName what) := by
  refine current_finds.bind fun t ht => ?_
  split
  next name hname => exact take_finds.seq fun _ => .ret (ht name hname)
  next => exact .refuse what

theorem mem_resync {depth : Nat} {tokens : List Token} {t : Token} (ht : t ∈ resync depth tokens) :
    t ∈ tokens := by
  induction tokens generalizing depth with
  | nil => exact ht
  | cons first tokens ih =>
    unfold resync at ht
    grind

theorem recover_finds (e : SyntaxError) : Finds W (fun _ => True) (recover e) :=
  fun _ hs => ⟨trivial, fun t ht => hs t (mem_resync ht)⟩

end Primitives

section Grammar

variable {W : String → Prop} {expr : Read Expr}

theorem items_finds {α : Type} {P : α → Prop} {item : Read α} (hitem : Finds W P item)
    (close : Mark) (bound : Nat) {done : List α} (hdone : ∀ x ∈ done, P x) :
    Finds W (fun xs => ∀ x ∈ xs, P x) (items item close bound done) := by
  induction bound generalizing done with
  | zero => exact .fail _
  | succ bound ih =>
    rw [items]
    refine (sees_finds _).seq fun _ => .either (.ret ?_) ?_
    · simpa using hdone
    · refine hitem.bind fun x hx => (accept_finds _).seq fun _ => .either (ih ?_) (.ret ?_)
      · simpa using ⟨hx, hdone⟩
      · simpa [or_imp, forall_and] using ⟨hdone, hx⟩

theorem enclosed_finds {α : Type} {P : α → Prop} {item : Read α} (hitem : Finds W P item)
    (close : Mark) (what : String) (bound : Nat) :
    Finds W (fun xs => ∀ x ∈ xs, P x) (enclosed item close what bound) :=
  (items_finds hitem close bound (by simp)).bind fun _ hxs => (expect_finds _ _).seq fun _ => .ret hxs

theorem parameters_finds (bound : Nat) {done : List String} (hdone : ∀ x ∈ done, W x) :
    Finds W (fun xs => ∀ x ∈ xs, W x) (parameters bound done) := by
  induction bound generalizing done with
  | zero => exact .fail _
  | succ bound ih =>
    rw [parameters]
    refine (expectName_finds _).bind fun x hx => (accept_finds _).seq fun _ => .either (ih ?_) (.ret ?_)
    · simpa using ⟨hx, hdone⟩
    · simpa [or_imp, forall_and] using ⟨hdone, hx⟩

theorem attempt_finds {α : Type} {P : α → Prop} {p : Read α} (hp : Finds W P p) :
    Finds W (fun r => ∀ a, r = .ok a → P a) (attempt p) := by
  intro s hs
  have hfirst := hp s hs
  unfold attempt
  cases hrun : p s with
  | ok a s₁ =>
    rw [hrun] at hfirst
    exact ⟨fun _ ha => Except.ok.inj ha ▸ hfirst.1, hfirst.2⟩
  | error stop s₁ =>
    rw [hrun] at hfirst
    cases stop with
    | error e => exact ⟨nofun, hfirst⟩
    | exhausted => exact hfirst

theorem statements_finds (hexpr : Finds W (Expr.Worded W) expr) (isEnd : Lexeme → Bool) (bound : Nat)
    {done : List Expr} (hdone : ∀ e ∈ done, e.Worded W) :
    Finds W (fun es => ∀ e ∈ es, e.Worded W) (statements expr isEnd bound done) := by
  induction bound generalizing done with
  | zero => exact .fail _
  | succ bound ih =>
    rw [statements]
    refine (sees_finds _).seq fun _ => .either (.ret (by simpa using hdone)) ?_
    refine (attempt_finds hexpr).bind fun r hr => ?_
    cases r with
    | ok e =>
      have hmore : ∀ e' ∈ e :: done, e'.Worded W := List.forall_mem_cons.2 ⟨hr e rfl, hdone⟩
      exact (accept_finds _).seq fun _ => .either (ih hmore) ((sees_finds _).seq fun _ =>
        .either (ih hmore) ((unexpected_finds _).seq fun _ => (recover_finds _).seq fun _ => ih hmore))
    | error e => exact (recover_finds e).seq fun _ => ih hdone

theorem lambda_finds (hexpr : Finds W (Expr.Worded W) expr) (bound : Nat) {name : Option String}
    (hname : ∀ x ∈ name, W x) : Finds W (Expr.Worded W) (lambda expr bound name) := by
  have hbody : ∀ line params, (∀ x ∈ params, W x) → Finds W (Expr.Worded W) (do
      expect .pipe "'|' after parameters"
      let body ← expr
      return Expr.lambda line name params body) := by
    intro line params hparams
    refine (expect_finds _ _).seq fun _ => hexpr.bind fun body hbody => .ret (.intro ⟨rfl, ?_, ?_⟩ ?_)
    · simpa [Expr.introduces, or_imp, forall_and] using ⟨hname, hparams⟩
    · simp [Expr.mentions]
    · exact List.forall_mem_singleton.2 hbody
  refine take_finds.seq fun token => (sees_finds _).seq fun _ => .either ?_ ?_
  · exact .bind (.ret (P := fun xs : List String => ∀ x ∈ xs, W x) (by simp)) (hbody _)
  · exact (parameters_finds bound (by simp)).bind (hbody _)

theorem declaration_finds (hexpr : Finds W (Expr.Worded W) expr) (bound : Nat) :
    Finds W (Expr.Worded W) (declaration expr bound) := by
  refine take_finds.seq fun token => (expectName_finds _).bind fun x hx => (expect_finds _ _).seq fun _ =>
    (sees_finds _).seq fun _ => .either ?_ ?_
  · have hname : ∀ y ∈ some x, W y := by simpa using hx
    exact (lambda_finds hexpr bound hname).bind fun value hvalue =>
      .ret (Expr.worded_declare _ hx hvalue)
  · exact hexpr.bind fun value hvalue => .ret (Expr.worded_declare _ hx hvalue)

theorem effect_finds (hsupplied : ∀ x ∈ supplied, W x) : Finds W (Expr.Worded W) effect := by
  refine take_finds.seq fun token => (expectName_finds _).bind fun x hx => .ret ?_
  have hstr : (Expr.str token.line x).Worded W := Expr.worded_intro rfl rfl rfl (by simp [Expr.parts])
  exact Expr.worded_declare _ hx
    (Expr.worded_callOf _ (hsupplied _ (by simp [supplied])) (by simpa using hstr))

theorem conditional_finds (hexpr : Finds W (Expr.Worded W) expr) :
    Finds W (Expr.Worded W) (conditional expr) := by
  refine take_finds.seq fun _ => hexpr.bind fun test htest => (expect_finds _ _).seq fun _ =>
    hexpr.bind fun whenTrue htrue => (acceptKeyword_finds _).seq fun _ => .either ?_ ?_
  · refine (expect_finds _ _).seq fun _ => hexpr.bind fun whenFalse hfalse =>
      .ret (Expr.worded_intro rfl rfl rfl ?_)
    simpa [Expr.parts] using ⟨htest, htrue, hfalse⟩
  · refine .ret (Expr.worded_intro rfl rfl rfl ?_)
    simpa [Expr.parts] using ⟨htest, htrue⟩

theorem path_finds (line bound : Nat) {start : Expr} (hstart : start.Worded W) :
    Finds W (Expr.Worded W) (path line bound start) := by
  induction bound generalizing start with
  | zero => exact .fail _
  | succ bound ih =>
    rw [path]
    refine (accept_finds _).seq fun _ => .either ((expectName_finds _).bind fun _ _ => ih ?_)
      (.ret hstart)
    exact Expr.worded_intro rfl rfl rfl (by simpa [Expr.parts] using hstart)

/-- The names and the expressions of a clause are as they are written. -/
structure ClauseWorded (W : String → Prop) (c : Clause Expr) : Prop where
  names : ∀ x ∈ c.param :: c.resume.toList, W x
  parts : ∀ e ∈ c.effect :: c.body :: c.guard.toList, e.Worded W

theorem clause_finds (hexpr : Finds W (Expr.Worded W) expr) (bound : Nat) :
    Finds W (ClauseWorded W) (clause expr bound) := by
  have hguard : Finds W (fun g : Option Expr => ∀ e ∈ g, e.Worded W) (some <$> expr) :=
    hexpr.bind fun e he => .ret (by simpa using he)
  have hresume : ∀ what, Finds W (fun r : Option String => ∀ x ∈ r, W x) (some <$> expectName what) :=
    fun what => (expectName_finds what).bind fun x hx => .ret (by simpa using hx)
  have hend : ∀ effect param resume guard, effect.Worded W → W param → (∀ x ∈ resume, W x) →
      (∀ e ∈ guard, Expr.Worded W e) → ∀ line what, Finds W (ClauseWorded W) (do
        expect .fatArrow what
        let body ← expr
        return { effect, param, resume, guard, body, line }) :=
    fun effect param resume guard heffect hparam hresume hguard line what =>
      (expect_finds _ _).seq fun _ => hexpr.bind fun body hbody =>
        .ret ⟨by simpa using ⟨hparam, hresume⟩, by simpa using ⟨heffect, hbody, hguard⟩⟩
  have hrest : ∀ effect param resume, effect.Worded W → W param → (∀ x ∈ resume, W x) →
      ∀ line what what', Finds W (ClauseWorded W) (do
        expect .closeParen what
        let guard ← if ← acceptKeyword .when then some <$> expr else pure none
        expect .fatArrow what'
        let body ← expr
        return { effect, param, resume, guard, body, line }) := by
    intro effect param resume heffect hparam hresume line what what'
    refine (expect_finds _ _).seq fun _ => (acceptKeyword_finds _).seq fun _ => .either ?_ ?_
    · exact hguard.bind fun guard hg => hend effect param resume guard heffect hparam hresume hg _ _
    · exact .bind (.ret (P := fun g : Option Expr => ∀ e ∈ g, e.Worded W) (by simp)) fun guard hg =>
        hend effect param resume guard heffect hparam hresume hg _ _
  refine current_finds.bind fun token _ => (expectName_finds _).bind fun start hstart => ?_
  refine (path_finds _ bound (Expr.worded_name _ hstart)).bind fun effect heffect => ?_
  refine (expect_finds _ _).seq fun _ => (expectName_finds _).bind fun param hparam =>
    (accept_finds _).seq fun _ => .either ?_ ?_
  · exact (hresume _).bind fun resume hr => hrest effect param resume heffect hparam hr _ _ _
  · exact .bind (.ret (P := fun r : Option String => ∀ x ∈ r, W x) (by simp)) fun resume hr =>
      hrest effect param resume heffect hparam hr _ _ _

theorem handler_finds (hexpr : Finds W (Expr.Worded W) expr) (bound : Nat) :
    Finds W (Expr.Worded W) (handler expr bound) := by
  refine take_finds.seq fun _ => hexpr.bind fun body hbody => (expectKeyword_finds _ _).seq fun _ =>
    (expect_finds _ _).seq fun _ => ?_
  refine (enclosed_finds (clause_finds hexpr bound) _ _ bound).bind fun clauses hclauses => .ret ?_
  refine .intro ⟨rfl, ?_, by simp [Expr.mentions]⟩ (List.forall_mem_cons.2 ⟨hbody, ?_⟩)
  · intro b hb
    obtain ⟨c, hc, hb⟩ := List.mem_flatMap.1 hb
    obtain ⟨x, hx, rfl⟩ := List.mem_map.1 hb
    exact (hclauses c hc).names x hx
  · intro e he
    obtain ⟨c, hc, he⟩ := List.mem_flatMap.1 he
    exact (hclauses c hc).parts e he

theorem recordLiteral_finds (hexpr : Finds W (Expr.Worded W) expr) (bound : Nat) :
    Finds W (Expr.Worded W) (recordLiteral expr bound) := by
  have hfield : Finds W (fun f : String × Expr => f.2.Worded W) (recordField expr) :=
    (expectName_finds _).bind fun _ _ => (expect_finds _ _).seq fun _ =>
      hexpr.bind fun _ hvalue => .ret hvalue
  refine take_finds.seq fun _ => (expect_finds _ _).seq fun _ =>
    (enclosed_finds hfield _ _ bound).bind fun fields hfields =>
      .ret (Expr.worded_intro rfl rfl rfl ?_)
  intro e he
  obtain ⟨f, hf, rfl⟩ := List.mem_map.1 he
  exact hfields f hf

theorem parenthesized_finds (hexpr : Finds W (Expr.Worded W) expr) (bound : Nat) :
    Finds W (Expr.Worded W) (parenthesized expr bound) := by
  refine take_finds.seq fun _ => (accept_finds _).seq fun _ =>
    .either (.ret (Expr.worded_intro rfl rfl rfl (by simp [Expr.parts]))) ?_
  refine hexpr.bind fun first hfirst => (accept_finds _).seq fun _ =>
    .either (.ret hfirst) ((expect_finds _ _).seq fun _ => ?_)
  refine (enclosed_finds hexpr _ _ bound).bind fun rest hrest =>
    .ret (Expr.worded_intro rfl rfl rfl ?_)
  exact List.forall_mem_cons.2 ⟨hfirst, hrest⟩

theorem block_finds (hexpr : Finds W (Expr.Worded W) expr) (bound : Nat) :
    Finds W (Expr.Worded W) (block expr bound) :=
  take_finds.seq fun _ => (statements_finds hexpr _ bound (by simp)).bind fun _ hbody =>
    (expect_finds _ _).seq fun _ => .ret (Expr.worded_intro rfl rfl rfl hbody)

theorem listLiteral_finds (hexpr : Finds W (Expr.Worded W) expr) (bound : Nat) :
    Finds W (Expr.Worded W) (listLiteral expr bound) :=
  take_finds.seq fun _ => (enclosed_finds hexpr _ _ bound).bind fun _ hitems =>
    .ret (Expr.worded_intro rfl rfl rfl hitems)

theorem literal_finds {e : Expr} (he : e.Worded W) : Finds W (Expr.Worded W) (literal e) :=
  take_finds.seq fun _ => .ret he

theorem primary_finds (hexpr : Finds W (Expr.Worded W) expr) (bound : Nat) :
    Finds W (Expr.Worded W) (primary expr bound) := by
  have hatom : ∀ e : Expr, e.isHandled = false → e.introduces = [] → e.mentions = [] → e.parts = [] →
      Finds W (Expr.Worded W) (literal e) :=
    fun e hhandled hintroduces hmentions hparts =>
      literal_finds (Expr.worded_intro hhandled hintroduces hmentions (by simp [hparts]))
  refine current_finds.bind fun token htoken => ?_
  split
  case h_4 name hname => exact literal_finds (Expr.worded_name _ (htoken name hname))
  case h_1 | h_2 | h_3 | h_5 | h_6 | h_7 => exact hatom _ rfl rfl rfl rfl
  case h_8 => exact recordLiteral_finds hexpr bound
  case h_9 | h_10 | h_11 => exact hexpr
  case h_12 => exact parenthesized_finds hexpr bound
  case h_13 => exact listLiteral_finds hexpr bound
  case h_14 => exact block_finds hexpr bound
  case h_15 => exact .refuse _

section Operators

variable (hsupplied : ∀ x ∈ supplied, W x)
include hsupplied

theorem postfixes_finds (hexpr : Finds W (Expr.Worded W) expr) (bound : Nat) {subject : Expr}
    (hsubject : subject.Worded W) : Finds W (Expr.Worded W) (postfixes expr bound subject) := by
  induction bound generalizing subject with
  | zero => exact .fail _
  | succ bound ih =>
    rw [postfixes]
    refine current_finds.bind fun _ _ => (accept_finds _).seq fun _ => .either ?_
      ((accept_finds _).seq fun _ => .either ?_ ((accept_finds _).seq fun _ =>
        .either ?_ (.ret hsubject)))
    · refine (enclosed_finds hexpr _ _ bound).bind fun args hargs =>
        ih (Expr.worded_intro rfl rfl rfl ?_)
      exact List.forall_mem_cons.2 ⟨hsubject, hargs⟩
    · refine (expectName_finds _).bind fun _ _ => ih (Expr.worded_intro rfl rfl rfl ?_)
      simpa [Expr.parts] using hsubject
    · refine hexpr.bind fun index hindex => (expect_finds _ _).seq fun _ =>
        ih (Expr.worded_callOf _ (hsupplied _ (by simp [supplied])) ?_)
      simpa using ⟨hsubject, hindex⟩

theorem negated_worded (line : Nat) {e : Expr} (he : e.Worded W) : (negated line e).Worded W := by
  unfold negated
  split
  · exact Expr.worded_intro rfl rfl rfl (by simp [Expr.parts])
  · exact Expr.worded_intro rfl rfl rfl (by simp [Expr.parts])
  · exact Expr.worded_callOf _ (hsupplied _ (by simp [supplied])) (by simpa using he)

theorem unary_finds (hexpr : Finds W (Expr.Worded W) expr) (bound : Nat) :
    Finds W (Expr.Worded W) (unary expr bound) := by
  induction bound with
  | zero => exact .fail _
  | succ bound ih =>
    rw [unary]
    refine current_finds.bind fun _ _ => (accept_finds _).seq fun _ => .either ?_
      ((acceptKeyword_finds _).seq fun _ => .either ?_ ?_)
    · exact ih.bind fun e he => .ret (negated_worded hsupplied _ he)
    · exact ih.bind fun e he =>
        .ret (Expr.worded_callOf _ (hsupplied _ (by simp [supplied])) (by simpa using he))
    · exact (primary_finds hexpr bound).bind fun subject hsubject =>
        postfixes_finds hsupplied hexpr bound hsubject

theorem join_worded (line : Nat) {left right : Expr} (hleft : left.Worded W) (hright : right.Worded W)
    {l : Lexeme} {precedence : Nat} {op : Operator} (hop : Operator.ofLexeme? l = some (precedence, op)) :
    (op.join line left right).Worded W := by
  have hbool : ∀ b, (Expr.bool line b).Worded W :=
    fun _ => Expr.worded_intro rfl rfl rfl (by simp [Expr.parts])
  cases op with
  | both =>
    exact Expr.worded_intro rfl rfl rfl
      (by simpa [Operator.join, Expr.parts] using ⟨hleft, hright, hbool _⟩)
  | either =>
    exact Expr.worded_intro rfl rfl rfl
      (by simpa [Operator.join, Expr.parts] using ⟨hleft, hbool _, hright⟩)
  | function name =>
    have hname : name ∈ supplied := by
      unfold Operator.ofLexeme? at hop
      split at hop <;> cases hop <;> simp [supplied]
    exact Expr.worded_callOf _ (hsupplied _ hname) (by simpa using ⟨hleft, hright⟩)

theorem climb_finds {operand : Read Expr} (hoperand : Finds W (Expr.Worded W) operand)
    (bound least : Nat) {left : Expr} (hleft : left.Worded W) :
    Finds W (Expr.Worded W) (climb operand bound least left) := by
  induction bound generalizing least left with
  | zero => exact .fail _
  | succ bound ih =>
    rw [climb]
    refine current_finds.bind fun token _ => ?_
    split
    next precedence op hop =>
      refine .either (.ret hleft) (take_finds.seq fun _ => hoperand.bind fun first hfirst => ?_)
      exact (ih _ hfirst).bind fun right hright => ih _ (join_worded hsupplied _ hleft hright hop)
    next => exact .ret hleft

theorem binary_finds {operand : Read Expr} (hoperand : Finds W (Expr.Worded W) operand)
    (bound least : Nat) : Finds W (Expr.Worded W) (binary operand bound least) :=
  hoperand.bind fun _ hleft => climb_finds hsupplied hoperand bound least hleft

theorem expr_finds (bound : Nat) : Finds W (Expr.Worded W) (Read.expr bound) := by
  induction bound with
  | zero => exact .fail _
  | succ bound ih =>
    have hoperators :=
      binary_finds hsupplied (unary_finds hsupplied ih bound) bound 0
    rw [Read.expr]
    refine current_finds.bind fun token htoken => ?_
    simp only []
    split
    · exact declaration_finds ih bound
    · exact effect_finds hsupplied
    · exact handler_finds ih bound
    · exact conditional_finds ih
    · exact lambda_finds ih bound (by simp)
    next name hname =>
      refine (seesSecond_finds _).seq fun _ => .either ?_ hoperators
      refine take_finds.seq fun _ => take_finds.seq fun _ => ih.bind fun value hvalue => .ret ?_
      refine .intro ⟨rfl, by simp [Expr.introduces], ?_⟩ (List.forall_mem_singleton.2 hvalue)
      simpa [Expr.mentions] using htoken name hname
    · exact hoperators

end Operators

end Grammar

end Read

namespace Program

/-- The names of a program that is read from tokens are words among them, or put in by the grammar. -/
theorem ofTokens_worded {W : String → Prop} {tokens : List Token} {program : Program}
    (hsupplied : ∀ x ∈ Read.supplied, W x) (hwords : ∀ t ∈ tokens, ∀ x, t.lexeme = .word x → W x)
    (hread : Program.ofTokens tokens = .program program) : ∀ e ∈ program, e.Worded W := by
  unfold ofTokens readWithin at hread
  have hnone : ∀ e ∈ ([] : List Expr), e.Worded W := by simp
  have hfinds := Read.statements_finds (Read.expr_finds hsupplied (2 * tokens.length + 2))
    Lexeme.isEnding (2 * tokens.length + 2) hnone ⟨tokens, []⟩ hwords
  split at hread
  next body s hbody =>
    rw [hbody] at hfinds
    split at hread
    next =>
      cases hread
      exact hfinds.1
    next => cases hread
  next => cases hread

/-- A program that is read from a source text is read from the tokens of the text. -/
theorem ofTokens_of_ofSource {source : String} {program : Program}
    (hread : Program.ofSource source = .ok program) :
    Program.ofTokens (Scan.ofSource source).tokens = .program program := by
  unfold ofSource at hread
  simp only [] at hread
  split at hread
  next p hprogram =>
    split at hread
    next =>
      cases hread
      exact hprogram
    next => cases hread
  next => cases hread
  next => cases hread

/-- A program that is read from a source text is as it is written. -/
theorem ofSource_written {source : String} {program : Program}
    (hread : Program.ofSource source = .ok program) : ∀ e ∈ program, e.Written := fun e he =>
  (ofTokens_worded (W := fun _ => True) (by simp) (by simp) (ofTokens_of_ofSource hread) e he).mono
    fun _ h => h.written

end Program

end Resumable
