import Resumable.Proofs.Expr.Reading
import Resumable.Proofs.Expr.Termination

/-!
Operators between operands. A sequence of operands with operators between them has one tree in which
each operator binds at least as loosely as the top of its left operand and more loosely than the top of
its right operand. Reading an expression goes over exactly the sequence and gives the expression of that
tree.
-/

namespace Resumable

/-- How loosely the operator of a lexeme binds, if it is one: multiplication the least, then addition,
comparison, `and`, and `or` the most. -/
def Lexeme.looseness? : Lexeme → Option Nat
  | .mark .star | .mark .slash | .mark .percent => some 0
  | .mark .plus | .mark .minus => some 1
  | .mark .doubleEqual | .mark .bangEqual | .mark .less | .mark .lessEqual | .mark .greater
  | .mark .greaterEqual => some 2
  | .keyword .both => some 3
  | .keyword .either => some 4
  | _ => none

/-- The expression for an operator between two operands. The right operand of `and` and `or` is evaluated
only where the left one leaves the answer open; other operators call the function of their name. -/
def Token.combine (op : Token) (left right : Expr) : Expr :=
  match op.lexeme with
  | .keyword .both => .cond op.line left right (some (.bool op.line false))
  | .keyword .either => .cond op.line left (.bool op.line true) (some right)
  | .mark m => .call op.line (.name op.line m.spelling) [left, right]
  | _ => left

/-- What stands in a sequence of operands and operators. -/
inductive Item where
  | operand (e : Expr)
  | operator (op : Token)

/-- Operands joined by operators. -/
inductive OpTree where
  | operand (e : Expr)
  | join (op : Token) (left right : OpTree)

namespace OpTree

/-- The operands and operators of a tree from left to right. -/
def reading : OpTree → List Item
  | operand e => [.operand e]
  | join op left right => left.reading ++ .operator op :: right.reading

/-- The expression of a tree. -/
def expr : OpTree → Expr
  | operand e => e
  | join op left right => op.combine left.expr right.expr

/-- How loosely the operator at the top binds, if there is one. -/
def top? : OpTree → Option Nat
  | operand _ => none
  | join op _ _ => op.lexeme.looseness?

/-- Each operator binds at least as loosely as the top of its left operand, and more loosely than the top
of its right operand. -/
inductive Grouped : OpTree → Prop
  | operand {e : Expr} : Grouped (.operand e)
  | join {op : Token} {left right : OpTree} {k : Nat} : op.lexeme.looseness? = some k →
      (∀ j ∈ left.top?, j ≤ k) → (∀ j ∈ right.top?, j < k) → Grouped left → Grouped right →
      Grouped (.join op left right)

theorem reading_ne_nil (t : OpTree) : t.reading ≠ [] := by
  cases t <;> simp [reading]

theorem looseness_of_top {t : OpTree} {j : Nat} (h : j ∈ t.top?) :
    ∃ op : Token, op.lexeme.looseness? = some j := by
  cases t with
  | operand => cases h
  | join op => exact ⟨op, h⟩

/-- No operator of a tree binds more loosely than the one at its top. -/
theorem Grouped.le_top {t : OpTree} (h : t.Grouped) (op : Token) {j : Nat}
    (hop : .operator op ∈ t.reading) (hj : op.lexeme.looseness? = some j) : ∃ k ∈ t.top?, j ≤ k := by
  induction h with
  | operand => simp [reading] at hop
  | @join top left right k hk hleft hright _ _ ihleft ihright =>
    refine ⟨k, hk, ?_⟩
    obtain hop | hop := List.mem_append.1 hop
    · obtain ⟨i, hi, hle⟩ := ihleft hop
      exact Nat.le_trans hle (hleft i hi)
    · obtain hop | hop := List.mem_cons.1 hop
      · cases hop
        rw [hk] at hj
        cases hj
        exact Nat.le_refl _
      · obtain ⟨i, hi, hle⟩ := ihright hop
        exact Nat.le_trans hle (Nat.le_of_lt (hright i hi))

/-- Of two operators of a sequence only one is at the top of a grouped tree: the one that stands further
left binds more loosely than all after it, or as loosely as no operator before the other. -/
theorem not_split {op op' : Token} {left right left' right' : OpTree} {mid : List Item}
    (h : (join op left right).Grouped) (h' : (join op' left' right').Grouped)
    (hleft : left'.reading = left.reading ++ .operator op :: mid)
    (hright : right.reading = mid ++ .operator op' :: right'.reading) : False := by
  cases h with
  | @join _ _ _ k hk _ habove _ hgrouped =>
    cases h' with
    | @join _ _ _ k' hk' hbelow _ hgrouped' _ =>
      obtain ⟨i, hi, hle⟩ := hgrouped.le_top op' (by rw [hright]; simp) hk'
      obtain ⟨i', hi', hle'⟩ := hgrouped'.le_top op (by rw [hleft]; simp) hk
      have := habove i hi
      have := hbelow i' hi'
      omega

/-- A sequence has at most one grouped tree. -/
theorem Grouped.unique {t t' : OpTree} (h : t.Grouped) (h' : t'.Grouped)
    (hreading : t.reading = t'.reading) : t = t' := by
  induction t generalizing t' with
  | operand e =>
    cases t' with
    | operand e' => cases hreading; rfl
    | join op left right =>
      have hlength := congrArg List.length hreading
      have := List.length_pos_iff.2 (reading_ne_nil left)
      simp [reading] at hlength
      omega
  | join op left right ihleft ihright =>
    cases t' with
    | operand e =>
      have hlength := congrArg List.length hreading
      have := List.length_pos_iff.2 (reading_ne_nil left)
      simp [reading] at hlength
      omega
    | join op' left' right' =>
      have hparts : left.Grouped ∧ right.Grouped := by cases h; exact ⟨‹_›, ‹_›⟩
      have hparts' : left'.Grouped ∧ right'.Grouped := by cases h'; exact ⟨‹_›, ‹_›⟩
      obtain ⟨mid, hleft, hright⟩ | ⟨mid, hleft, hright⟩ := List.append_eq_append_iff.1 hreading
      · cases mid with
        | nil =>
          obtain ⟨hop, hrest⟩ := List.cons.inj hright
          cases hop
          rw [ihleft hparts.1 hparts'.1 (by simpa using hleft.symm), ihright hparts.2 hparts'.2 hrest]
        | cons x mid =>
          obtain ⟨rfl, hrest⟩ := List.cons.inj hright
          exact (not_split h h' hleft hrest).elim
      · cases mid with
        | nil =>
          obtain ⟨hop, hrest⟩ := List.cons.inj hright
          cases hop
          rw [ihleft hparts.1 hparts'.1 (by simpa using hleft), ihright hparts.2 hparts'.2 hrest.symm]
        | cons x mid =>
          obtain ⟨rfl, hrest⟩ := List.cons.inj hright
          exact (not_split h' h hleft hrest).elim

end OpTree

namespace Read

/-- At the front is an atom, which makes the given expression: a literal, a name, or an expression in
parentheses. -/
inductive Atom (s : ReadState) : Expr → ReadState → Prop
  | int {n : Int64} : s.front.lexeme = .int n → Atom s (.int s.front.line n) s.rest
  | str {x : String} : s.front.lexeme = .str x → Atom s (.str s.front.line x) s.rest
  | yes : s.front.lexeme = .keyword .yes → Atom s (.bool s.front.line true) s.rest
  | no : s.front.lexeme = .keyword .no → Atom s (.bool s.front.line false) s.rest
  | nothing : s.front.lexeme = .keyword .nothing → Atom s (.nothing s.front.line) s.rest
  | name {x : String} : s.front.lexeme = .word x → Atom s (.name s.front.line x) s.rest
  | group {e : Expr} {s' : ReadState} {bound : Nat} : s.front.lexeme = .mark .openParen →
      Read.expr bound s.rest = .ok e s' → s'.front.lexeme = .mark .closeParen → Atom s e s'.rest

/-- From the first state to the second the tokens are atoms with operators between them. -/
inductive Sequence : ReadState → List Item → ReadState → Prop
  | single {s s' : ReadState} {e : Expr} : Atom s e s' → Sequence s [.operand e] s'
  | more {s s₁ s' : ReadState} {e : Expr} {k : Nat} {items : List Item} : Atom s e s₁ →
      s₁.front.lexeme.looseness? = some k → Sequence s₁.rest items s' →
      Sequence s (.operand e :: .operator s₁.front :: items) s'

/-- What comes after an operand in a sequence: nothing, or an operator and more operands. -/
inductive Remains : ReadState → List Item → ReadState → Prop
  | nothing {s : ReadState} : Remains s [] s
  | more {s s' : ReadState} {k : Nat} {items : List Item} : s.front.lexeme.looseness? = some k →
      Sequence s.rest items s' → Remains s (.operator s.front :: items) s'

variable {s s' s₁ : ReadState} {items : List Item} {e : Expr}

theorem Sequence.split (h : Sequence s items s') :
    ∃ e s₁ more, Atom s e s₁ ∧ items = .operand e :: more ∧ Remains s₁ more s' := by
  cases h with
  | single hatom => exact ⟨_, _, [], hatom, rfl, .nothing⟩
  | more hatom hop hmore => exact ⟨_, _, _, hatom, rfl, .more hop hmore⟩

/-- The precedence of operators by how loosely they bind. -/
def precedenceOf : (looseness : Nat) → Nat
  | 0 => 300
  | 1 => 200
  | 2 => 100
  | 3 => 80
  | _ => 60

theorem precedenceOf_pos (k : Nat) : 0 < precedenceOf k := by
  unfold precedenceOf
  split <;> decide

theorem looseness_le {l : Lexeme} {k : Nat} (h : l.looseness? = some k) : k ≤ 4 := by
  unfold Lexeme.looseness? at h
  split at h <;> cases h <;> decide

/-- Of two operators the one of the greater precedence binds less loosely. -/
theorem precedenceOf_lt {l l' : Lexeme} {j k : Nat} (hj : l.looseness? = some j)
    (hk : l'.looseness? = some k) : precedenceOf k < precedenceOf j ↔ j < k := by
  have hall : ∀ j ≤ 4, ∀ k ≤ 4, (precedenceOf k < precedenceOf j ↔ j < k) := by decide
  exact hall j (looseness_le hj) k (looseness_le hk)

/-- The operators and their precedences as they are read. -/
theorem ofLexeme?_of_looseness {op : Token} {k : Nat} (h : op.lexeme.looseness? = some k) :
    ∃ f, Operator.ofLexeme? op.lexeme = some (precedenceOf k, f) ∧
      (∀ left right, f.join op.line left right = op.combine left right) ∧
      op.lexeme.isEnding = false ∧ prolongs op.lexeme = false := by
  obtain ⟨l, line, column⟩ := op
  simp only at h ⊢
  unfold Lexeme.looseness? at h
  split at h <;> cases h <;> exact ⟨_, rfl, fun _ _ => rfl, rfl, rfl⟩

theorem ofLexeme?_of_no_looseness {l : Lexeme} (h : l.looseness? = none) :
    Operator.ofLexeme? l = none := by
  cases l with
  | mark m => cases m <;> first | rfl | cases h
  | keyword w => cases w <;> first | rfl | cases h
  | _ => rfl

section Atoms

theorem accept_no {m : Mark} (h : s.front.lexeme.isMark m = false) : accept m s = .ok false s := by
  obtain ⟨hmark, _⟩ | ⟨_, hrun⟩ := accept_cases m s
  · rw [h] at hmark
    cases hmark
  · exact hrun

theorem accept_yes {m : Mark} (h : s.front.lexeme = .mark m) : accept m s = .ok true s.rest := by
  obtain ⟨_, hrun⟩ | ⟨hother, _⟩ := accept_cases m s
  · exact hrun
  · simp [h, Lexeme.isMark] at hother

theorem acceptKeyword_no {w : Keyword} (h : s.front.lexeme.isKeyword w = false) :
    acceptKeyword w s = .ok false s := by
  obtain ⟨hkeyword, _⟩ | ⟨_, hrun⟩ := acceptKeyword_cases w s
  · rw [h] at hkeyword
    cases hkeyword
  · exact hrun

/-- Nothing is added to an operand where no arguments, field or index follow. -/
theorem postfixes_run (expr : Read Expr) (bound : Nat) (subject : Expr)
    (h : prolongs s.front.lexeme = false) : postfixes expr (bound + 1) subject s = .ok subject s := by
  have hother : ∀ m, prolongs (.mark m) = true → s.front.lexeme.isMark m = false := by
    intro m hm
    refine Bool.eq_false_iff.2 fun hmark => ?_
    rw [eq_of_isMark hmark, hm] at h
    cases h
  rw [postfixes, bind_of_ok (current_run s), bind_of_ok (accept_no (hother .openParen rfl))]
  refine (bind_of_ok (accept_no (hother .dot rfl))).trans ?_
  exact bind_of_ok (accept_no (hother .openSquare rfl))

/-- An expression in parentheses is read as it is, since nothing but the measure can differ. -/
theorem parenthesized_run {bound bound' : Nat} (hopen : s.front.lexeme = .mark .openParen)
    (hread : Read.expr bound' s.rest = .ok e s₁) (hclose : s₁.front.lexeme = .mark .closeParen)
    (hbound : 2 * s.tokens.length ≤ bound) (loops : Nat) :
    parenthesized (Read.expr bound) loops s = .ok e s₁.rest := by
  have hending : s.front.lexeme.isEnding = false := by rw [hopen]; rfl
  have hlength := ReadState.length_rest hending
  have hsame : Read.expr bound s.rest = .ok e s₁ := by
    rw [expr_run_eq (by omega)]
    obtain hle | hle := Nat.le_total bound' (2 * s.rest.tokens.length + 2)
    · exact (expr_outlasts hle).ok_of_ok hread
    · rw [← expr_run_eq hle, hread]
  have hinner : s.rest.front.lexeme.isMark .closeParen = false := by
    refine Bool.eq_false_iff.2 fun hmark => ?_
    obtain ⟨e', he'⟩ := expr_refused (show 2 ≤ bound by omega) (.inr rfl) hmark
    rw [he'] at hsame
    cases hsame
  rw [parenthesized, bind_of_ok (take_run hending), bind_of_ok (accept_no hinner)]
  refine (bind_of_ok hsame).trans ?_
  exact bind_of_ok (accept_yes hclose)

/-- Reading an atom takes exactly its tokens. -/
theorem primary_run (h : Atom s e s') {bound : Nat} (hbound : 2 * s.tokens.length ≤ bound)
    (loops : Nat) : primary (Read.expr bound) loops s = .ok e s' := by
  have hliteral : ∀ {l} e, s.front.lexeme = l → l.isEnding = false →
      literal e s = .ok e s.rest := by
    rintro _ e rfl h
    rw [literal, bind_of_ok (take_run h)]
    rfl
  rw [primary, bind_of_ok (current_run s)]
  cases h with
  | group hl hread hclose =>
    simp only [hl]
    exact parenthesized_run hl hread hclose hbound loops
  | _ hl =>
    simp only [hl]
    exact hliteral _ hl rfl

/-- Atoms have no sign before them. -/
theorem unary_run (h : Atom s e s') (hend : prolongs s'.front.lexeme = false) {bound : Nat}
    (hbound : 2 * s.tokens.length ≤ bound) (loops : Nat) :
    unary (Read.expr bound) (loops + 2) s = .ok e s' := by
  have hfront : s.front.lexeme.isMark .minus = false ∧ s.front.lexeme.isKeyword .negate = false := by
    cases h <;> simp_all [Lexeme.isMark, Lexeme.isKeyword]
  rw [unary, bind_of_ok (current_run s), bind_of_ok (accept_no hfront.1)]
  refine (bind_of_ok (acceptKeyword_no hfront.2)).trans ?_
  refine (bind_of_ok (primary_run h hbound (loops + 1))).trans ?_
  exact postfixes_run _ loops e hend

end Atoms

section Climbing

variable {operand : Read Expr} {bound n : Nat} {s_end : ReadState}

/-- What has been read so far is a tree of operators of a precedence above `least`, and it stands before
what remains of a sequence, which goes on with no such operator. -/
structure Reached (least : Nat) (items : List Item) (s s_end : ReadState) (t : OpTree) : Prop where
  grouped : t.Grouped
  above : ∀ j ∈ t.top?, least < precedenceOf j
  remains : ∃ more, items = t.reading ++ more ∧ Remains s more s_end
  stopped : ∀ k, s.front.lexeme.looseness? = some k → precedenceOf k ≤ least

/-- Operators of a precedence above `least` are taken from left to right. Each gets for its right operand
what the operators of a precedence above its own make of what follows it. -/
theorem climb_run (hfree : s_end.front.lexeme.looseness? = none)
    (hoperand : ∀ s e s₁ more, Atom s e s₁ → Remains s₁ more s_end → s.tokens.length ≤ n →
      operand s = .ok e s₁ ∧ s₁.tokens.length < s.tokens.length) {t : OpTree} (hgrouped : t.Grouped)
    (least : Nat) (habove : ∀ j ∈ t.top?, least < precedenceOf j) {more : List Item}
    (hremains : Remains s more s_end)
    (hnext : ∀ k, s.front.lexeme.looseness? = some k → ∀ j ∈ t.top?, j ≤ k)
    (hn : s.tokens.length ≤ n) (hbound : s.tokens.length < bound) :
    ∃ t' s₁, Reached least (t.reading ++ more) s₁ s_end t' ∧
      climb operand bound least t.expr s = .ok t'.expr s₁ ∧ s₁.tokens.length ≤ s.tokens.length := by
  induction bound generalizing s t least more with
  | zero => omega
  | succ bound ih =>
    rw [climb, bind_of_ok (current_run s)]
    cases hremains with
    | nothing =>
      refine ⟨t, s_end, ⟨hgrouped, habove, ⟨[], rfl, .nothing⟩, fun k hk => ?_⟩, ?_, Nat.le_refl _⟩
      · rw [hfree] at hk
        cases hk
      · rw [ofLexeme?_of_no_looseness hfree]
        rfl
    | @more _ k items hop hmore =>
      obtain ⟨f, hf, hjoin, hending, _⟩ := ofLexeme?_of_looseness hop
      simp only [hf]
      by_cases hleast : precedenceOf k ≤ least
      · rw [if_pos hleast]
        refine ⟨t, s, ⟨hgrouped, habove, ⟨_, rfl, .more hop hmore⟩, fun j hj => ?_⟩, rfl, Nat.le_refl _⟩
        rw [hop] at hj
        cases hj
        exact hleast
      · rw [if_neg hleast, bind_of_ok (take_run hending)]
        have hlength := ReadState.length_rest hending
        obtain ⟨e, s₁, items', hatom, rfl, hremains⟩ := hmore.split
        obtain ⟨hfirst, hless⟩ := hoperand s.rest e s₁ items' hatom hremains (by omega)
        -- the right operand goes on with the operators of a greater precedence only
        obtain ⟨right, s₂, hright, hclimb, hle⟩ := ih (t := .operand e) .operand (precedenceOf k)
          (by rintro j ⟨⟩) hremains (by rintro _ _ j ⟨⟩) (by omega) (by omega)
        obtain ⟨more, hitems, hremains⟩ := hright.remains
        have hjoined : (OpTree.join s.front t right).Grouped := by
          refine .join hop (hnext k hop) (fun j hj => ?_) hgrouped hright.grouped
          obtain ⟨op, hj'⟩ := OpTree.looseness_of_top hj
          exact (precedenceOf_lt hj' hop).1 (hright.above j hj)
        have htop : ∀ j ∈ (OpTree.join s.front t right).top?, j = k := fun j hj =>
          Option.some.inj ((Option.mem_def.1 hj).symm.trans hop)
        obtain ⟨t', s₃, hreached, hrun, hle'⟩ := ih hjoined least
          (fun j hj => by rw [htop j hj]; omega) hremains
          (fun k' hk' j hj => by
            rw [htop j hj]
            have := hright.stopped k' hk'
            exact Nat.not_lt.1 fun hlt => Nat.not_lt.2 this ((precedenceOf_lt hk' hop).2 hlt))
          (by omega) (by omega)
        refine ⟨t', s₃, ?_, ?_, by omega⟩
        · have hsame : t.reading ++ .operator s.front :: .operand e :: items' =
              (OpTree.join s.front t right).reading ++ more := by
            simpa [OpTree.reading] using hitems
          rwa [hsame]
        · rw [bind_of_ok hfirst]
          refine (bind_of_ok hclimb).trans ?_
          rw [hjoin]
          exact hrun

/-- Operands joined by operators are read as a grouped tree, up to an operator of a precedence that is not
above `least`. -/
theorem binary_run (hfree : s_end.front.lexeme.looseness? = none)
    (hoperand : ∀ s e s₁ more, Atom s e s₁ → Remains s₁ more s_end → s.tokens.length ≤ n →
      operand s = .ok e s₁ ∧ s₁.tokens.length < s.tokens.length)
    (hbound : n < bound) (hseq : Sequence s items s_end) (hn : s.tokens.length ≤ n) (least : Nat) :
    ∃ t s₁, Reached least items s₁ s_end t ∧ binary operand bound least s = .ok t.expr s₁ := by
  obtain ⟨e, s₁, more, hatom, rfl, hremains⟩ := hseq.split
  obtain ⟨hrun, hless⟩ := hoperand s e s₁ more hatom hremains hn
  obtain ⟨t, s₂, hreached, hclimb, _⟩ := climb_run hfree hoperand (t := .operand e)
    .operand least nofun hremains nofun (by omega) (show s₁.tokens.length < bound by omega)
  exact ⟨t, s₂, hreached, (bind_of_ok hrun).trans hclimb⟩

end Climbing

/-- The lexemes that go on with an operand or an operator, and the sign of an assignment. -/
def goesOn (l : Lexeme) : Bool :=
  l.looseness?.isSome || prolongs l || l.isMark .equal

theorem goesOn_eq_false {l : Lexeme} :
    goesOn l = false ↔ l.looseness? = none ∧ prolongs l = false ∧ l.isMark .equal = false := by
  simp [goesOn, and_assoc]

theorem Remains.front {more : List Item} (h : Remains s more s')
    (hend : goesOn s'.front.lexeme = false) :
    prolongs s.front.lexeme = false ∧ s.front.lexeme.isMark .equal = false := by
  cases h with
  | nothing => exact (goesOn_eq_false.1 hend).2
  | more hop =>
    obtain ⟨_, hf, _, _, hprolongs⟩ := ofLexeme?_of_looseness hop
    refine ⟨hprolongs, Bool.eq_false_iff.2 fun hequal => ?_⟩
    rw [eq_of_isMark hequal] at hf
    cases hf

/-- An atom takes tokens. -/
theorem Atom.shorter (h : Atom s e s') : s'.tokens.length < s.tokens.length := by
  have hfirst : ∀ {l}, s.front.lexeme = l → l.isEnding = false →
      s.rest.tokens.length + 1 = s.tokens.length := by
    rintro _ rfl h
    exact ReadState.length_rest h
  cases h with
  | @group _ s₁ bound hl hread hclose =>
    have hlength := hfirst hl rfl
    have hrest : s₁.tokens.length ≤ s.rest.tokens.length := by
      have htakes : Takes true (Read.expr (max bound (2 * s.rest.tokens.length + 2))) s.rest :=
        expr_takes (.inl (Nat.le_max_right _ _))
      rw [Takes, (expr_outlasts (Nat.le_max_left _ _)).ok_of_ok hread] at htakes
      exact htakes.1.length_le
    have hclosed := ReadState.length_rest (s := s₁) (by rw [hclose]; rfl)
    omega
  | int hl | str hl | yes hl | no hl | nothing hl | name hl =>
    have hlength := hfirst hl rfl
    omega

theorem Sequence.nonempty (h : Sequence s items s') : 0 < s.tokens.length := by
  obtain ⟨_, _, _, hatom, _⟩ := h.split
  exact Nat.lt_of_le_of_lt (Nat.zero_le _) hatom.shorter

/-- Reading a sequence of operands and operators, where what follows does not go on with it. It goes over
exactly the sequence and gives the expression of a tree that reads as the sequence and in which each
operator binds at least as loosely as the top of its left operand and more loosely than the top of its
right operand; and there is one such tree only. -/
theorem expr_of_sequence (hseq : Sequence s items s') (hend : goesOn s'.front.lexeme = false)
    {bound : Nat} (hbound : 2 * s.tokens.length + 2 ≤ bound) :
    ∃ t : OpTree, t.reading = items ∧ t.Grouped ∧ Read.expr bound s = .ok t.expr s' ∧
      ∀ t' : OpTree, t'.reading = items → t'.Grouped → t' = t := by
  obtain ⟨hfree, _⟩ := goesOn_eq_false.1 hend
  obtain _ | _ | _ | bound := bound
  · omega
  · omega
  · have := hseq.nonempty
    omega
  have hoperand : ∀ s₁ e s₂ more, Atom s₁ e s₂ → Remains s₂ more s' →
      s₁.tokens.length ≤ s.tokens.length →
      unary (Read.expr (bound + 2)) (bound + 2) s₁ = .ok e s₂ ∧
        s₂.tokens.length < s₁.tokens.length := fun s₁ e s₂ more hatom hremains hle =>
    ⟨unary_run hatom (hremains.front hend).1 (by omega) bound, hatom.shorter⟩
  obtain ⟨t, s₁, hreached, hrun⟩ := binary_run hfree hoperand (by omega : s.tokens.length < bound + 2)
    hseq (Nat.le_refl _) 0
  -- every operator has a precedence above 0, so nothing of the sequence is left
  obtain ⟨more, rfl, hremains⟩ := hreached.remains
  cases hremains with
  | more hop =>
    exact absurd (hreached.stopped _ hop) (Nat.not_le.2 (precedenceOf_pos _))
  | nothing =>
    refine ⟨t, by simp, hreached.grouped, ?_, fun t' hreading hgrouped =>
      hgrouped.unique hreached.grouped (by simpa using hreading)⟩
    obtain ⟨e, s₂, more, hatom, _, hmore⟩ := hseq.split
    rw [Read.expr, bind_of_ok (current_run s)]
    -- an atom does not begin with a form, and no sign of an assignment follows it
    cases hatom with
    | name hl =>
      simp only [hl]
      rw [bind_of_ok (seesSecond_run .equal s), (hmore.front hend).2]
      exact hrun
    | int hl | str hl | yes hl | no hl | nothing hl | group hl =>
      simp only [hl]
      exact hrun

/-- `a - (b) * 2 - c == 1 or d` before a semicolon. -/
theorem expr_of_sequence_mixed :
    ∃ (s s' : ReadState) (items : List Item), Sequence s items s' ∧
      goesOn s'.front.lexeme = false ∧ 2 * s.tokens.length + 2 ≤ 40 ∧
      s = ⟨(Scan.ofSource "a - (b) * 2 - c == 1 or d;").tokens, []⟩ ∧
      ∃ t : OpTree, t.reading = items ∧ t.Grouped ∧ Read.expr 40 s = .ok t.expr s' ∧
        ∀ t' : OpTree, t'.reading = items → t'.Grouped → t' = t := by
  let s : ReadState := ⟨(Scan.ofSource "a - (b) * 2 - c == 1 or d;").tokens, []⟩
  have hseq : Sequence s _ _ :=
    .more (.name rfl) rfl (.more (@Atom.group _ _ _ 8 rfl rfl rfl) rfl (.more (.int rfl) rfl
      (.more (.name rfl) rfl (.more (.int rfl) rfl (.single (.name rfl))))))
  have hend : goesOn (Lexeme.mark .semicolon) = false := rfl
  exact ⟨s, _, _, hseq, hend, by decide, rfl, expr_of_sequence hseq hend (by decide)⟩

end Read

end Resumable
