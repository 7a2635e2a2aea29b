import Resumable.Proofs.Expr.Parts
import Resumable.Proofs.Expr.Termination
import Resumable.Proofs.Token.Scanning

/-!
A program is read back from the way it is written. Each form of expression is read back if its parts are, so
all surface expressions are.
-/

namespace Resumable

open Filter Resumable.Expr

section Nodes

variable {e : Expr} {line : Nat}

theorem Lexeme.opensExpr_of_opensPart {l : Lexeme} (h : l.opensPart = true) : l.opensExpr = true := by
  cases l with
  | mark m => cases m <;> first | rfl | cases h
  | float _ | ending => cases h
  | _ => rfl

theorem operand_opensExpr (e : Expr) (ls : List Lexeme) :
    ∃ l tail, e.operand ++ ls = l :: tail ∧ l.opensExpr = true := by
  obtain ⟨l, tail, hlexemes, hl, _⟩ := operand_opens e
  exact ⟨l, tail ++ ls, by rw [hlexemes, List.cons_append], Lexeme.opensExpr_of_opensPart hl⟩

theorem Lexeme.prolongs_of_closes {l : Lexeme} (h : l.closesExpr = true) : Read.prolongs l = false :=
  (Lexeme.followsPart_iff.1 (followsPart_of_closes h)).1

theorem Lexeme.operator_of_closes {l : Lexeme} (h : l.closesExpr = true) :
    Operator.ofLexeme? l = none :=
  (Lexeme.followsPart_iff.1 (followsPart_of_closes h)).2.1

/-- Expressions without operators between operands. -/
theorem isBare_of_unary (hopens : ∃ l tail, e.lexemes = l :: tail ∧ l.opensExpr = true)
    (hform : ∀ l rest, l.closesExpr = true → Read.opensForm (e.lexemes ++ l :: rest) = false)
    (h : ∀ᶠ bound in atTop, ∀ l rest, l.closesExpr = true →
      Read.Reads (Read.unary (Read.expr bound) bound) (e.lexemes ++ l :: rest) (l :: rest) e.Relined) :
    IsBare e := by
  refine ⟨hopens, eventually_of_succ ?_⟩
  filter_upwards [h, eventually_ge_atTop 1] with bound hunary hbound l rest hl
  obtain ⟨k, rfl⟩ := Nat.exists_eq_add_of_le' hbound
  refine expr_of_unary (hform l rest hl) ?_ (Lexeme.operator_of_closes hl) (hunary l rest hl)
  simp

/-- The lexemes are read as the expression wherever nothing follows that prolongs a part. -/
structure IsItem (ls : List Lexeme) (e : Expr) : Prop where
  opens : ∃ l tail, ls = l :: tail ∧ l.opensExpr = true
  reads : ∀ᶠ bound in atTop, ∀ l rest, l.followsPart = true →
    Read.Reads (Read.expr bound) (ls ++ l :: rest) (l :: rest) e.Relined

theorem IsPart.isItem (h : IsPart e) : IsItem e.operand e := by
  obtain ⟨l, tail, hlexemes, hl⟩ := operand_opensExpr e []
  rw [List.append_nil] at hlexemes
  exact ⟨⟨l, tail, hlexemes, hl⟩, h.expr⟩

theorem IsItem.isBare (h : IsItem e.lexemes e) : IsBare e :=
  ⟨h.opens, h.reads.mono fun _ hreads l rest hl => hreads l rest (Lexeme.followsPart_of_closes hl)⟩

theorem isItem_of_unary {ls : List Lexeme} (hopens : ∃ l tail, ls = l :: tail ∧ l.opensExpr = true)
    (hform : ∀ rest, Read.opensForm (ls ++ rest) = false)
    (h : ∀ᶠ bound in atTop, ∀ l rest, Read.prolongs l = false →
      Read.Reads (Read.unary (Read.expr bound) bound) (ls ++ l :: rest) (l :: rest) e.Relined) :
    IsItem ls e := by
  refine ⟨hopens, eventually_of_succ ?_⟩
  filter_upwards [h, eventually_ge_atTop 1] with bound hunary hbound l rest hl
  obtain ⟨k, rfl⟩ := Nat.exists_eq_add_of_le' hbound
  obtain ⟨hprolongs, hoperator, _⟩ := Lexeme.followsPart_iff.1 hl
  refine expr_of_unary (hform _) ?_ hoperator (hunary l rest hprolongs)
  simp

/-- Expressions with a form of their own, which begins with `l`. -/
theorem isItem_of_primary {l : Lexeme} {tail : List Lexeme}
    (hl : l = .mark .openParen ∨ l = .mark .openSquare ∨ l = .mark .openCurly ∨ l = .keyword .record)
    (h : ∀ᶠ bound in atTop, ∀ k, bound ≤ k + 1 → ∀ rest,
      Read.Reads (Read.primary (Read.expr bound) k) (l :: tail ++ rest) rest e.Relined) :
    IsItem (l :: tail) e := by
  have hfacts : l.opensExpr = true ∧ l.isMark .minus = false ∧ l.isKeyword .negate = false ∧
      ∀ ls, Read.opensForm (l :: ls) = false := by
    obtain rfl | rfl | rfl | rfl := hl <;> exact ⟨rfl, rfl, rfl, fun _ => rfl⟩
  obtain ⟨hopens, hminus, hnot, hform⟩ := hfacts
  refine isItem_of_unary ⟨l, tail, rfl, hopens⟩ (fun _ => hform _) ?_
  filter_upwards [h, eventually_ge_atTop 2] with bound hprimary hbound l' rest hl'
  obtain ⟨k, rfl⟩ := Nat.exists_eq_add_of_le' hbound
  refine Read.unary_plain hminus hnot (hprimary (k + 1) (Nat.le_refl _) (l' :: rest)) fun e' he' => ?_
  exact (Read.postfixes_stop hl' e').imp fun _ heq => heq ▸ he'

theorem isBare_of_primary {l : Lexeme} {tail : List Lexeme} (hlexemes : e.lexemes = l :: tail)
    (hl : l = .mark .openParen ∨ l = .mark .openSquare ∨ l = .mark .openCurly ∨ l = .keyword .record)
    (h : ∀ᶠ bound in atTop, ∀ k, bound ≤ k + 1 → ∀ rest,
      Read.Reads (Read.primary (Read.expr bound) k) (e.lexemes ++ rest) rest e.Relined) :
    IsBare e := by
  refine IsItem.isBare ?_
  rw [hlexemes] at h ⊢
  exact isItem_of_primary hl h

section Items

variable {β : Type} {xs : List β} {write : β → List Lexeme} {f : β → Expr}

/-- Items with commas between them. -/
theorem items_enclosed (hxs : ∀ x ∈ xs, IsItem (write x) (f x)) (close : Mark)
    (hclose : close ≠ .comma) (hfollows : (Lexeme.mark close).followsPart = true)
    (hcloses : (Lexeme.mark close).opensExpr = false) :
    ∀ᶠ bound in atTop, ∀ k, xs.length < k → ∀ what rest,
      Read.Reads (Read.enclosed (Read.expr bound) close what k)
        (commas (xs.map write) ++ .mark close :: rest) rest
        (List.Forall₂ (fun x => (f x).Relined) xs) := by
  filter_upwards [eventually_forall_mem fun x hx => (hxs x hx).reads] with bound hreads k hk what rest
  refine Read.enclosed_reads close hclose (fun x hx => ⟨fun m rest hm => ?_, ?_⟩) hk what rest
  · refine hreads x hx (.mark m) rest ?_
    obtain rfl | rfl := hm
    · rfl
    · exact hfollows
  · obtain ⟨l, tail, hlexemes, hl⟩ := (hxs x hx).opens
    refine ⟨l, tail, hlexemes, Bool.eq_false_iff.2 fun hmark => ?_⟩
    rw [Read.eq_of_isMark hmark, hcloses] at hl
    cases hl

theorem map_unlined_of_items {es : List Expr} (h : List.Forall₂ (fun x => (f x).Relined) xs es) :
    es.map unlined = (xs.map f).map unlined := by
  rw [List.map_map]
  exact map_eq_of_forall₂ h

theorem list_isItem (hxs : ∀ x ∈ xs, IsItem (write x) (f x)) :
    IsItem (between .openSquare .closeSquare (commas (xs.map write))) (.list line (xs.map f)) := by
  refine isItem_of_primary (.inr (.inl rfl)) ?_
  filter_upwards [items_enclosed hxs .closeSquare nofun rfl rfl,
    eventually_ge_atTop (xs.length + 2)] with bound hreads hbound k hk rest
  rw [← between, between_append]
  refine Read.current_reads fun t ht => ?_
  rw [ht]
  refine Read.take_reads rfl fun t => (hreads k (by omega) _ rest).bind fun es' hes' => .ret ?_
  rw [Relined, unlined_list, unlined_list, map_unlined_of_items hes']

theorem tuple_isItem (hxs : ∀ x ∈ xs, IsItem (write x) (f x)) :
    IsItem (between .openParen .closeParen (tupleItems (xs.map write))) (.tuple line (xs.map f)) := by
  refine isItem_of_primary (.inl rfl) ?_
  rw [← between]
  cases xs with
  | nil =>
    refine Eventually.of_forall fun bound k _ rest => Read.current_reads fun t ht => ?_
    rw [ht]
    exact Read.take_reads rfl fun t => Read.accept_reads (.ret rfl)
  | cons first xs =>
    obtain ⟨hfirst, hxs⟩ := List.forall_mem_cons.1 hxs
    filter_upwards [hfirst.reads, items_enclosed hxs .closeParen (by decide) rfl rfl,
      eventually_ge_atTop (xs.length + 2)] with bound hfirstReads hreads hbound k hk rest
    rw [between_append, List.map_cons, tupleItems, List.append_assoc, List.cons_append]
    refine Read.current_reads fun t ht => ?_
    rw [ht]
    refine Read.take_reads rfl fun t => ?_
    have hread := hfirstReads (.mark .comma) (commas (xs.map write) ++ .mark .closeParen :: rest) rfl
    obtain ⟨l, tail, hls, hl⟩ := hfirst.opens
    have hclose : l.isMark .closeParen = false := by
      refine Bool.eq_false_iff.2 fun hmark => ?_
      rw [Read.eq_of_isMark hmark] at hl
      cases hl
    rw [hls, List.cons_append] at hread ⊢
    refine Read.accept_passes hclose (hread.bind fun first' hfirst' => ?_)
    refine Read.accept_passes rfl (Read.expect_reads ?_)
    refine (hreads k (by omega) _ rest).bind fun es' hes' => .ret ?_
    rw [Relined, unlined_tuple, unlined_tuple, List.map_cons, List.map_cons, List.map_cons, hfirst',
      map_unlined_of_items hes']

end Items

/-- Parts of an expression with commas between them. -/
theorem operands_enclosed {es : List Expr} (hes : ∀ e ∈ es, IsPart e) (close : Mark)
    (hclose : close ≠ .comma) (hfollows : (Lexeme.mark close).followsPart = true)
    (hcloses : (Lexeme.mark close).opensExpr = false) :
    ∀ᶠ bound in atTop, ∀ k, es.length < k → ∀ what rest,
      Read.Reads (Read.enclosed (Read.expr bound) close what k)
        (commas (es.map operand) ++ .mark close :: rest) rest (List.Forall₂ Relined es) :=
  items_enclosed (f := id) (fun e he => (hes e he).isItem) close hclose hfollows hcloses

theorem single_isBare (h : e.isSingle = true) : IsBare e := by
  refine IsItem.isBare ?_
  rw [← operand_of_single h]
  exact (isPart_of_single h).isItem

theorem eq_int_of_relined {n : Int64} (h : (Expr.int line n).Relined e) :
    ∃ line', e = .int line' n := by
  cases e <;> simp [Relined, Expr.unlined] at h
  exact ⟨_, by rw [h]⟩

theorem negative_isItem {n : Int64} (hn : ¬ 0 ≤ n) (hmin : n ≠ Int64.minValue) :
    IsItem [.mark .minus, .int (-n)] (.int line n) := by
  have hneg := neg_nonneg_of_ne_minValue hn hmin
  have hsingle : (Expr.int 0 (-n)).isSingle = true := by simpa [isSingle] using hneg
  have hpart : (Expr.int 0 (-n)).operand = [.int (-n)] := by
    rw [operand_of_single hsingle, Expr.lexemes, if_pos hneg]
  refine isItem_of_unary ⟨_, _, rfl, rfl⟩ (fun rest => rfl) ?_
  have hn := isPart_of_single hsingle
  filter_upwards [hn.unary, eventually_ge_atTop 3] with bound hunary hbound l rest hl
  obtain ⟨k, rfl⟩ := Nat.exists_eq_add_of_le' hbound
  have hread := hunary k l rest hl
  rw [hpart] at hread
  refine (Read.unary_minus hread).imp ?_
  rintro _ ⟨line', e', rfl, he'⟩
  obtain ⟨_, rfl⟩ := eq_int_of_relined he'
  rw [Relined, Read.negated, Expr.unlined, Expr.unlined, Int64.neg_neg]

theorem negative_isBare {n : Int64} (hn : ¬ 0 ≤ n) (hmin : n ≠ Int64.minValue) :
    IsBare (.int line n) := by
  refine IsItem.isBare ?_
  rw [Expr.lexemes_negative line hn]
  exact negative_isItem hn hmin

theorem call_isBare {callee : Expr} {args : List Expr} (hsurface : callee.Surface)
    (hcallee : IsPart callee) (hargs : ∀ e ∈ args, IsPart e) : IsBare (.call line callee args) := by
  have hlexemes := lexemes_call line hsurface args
  refine isBare_of_unary ?_ (fun l rest _ => ?_) ?_ <;> rw [hlexemes]
  · exact operand_opensExpr callee _
  · rw [List.append_assoc]
    refine opensForm_operand callee fun l' more hls => ?_
    rw [← (List.cons.inj hls).1]
    rfl
  · filter_upwards [hcallee, operands_enclosed hargs .closeParen nofun rfl rfl,
      eventually_ge_atTop (args.length + 3)] with bound hcallee hargs hbound l rest hl
    obtain ⟨k, rfl⟩ := Nat.exists_eq_add_of_le' hbound
    rw [List.append_assoc, between_append]
    refine unary_operand (hcallee (k + args.length + 2) _) fun callee' hcallee' => ?_
    have hargs := hargs (k + args.length + 1) (by omega) "')' after arguments" (l :: rest)
    refine Read.postfixes_call callee' hargs fun line args' hargs' => ?_
    refine (Read.postfixes_stop (Lexeme.prolongs_of_closes hl) _).imp ?_
    rintro _ rfl
    rw [Relined, unlined_call, unlined_call, hcallee', map_unlined hargs']

theorem field_isBare {target : Expr} {x : String} (htarget : IsPart target) :
    IsBare (.field line target x) := by
  have hlexemes := Expr.lexemes_field line target x
  refine isBare_of_unary ?_ (fun l rest _ => ?_) ?_ <;> rw [hlexemes]
  · exact operand_opensExpr target _
  · rw [List.append_assoc]
    refine opensForm_operand target fun l' more hls => ?_
    rw [← (List.cons.inj hls).1]
    rfl
  · filter_upwards [htarget, eventually_ge_atTop 3] with bound htarget hbound l rest hl
    obtain ⟨k, rfl⟩ := Nat.exists_eq_add_of_le' hbound
    rw [List.append_assoc]
    refine unary_operand (htarget (k + 2) _) fun target' htarget' => ?_
    refine Read.postfixes_field target' fun line => ?_
    refine (Read.postfixes_stop (Lexeme.prolongs_of_closes hl) _).imp ?_
    rintro _ rfl
    rw [Relined, Expr.unlined, Expr.unlined, htarget']

theorem negation_isBare {line' : Nat} (he : IsPart e) :
    IsBare (.call line (.name line' "not") [e]) := by
  have hlexemes := Expr.lexemes_negation line line' e
  refine isBare_of_unary ⟨_, _, hlexemes, rfl⟩ (fun l rest _ => by rw [hlexemes]; rfl) ?_
  filter_upwards [he.unary, eventually_ge_atTop 3] with bound hunary hbound l rest hl
  obtain ⟨k, rfl⟩ := Nat.exists_eq_add_of_le' hbound
  rw [hlexemes]
  refine (Read.unary_not (hunary k l rest (Lexeme.prolongs_of_closes hl))).imp ?_
  rintro _ ⟨_, e', rfl, he'⟩
  have hargs := map_unlined (.cons he' .nil)
  rw [Relined, unlined_callOf, hargs]
  exact (unlined_callOf line "not" [e]).symm

/-- An operator calls the function of its name. -/
theorem operator_of_mark {m : Mark} (h : m.isOperator = true) : ∃ precedence > 0,
    Operator.ofLexeme? (.mark m) = some (precedence, .function m.spelling) := by
  cases m <;> first | exact ⟨_, by decide, rfl⟩ | cases h

theorem operator_isBare {line' : Nat} {m : Mark} {left right : Expr} (hm : m.isOperator = true)
    (hleft : IsPart left) (hright : IsPart right) :
    IsBare (.call line (.name line' m.spelling) [left, right]) := by
  have hlexemes := Expr.lexemes_operator line hm line' left right
  obtain ⟨precedence, hprecedence, hop⟩ := operator_of_mark hm
  have hmark : Read.prolongs (.mark m) = false ∧ (Lexeme.mark m).isMark .equal = false := by
    cases m <;> first | exact ⟨rfl, rfl⟩ | cases hm
  refine ⟨by rw [hlexemes]; exact operand_opensExpr left _, eventually_of_succ ?_⟩
  filter_upwards [hleft.unary, hright.unary, eventually_ge_atTop 2]
    with bound hleft hright hbound l rest hl
  obtain ⟨k, rfl⟩ := Nat.exists_eq_add_of_le' hbound
  rw [hlexemes, List.append_assoc, List.cons_append]
  have hread := Read.binary_operator k hop hprecedence (Lexeme.operator_of_closes hl) rfl
    (hleft k (.mark m) (right.operand ++ l :: rest) hmark.1)
    (hright k l rest (Lexeme.prolongs_of_closes hl))
  have hform : Read.opensForm (left.operand ++ .mark m :: (right.operand ++ l :: rest)) = false := by
    refine opensForm_operand left fun l' more hls => ?_
    rw [← (List.cons.inj hls).1]
    exact hmark.2
  obtain ⟨l', tail, hls, _⟩ := operand_opens left
  rw [hls, List.cons_append] at hread hform ⊢
  refine (Read.expr_operators hform hread).imp ?_
  rintro _ ⟨_, left', right', rfl, hleft', hright'⟩
  have hargs := map_unlined (.cons hleft' (.cons hright' .nil))
  rw [Relined, Operator.join, unlined_callOf, hargs]
  exact (unlined_callOf line m.spelling [left, right]).symm

theorem condOnly_isBare {test whenTrue : Expr} (htest : IsPart test) (hyes : IsPart whenTrue) :
    IsBare (.cond line test whenTrue none) := by
  have hlexemes := Expr.lexemes_condOnly line test whenTrue
  refine ⟨⟨_, _, hlexemes, rfl⟩, eventually_of_succ ?_⟩
  filter_upwards [htest.expr, hyes.expr] with bound htest hyes l rest hl
  rw [hlexemes, List.cons_append, List.append_assoc, List.cons_append]
  refine Read.current_reads fun t ht => ?_
  simp only [ht]
  refine Read.take_reads rfl fun t => (htest (.mark .colon) _ rfl).bind fun test' htest' => ?_
  refine Read.expect_reads ((hyes l rest (Lexeme.followsPart_of_closes hl)).bind fun yes' hyes' => ?_)
  have hother : l.isKeyword .otherwise = false := by
    cases l <;> first | rfl | cases hl
  refine Read.acceptKeyword_passes hother (.ret ?_)
  rw [Relined, unlined_cond, unlined_cond, htest', hyes']

theorem condElse_isBare {test whenTrue whenFalse : Expr} (htest : IsPart test)
    (hyes : IsPart whenTrue) (hno : IsPart whenFalse) :
    IsBare (.cond line test whenTrue (some whenFalse)) := by
  have hlexemes := Expr.lexemes_condElse line test whenTrue whenFalse
  refine ⟨⟨_, _, hlexemes, rfl⟩, eventually_of_succ ?_⟩
  filter_upwards [htest.expr, hyes.expr, hno.expr] with bound htest hyes hno l rest hl
  rw [hlexemes, List.cons_append, List.append_assoc, List.cons_append, List.append_assoc,
    List.cons_append, List.cons_append]
  refine Read.current_reads fun t ht => ?_
  simp only [ht]
  refine Read.take_reads rfl fun t => (htest (.mark .colon) _ rfl).bind fun test' htest' => ?_
  refine Read.expect_reads ((hyes (.keyword .otherwise) _ rfl).bind fun yes' hyes' => ?_)
  refine Read.acceptKeyword_reads (Read.expect_reads ?_)
  refine (hno l rest (Lexeme.followsPart_of_closes hl)).bind fun no' hno' => .ret ?_
  rw [Relined, unlined_cond, unlined_cond, htest', hyes', Option.map_some, Option.map_some, hno']

theorem lambda_reads (params : List String) {body : Expr} (hbody : IsPart body) :
    ∀ᶠ bound in atTop, ∀ name l rest, l.closesExpr = true →
      Read.Reads (Read.lambda (Read.expr bound) bound name) (lambdaLexemes params body ++ l :: rest)
        (l :: rest) (Expr.lambda 0 name params body).Relined := by
  filter_upwards [hbody.expr, eventually_ge_atTop (params.length + 1)]
    with bound hbody hbound name l rest hl
  have hend : ∀ line, Read.Reads (do
      Read.expect .pipe "'|' after parameters"
      let body ← Read.expr bound
      return Expr.lambda line name params body)
      (.mark .pipe :: (body.operand ++ l :: rest)) (l :: rest)
      (Expr.lambda 0 name params body).Relined := by
    refine fun line => Read.expect_reads ?_
    refine (hbody l rest (Lexeme.followsPart_of_closes hl)).bind fun body' hbody' => .ret ?_
    rw [Relined, Expr.unlined, Expr.unlined, hbody']
  rw [lambdaLexemes, List.append_assoc, between_append]
  refine Read.take_reads rfl fun t => ?_
  cases params with
  | nil => exact Read.sees_reads (Read.Reads.bind (.ret rfl) fun _ h => h ▸ hend _)
  | cons x params =>
    have hparams := Read.parameters_reads (x := x) (show params.length < bound by
      simp only [List.length_cons] at hbound; omega) [] (body.operand ++ l :: rest)
    obtain ⟨tail, htail⟩ : ∃ tail, commas ((x :: params).map fun x => [Lexeme.word x]) =
        .word x :: tail := by
      cases params <;> exact ⟨_, rfl⟩
    rw [htail, List.cons_append] at hparams ⊢
    exact Read.sees_reads (hparams.bind fun params' h => h ▸ hend _)

theorem lambda_isBare {params : List String} {body : Expr} (hbody : IsPart body) :
    IsBare (.lambda line none params body) := by
  have hlexemes := Expr.lexemes_lambda line none params body
  refine ⟨⟨_, _, hlexemes, rfl⟩, eventually_of_succ ?_⟩
  filter_upwards [lambda_reads params hbody] with bound hreads l rest hl
  rw [hlexemes]
  refine Read.current_reads fun t ht => ?_
  simp only [ht]
  refine (hreads none l rest hl).imp fun e' he' => ?_
  rw [Relined, Expr.unlined, he', Expr.unlined]

theorem declare_isBare {x : String} {value : Expr} (hvalue : IsPart value)
    (hname : value.isNamedLambda = false) : IsBare (.declare line x value) := by
  have hlexemes := Expr.lexemes_declare line x hname
  refine ⟨⟨_, _, hlexemes, rfl⟩, eventually_of_succ ?_⟩
  filter_upwards [hvalue.expr] with bound hvalue l rest hl
  rw [hlexemes]
  refine Read.current_reads fun t ht => ?_
  simp only [ht]
  refine Read.take_reads rfl fun t => Read.expectName_reads (Read.expect_reads ?_)
  have hread := hvalue l rest (Lexeme.followsPart_of_closes hl)
  obtain ⟨l', tail, hls, hl', _⟩ := operand_opens value
  rw [hls] at hread ⊢
  have hpipe : l'.isMark .pipe = false := Lexeme.isMark_of_opensPart hl' nofun
  refine Read.sees_reads ?_
  rw [hpipe]
  refine hread.bind fun value' hvalue' => .ret ?_
  rw [Relined, Expr.unlined, Expr.unlined, hvalue']

/-- A function that is declared directly takes the name and is written without parentheses. -/
theorem declareFunction_isBare {line' : Nat} {x : String} {params : List String} {body : Expr}
    (hbody : IsPart body) : IsBare (.declare line x (.lambda line' (some x) params body)) := by
  have hlexemes := Expr.lexemes_declareFunction line line' x params body
  refine ⟨⟨_, _, hlexemes, rfl⟩, eventually_of_succ ?_⟩
  filter_upwards [lambda_reads params hbody] with bound hreads l rest hl
  rw [hlexemes]
  refine Read.current_reads fun t ht => ?_
  simp only [ht]
  refine Read.take_reads rfl fun t => Read.expectName_reads (Read.expect_reads ?_)
  refine Read.sees_reads ((hreads (some x) l rest hl).bind fun value' hvalue' => .ret ?_)
  rw [Relined, Expr.unlined, Expr.unlined, hvalue', Expr.unlined, Expr.unlined]

theorem assign_isBare {x : String} {value : Expr} (hvalue : IsPart value) :
    IsBare (.assign line x value) := by
  have hlexemes := Expr.lexemes_assign line x value
  refine ⟨⟨_, _, hlexemes, rfl⟩, eventually_of_succ ?_⟩
  filter_upwards [hvalue.expr] with bound hvalue l rest hl
  rw [hlexemes]
  refine Read.current_reads fun t ht => ?_
  simp only [ht]
  refine Read.seesSecond_reads (Read.take_reads rfl fun t => Read.take_reads rfl fun t => ?_)
  refine (hvalue l rest (Lexeme.followsPart_of_closes hl)).bind fun value' hvalue' => .ret ?_
  rw [Relined, Expr.unlined, Expr.unlined, hvalue']

theorem record_isBare {fields : List (String × Expr)} (hfields : ∀ f ∈ fields, IsPart f.2) :
    IsBare (.record line fields) := by
  have hlexemes := Expr.lexemes_record line fields
  refine isBare_of_primary hlexemes (by simp) ?_
  filter_upwards [eventually_forall_mem fun f hf => (hfields f hf).expr,
    eventually_ge_atTop (fields.length + 2)] with bound hreads hbound k hk rest
  have hitem : ∀ f ∈ fields, Read.ReadsItem (Read.recordField (Read.expr bound)) .closeCurly
      (fieldLexeme f) (fun f' => unlinedField f' = unlinedField f) := by
    refine fun f hf => ⟨fun m rest hm => ?_, _, _, rfl, rfl⟩
    refine Read.expectName_reads (Read.expect_reads ?_)
    have hread := hreads f hf (.mark m) rest (by obtain rfl | rfl := hm <;> rfl)
    refine hread.bind fun value' hvalue' => .ret ?_
    rw [unlinedField, unlinedField, hvalue']
  have hread := Read.enclosed_reads .closeCurly (by decide) hitem (show fields.length < k by omega)
    "'\x7d' after record fields" rest
  rw [hlexemes, List.cons_append, between_append]
  refine Read.current_reads fun t ht => ?_
  rw [ht]
  refine Read.take_reads rfl fun t => Read.expect_reads (hread.bind fun fields' hfields' => .ret ?_)
  rw [Relined, unlined_record, unlined_record, map_eq_of_forall₂ hfields']

/-- A path goes on with what is read after it, from its first name on and one dot at a time. -/
theorem path_steps {effect : Expr} (h : effect.IsPath) : ∃ n x tail,
    effect.pathLexemes = .word x :: tail ∧ ∀ line line' k ls rest (Q : Expr → Prop),
      (∀ effect', effect.Relined effect' → Read.Reads (Read.path line k effect') ls rest Q) →
      Read.Reads (Read.path line (k + n) (.name line' x)) (tail ++ ls) rest Q := by
  induction h with
  | @name line₀ x _ =>
    refine ⟨0, x, [], rfl, fun line line' k ls rest Q h => h _ ?_⟩
    rw [Relined, Expr.unlined, Expr.unlined]
  | @field line₀ target x _ _ ih =>
    obtain ⟨n, start, tail, hlexemes, hread⟩ := ih
    refine ⟨n + 1, start, tail ++ [.mark .dot, .word x], ?_, fun line line' k ls rest Q h => ?_⟩
    · rw [Expr.pathLexemes, hlexemes, List.cons_append]
    · rw [List.append_assoc, Nat.add_comm n 1, ← Nat.add_assoc]
      refine hread line line' (k + 1) _ rest Q fun target' htarget' => ?_
      refine Read.accept_reads (Read.expectName_reads (h _ ?_))
      rw [Relined, Expr.unlined, Expr.unlined, htarget']

theorem path_reads {effect : Expr} (h : effect.IsPath) : ∃ n x tail,
    effect.pathLexemes = .word x :: tail ∧ ∀ line line' k l rest, n < k → l.isMark .dot = false →
      Read.Reads (Read.path line k (.name line' x)) (tail ++ l :: rest) (l :: rest)
        effect.Relined := by
  obtain ⟨n, x, tail, hlexemes, hread⟩ := path_steps h
  refine ⟨n, x, tail, hlexemes, fun line line' k l rest hk hl => ?_⟩
  obtain ⟨m, rfl⟩ := Nat.exists_eq_add_of_le' (Nat.succ_le_of_lt hk)
  rw [Nat.succ_eq_add_one, Nat.add_comm n 1, ← Nat.add_assoc]
  exact hread line line' (m + 1) _ _ _ fun _ h => Read.accept_passes hl (.ret h)

/-- The arrow of a clause and its body. -/
theorem clause_end {body : Expr} {bound : Nat} {l : Lexeme} {rest : List Lexeme}
    (hbody : Read.Reads (Read.expr bound) (body.operand ++ l :: rest) (l :: rest) body.Relined)
    {effect effect' : Expr} (heffect : effect.Relined effect') (param : String)
    (resume : Option String) {guard guard' : Option Expr}
    (hguard : guard'.map Expr.unlined = guard.map Expr.unlined) (line line' : Nat) :
    Read.Reads (do
      Read.expect .fatArrow "'=>'"
      let body ← Read.expr bound
      return ({ effect := effect', param, resume, guard := guard', body, line := line' } :
        Clause Expr))
      (.mark .fatArrow :: (body.operand ++ l :: rest)) (l :: rest)
      (fun c => c.unlined = Clause.unlined { effect, param, resume, guard, body, line }) := by
  refine Read.expect_reads (hbody.bind fun body' hbody' => .ret ?_)
  simp only [Clause.unlined, hguard]
  rw [heffect, hbody']

theorem clause_reads {c : Clause Expr} (hc : c.Headed) (hbody : IsPart c.body)
    (hguard : ∀ guard ∈ c.guard, IsPart guard) : ∀ᶠ bound in atTop, ∀ k, bound ≤ k + 1 →
    ∀ l rest, l.followsPart = true →
      Read.Reads (Read.clause (Read.expr bound) k) (c.lexemes ++ l :: rest) (l :: rest)
        (fun c' => c'.unlined = c.unlined) := by
  obtain ⟨effect, param, resume, guard, body, line⟩ := c
  obtain ⟨n, start, tail, hpath, hread⟩ := path_reads hc.effect
  have hguard : ∀ᶠ bound in atTop, ∀ guard' ∈ guard, ∀ l rest, l.followsPart = true →
      Read.Reads (Read.expr bound) (guard'.operand ++ l :: rest) (l :: rest) guard'.Relined := by
    cases guard with
    | none => exact Eventually.of_forall nofun
    | some guard =>
      filter_upwards [(hguard guard rfl).expr] with bound hreads
      rintro _ ⟨⟩
      exact hreads
  filter_upwards [hbody.expr, hguard, eventually_ge_atTop (n + 2)]
    with bound hbody hguard hbound k hk l rest hl
  have hguarded : ∀ effect' line', effect.Relined effect' → Read.Reads (do
      Read.expect .closeParen "')'"
      let guard ←
        if ← Read.acceptKeyword .when then some <$> Read.expr bound
        else pure none
      Read.expect .fatArrow "'=>'"
      let body ← Read.expr bound
      return ({ effect := effect', param, resume, guard, body, line := line' } : Clause Expr))
      (.mark .closeParen :: (guardLexemes guard ++ .mark .fatArrow :: (body.operand ++ l :: rest)))
      (l :: rest)
      (fun c' => c'.unlined = Clause.unlined { effect, param, resume, guard, body, line }) := by
    intro effect' line' heffect
    have hend := fun {guard' : Option Expr} (h : guard'.map unlined = guard.map unlined) =>
      clause_end (hbody l rest hl) heffect param resume h line line'
    refine Read.expect_reads ?_
    cases guard with
    | none =>
      refine Read.acceptKeyword_passes rfl (Read.Reads.bind (P := fun guard' => guard' = none) (.ret rfl) ?_)
      rintro _ rfl
      exact hend rfl
    | some guard =>
      refine Read.acceptKeyword_reads ?_
      have hread := hguard guard rfl (.mark .fatArrow) (body.operand ++ l :: rest) rfl
      refine Read.Reads.bind (P := fun guard' => guard'.map unlined = some guard.unlined)
        (hread.map fun guard' hguard' => ?_) fun guard' hguard' => hend hguard'
      rw [Option.map_some, hguard']
  have hpath : effect.pathLexemes = .word start :: tail := hpath
  rw [Clause.lexemes, hpath]
  simp only [List.cons_append, List.append_assoc]
  refine Read.current_reads fun t ht => Read.expectName_reads ?_
  have hread := fun rest => hread t.line t.line k (.mark .openParen) rest (by omega) rfl
  cases resume with
  | none =>
    rw [boundLexemes, between_append]
    refine (hread _).bind fun effect' heffect => Read.expect_reads (Read.expectName_reads ?_)
    refine Read.accept_passes rfl ?_
    refine Read.Reads.bind (P := fun resume' => resume' = none) (.ret rfl) ?_
    rintro _ rfl
    exact hguarded effect' _ heffect
  | some x =>
    rw [boundLexemes, between_append]
    refine (hread _).bind fun effect' heffect => Read.expect_reads (Read.expectName_reads ?_)
    refine Read.accept_reads ?_
    refine Read.Reads.bind (P := fun resume' => resume' = some x)
      ((Read.name_reads x _ _).map fun y h => by rw [h]) ?_
    rintro _ rfl
    exact hguarded effect' _ heffect

theorem handle_isBare {body : Expr} {clauses : List (Clause Expr)} (hbody : IsPart body)
    (hheads : ∀ c ∈ clauses, c.Headed) (hbodies : ∀ c ∈ clauses, IsPart c.body)
    (hguards : ∀ c ∈ clauses, ∀ guard ∈ c.guard, IsPart guard) :
    IsBare (.handle line body clauses) := by
  have hlexemes := Expr.lexemes_handle line body clauses
  refine ⟨⟨_, _, hlexemes, rfl⟩, eventually_of_succ ?_⟩
  filter_upwards [hbody.expr, eventually_ge_atTop (clauses.length + 1), eventually_forall_mem
    fun c hc => clause_reads (hheads c hc) (hbodies c hc) (hguards c hc)]
    with bound hbody hbound hclauses l rest hl
  have hitem : ∀ c ∈ clauses, Read.ReadsItem (Read.clause (Read.expr bound) bound) .closeCurly
      c.lexemes (fun c' => c'.unlined = c.unlined) := by
    refine fun c hc => ⟨fun m rest hm => ?_, ?_⟩
    · exact hclauses c hc bound (Nat.le_succ _) (.mark m) rest (by obtain rfl | rfl := hm <;> rfl)
    · obtain ⟨n, x, tail, hpath, _⟩ := path_reads (hheads c hc).effect
      exact ⟨.word x, _, by rw [Clause.lexemes, hpath, List.cons_append], rfl⟩
  have hread := Read.enclosed_reads .closeCurly (by decide) hitem
    (show clauses.length < bound by omega) "'\x7d' after handler clauses" (l :: rest)
  rw [hlexemes, List.cons_append, List.append_assoc, List.cons_append, between_append]
  refine Read.current_reads fun t ht => ?_
  simp only [ht]
  refine Read.take_reads rfl fun t => (hbody (.keyword .withClauses) _ rfl).bind fun body' hbody' => ?_
  refine Read.expectKeyword_reads (Read.expect_reads ?_)
  refine hread.bind fun clauses' hclauses' => .ret ?_
  rw [Relined, unlined_handle, unlined_handle, hbody', map_eq_of_forall₂ hclauses']

theorem block_isBare {es : List Expr} (hes : ∀ e ∈ es, IsPart e) : IsBare (.block line es) := by
  have hlexemes := Expr.lexemes_block line es
  refine isBare_of_primary hlexemes (by simp) ?_
  filter_upwards [eventually_forall_mem fun e he => (hes e he).expr,
    eventually_ge_atTop (es.length + 2)] with bound hreads hbound k hk rest
  rw [hlexemes, between_append]
  refine Read.current_reads fun t ht => ?_
  rw [ht]
  refine Read.take_reads rfl fun t => ?_
  refine (Read.statements_reads (R := Relined) (.mark .closeCurly) rest rfl rfl
    (fun e he l hl rest => hreads e he l rest ?_) (fun e he => ?_)
    (show es.length < k by omega) []).bind ?_
  · obtain rfl | rfl := hl <;> rfl
  · obtain ⟨l, tail, hls, hl, _⟩ := operand_opens e
    exact ⟨l, tail, hls, Lexeme.isMark_of_opensPart hl nofun, Lexeme.isEnding_of_opensPart hl⟩
  · rintro _ ⟨es', hes', rfl⟩
    refine Read.expect_reads (.ret ?_)
    rw [Relined, unlined_block, unlined_block, ← map_unlined hes']

theorem list_isBare {es : List Expr} (hes : ∀ e ∈ es, IsPart e) : IsBare (.list line es) := by
  refine IsItem.isBare ?_
  rw [Expr.lexemes_list]
  simpa using list_isItem (f := id) fun e he => (hes e he).isItem

theorem tuple_isBare {es : List Expr} (hes : ∀ e ∈ es, IsPart e) : IsBare (.tuple line es) := by
  refine IsItem.isBare ?_
  rw [Expr.lexemes_tuple]
  simpa using tuple_isItem (f := id) fun e he => (hes e he).isItem

theorem isBare_of_surface (h : e.Surface) : IsBare e := by
  induction h with
  | nothing | bool | str => exact single_isBare rfl
  | name => exact single_isBare rfl
  | @int line n hmin =>
    by_cases hn : 0 ≤ n
    · exact single_isBare (by simpa [isSingle] using hn)
    · exact negative_isBare hn hmin
  | call hcallee _ ih ihargs =>
    exact call_isBare hcallee ih.isPart fun e he => (ihargs e he).isPart
  | operator hm _ _ ihleft ihright => exact operator_isBare hm ihleft.isPart ihright.isPart
  | negation _ ih => exact negation_isBare ih.isPart
  | condElse _ _ _ ihtest ihyes ihno => exact condElse_isBare ihtest.isPart ihyes.isPart ihno.isPart
  | condOnly _ _ ihtest ihyes => exact condOnly_isBare ihtest.isPart ihyes.isPart
  | lambda _ _ ih => exact lambda_isBare ih.isPart
  | block _ ih => exact block_isBare fun e he => (ih e he).isPart
  | declare _ hvalue ih => exact declare_isBare ih.isPart (isNamedLambda_of_surface hvalue)
  | declareFunction _ _ _ ih => exact declareFunction_isBare ih.isPart
  | assign _ _ ih => exact assign_isBare ih.isPart
  | list _ ih => exact list_isBare fun e he => (ih e he).isPart
  | tuple _ ih => exact tuple_isBare fun e he => (ih e he).isPart
  | record _ _ ih => exact record_isBare fun f hf => (ih f hf).isPart
  | field _ _ ih => exact field_isBare ih.isPart
  | handle _ hheads _ _ ihbody ihbodies ihguards =>
    exact handle_isBare ihbody.isPart hheads (fun c hc => (ihbodies c hc).isPart)
      fun c hc guard hguard => (ihguards c hc guard hguard).isPart

end Nodes

namespace Program

variable {program : Program}

/-- Where the lexemes of statements are scanned with semicolons between them, the statements are read. -/
theorem ofTokens_of_reads {xs : List (Expr × List Lexeme)}
    (hopens : ∀ x ∈ xs, ∃ l tail, x.2 = l :: tail ∧ l.opensExpr = true)
    (hreads : ∀ᶠ bound in atTop, ∀ x ∈ xs, ∀ l rest, l.closesExpr = true →
      Read.Reads (Read.expr bound) (x.2 ++ l :: rest) (l :: rest) x.1.Relined)
    {tokens : List Token}
    (htokens : tokens.map Token.lexeme = semicolons (xs.map Prod.snd) ++ [.ending]) :
    ∃ body, ofTokens tokens = .program body ∧
      body.map Expr.unlined = xs.map fun x => x.1.unlined := by
  have hopens : ∀ x ∈ xs, ∃ l tail, x.2 = l :: tail ∧ l.isEnding = false ∧ l.isEnding = false := by
    intro x hx
    obtain ⟨l, tail, hlexemes, hl⟩ := hopens x hx
    have hend : l.isEnding = false := by cases l <;> first | rfl | cases hl
    exact ⟨l, tail, hlexemes, hend, hend⟩
  obtain ⟨bound, hreads, hlength, hbound⟩ := (hreads.and ((eventually_gt_atTop xs.length).and
    (eventually_ge_atTop (2 * tokens.length + 2)))).exists
  have hstatements : Read.Reads (Read.statements (Read.expr bound) Lexeme.isEnding bound [])
      (semicolons (xs.map Prod.snd) ++ [.ending]) [.ending]
      (fun body => ∃ es, List.Forall₂ (fun x e => x.1.Relined e) xs es ∧ body = [].reverse ++ es) :=
    Read.statements_reads .ending [] rfl rfl
      (fun x hx l hl rest => hreads x hx l rest (by obtain rfl | rfl := hl <;> rfl)) hopens hlength []
  obtain ⟨body, s, hrun, _, herrors, _, hbody, rfl⟩ := hstatements ⟨tokens, []⟩ htokens
  have hwithin : readWithin bound tokens = .program body := by
    rw [readWithin, hrun]
    simp only [herrors]
    rfl
  have hfree : ∀ s, Read.Head tokens s → ¬ Read.Stuck s := by
    intro s hhead hstuck
    rw [readWithin_of_stuck hhead hstuck] at hwithin
    cases hwithin
  refine ⟨body, ?_, map_eq_of_forall₂ hbody⟩
  rw [← (readWithin_of_free hfree).2 bound hbound, hwithin]

/-- Where the lexemes of a program are scanned, the program is read. -/
theorem ofTokens_of_written (h : ∀ e ∈ program, e.Surface) {ls : List Lexeme}
    (hls : program.Written ls) {tokens : List Token}
    (htokens : tokens.map Token.lexeme = ls ++ [.ending]) :
    ∃ body, ofTokens tokens = .program body ∧ body.map Expr.unlined = program.map Expr.unlined := by
  obtain ⟨xs, rfl, hwrite, rfl⟩ := hls
  have hbare : ∀ x ∈ xs, IsBare x.1 := fun x hx => isBare_of_surface (h _ (List.mem_map_of_mem hx))
  have hreads : ∀ᶠ bound in atTop, ∀ x ∈ xs, ∀ l rest, l.closesExpr = true →
      Read.Reads (Read.expr bound) (x.2 ++ l :: rest) (l :: rest) x.1.Relined := by
    refine eventually_forall_mem fun x hx => ?_
    obtain hx' | hx' := hwrite x hx <;> rw [hx']
    · exact (hbare x hx).reads
    · exact (hbare x hx).isPart.isItem.reads.mono fun bound hreads l rest hl =>
        hreads l rest (Lexeme.followsPart_of_closes hl)
  have hopens : ∀ x ∈ xs, ∃ l tail, x.2 = l :: tail ∧ l.opensExpr = true := by
    intro x hx
    obtain hx' | hx' := hwrite x hx <;> rw [hx']
    · exact (hbare x hx).opens
    · exact (hbare x hx).isPart.isItem.opens
  rw [List.map_map]
  exact ofTokens_of_reads hopens hreads htokens

/-- A surface program is read back, up to line numbers, from its text, and from every text that scans as
the lexemes with which it can be written. -/
theorem ofSource_of_written (h : ∀ e ∈ program, e.Surface) :
    (∃ body, ofSource program.print = .ok body ∧
      body.map Expr.unlined = program.map Expr.unlined) ∧
    ∀ ls source, program.Written ls →
      (Scan.ofSource source).tokens.map Token.lexeme = ls ++ [.ending] →
      (Scan.ofSource source).errors = [] →
      ∃ body, ofSource source = .ok body ∧ body.map Expr.unlined = program.map Expr.unlined := by
  have hread : ∀ ls source, program.Written ls →
      (Scan.ofSource source).tokens.map Token.lexeme = ls ++ [.ending] →
      (Scan.ofSource source).errors = [] →
      ∃ body, ofSource source = .ok body ∧ body.map Expr.unlined = program.map Expr.unlined := by
    intro ls source hls hlexemes herrors
    obtain ⟨body, hbody, hsame⟩ := ofTokens_of_written h hls hlexemes
    refine ⟨body, ?_, hsame⟩
    simp [ofSource, hbody, herrors]
  refine ⟨?_, hread⟩
  have hwritten : program.Written (semicolons (program.map Expr.lexemes)) := by
    refine ⟨program.map fun e => (e, e.lexemes), ?_, fun x hx => ?_, ?_⟩
    · rw [List.map_map]
      exact List.map_id _
    · obtain ⟨e, _, rfl⟩ := List.mem_map.1 hx
      exact .inl rfl
    · rw [List.map_map]
      rfl
  have hwritable : WritableAll (semicolons (program.map Expr.lexemes)) :=
    writableAll_map fun e he => writable_of_surface (h e he)
  obtain ⟨tokens, hlexemes, hscan⟩ := Scan.ofSource_eq_of_rendered (Lexeme.rendered_spellAll hwritable)
  refine hread _ _ hwritten ?_ ?_ <;> rw [print, hscan]
  exact hlexemes

/-- A program with a function that is declared directly, an operator, a negative number, nested parts of
one item, and a clause with a path, a guard and both names. -/
def asking : Program :=
  [.declare 1 "f" (.lambda 1 (some "f") ["x"]
      (.call 1 (.name 1 "+") [.name 1 "x", .int 1 (-1)])),
    .handle 2 (.block 2 [.call 2 (.name 2 "f") [.int 2 1], .tuple 2 [.str 2 "a\"b"]])
      [{ effect := .field 2 (.name 2 "io") "ask", param := "p", resume := some "k"
         guard := some (.call 2 (.name 2 "not") [.name 2 "p"])
         body := .cond 2 (.name 2 "p") (.name 2 "k") none, line := 2 }]]

theorem asking_surface : ∀ e ∈ asking, e.Surface := by
  have hname : ∀ x ∈ ["f", "x", "io", "ask", "p", "k"], Name x.toList := by decide +kernel
  simp only [List.forall_mem_cons] at hname
  obtain ⟨hf, hx, hio, hask, hp, hk, _⟩ := hname
  have hfunction : Surface (.declare 1 "f" (.lambda 1 (some "f") ["x"]
      (.call 1 (.name 1 "+") [.name 1 "x", .int 1 (-1)]))) :=
    .declareFunction hf (by simpa using hx)
      (.operator (m := .plus) rfl (.name hx) (.int (by decide)))
  have hbody : Surface (.block 2 [.call 2 (.name 2 "f") [.int 2 1], .tuple 2 [.str 2 "a\"b"]]) := by
    refine .block (List.forall_mem_cons.2 ⟨.call (.name hf) ?_, List.forall_mem_singleton.2 (.tuple ?_)⟩)
    · exact List.forall_mem_singleton.2 (.int (by decide))
    · exact List.forall_mem_singleton.2 .str
  refine List.forall_mem_cons.2 ⟨hfunction, List.forall_mem_singleton.2 (.handle hbody ?_ ?_ ?_)⟩ <;>
    refine List.forall_mem_singleton.2 ?_
  · exact ⟨.field (.name hio) hask, hp, by simpa using hk⟩
  · exact .condOnly (.name hp) (.name hk)
  · rintro _ ⟨⟩
    exact .negation (.name hp)

theorem ofSource_of_written_asking :
    (∀ e ∈ asking, e.Surface) ∧
    asking.print = "var f = | x | ( x + ( - 1 ) ) ; handle ( \x7b ( f ( 1 ) ) ; " ++
      "( ( \"a\\\"b\" , ) ) \x7d ) with \x7b io . ask ( p , k ) if ( not p ) => ( if p : k ) \x7d" ∧
    ∃ body, ofSource asking.print = .ok body ∧
      body.map Expr.unlined = asking.map Expr.unlined :=
  ⟨asking_surface, by decide +kernel, (ofSource_of_written asking_surface).1⟩

end Program

end Resumable
