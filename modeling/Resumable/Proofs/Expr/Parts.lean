import Mathlib.Order.Filter.AtTopBot.Basic
import Mathlib.Order.Filter.Finite
import Mathlib.Data.Set.Finite.Basic
import Resumable.Proofs.Expr.Reading

/-!
Parts of expressions. A bare expression is read where the end of an expression follows, and a part of one
wherever it is not prolonged by a call, a field, an operator or an assignment. The measure only has to be
large enough.
-/

namespace Resumable

open Filter

section Measure

variable {α : Type}

theorem eventually_of_succ {P : Nat → Prop} (h : ∀ᶠ n in atTop, P (n + 1)) : ∀ᶠ n in atTop, P n := by
  obtain ⟨n, hn⟩ := eventually_atTop.1 h
  refine eventually_atTop.2 ⟨n + 1, fun m hm => ?_⟩
  obtain ⟨k, rfl⟩ := Nat.exists_eq_add_of_le' hm
  exact hn (k + n) (Nat.le_add_left _ _)

theorem eventually_forall_mem {P : α → Nat → Prop} {xs : List α} (h : ∀ x ∈ xs, ∀ᶠ n in atTop, P x n) :
    ∀ᶠ n in atTop, ∀ x ∈ xs, P x n :=
  (eventually_all_finite (List.finite_toSet xs)).2 h

end Measure

theorem map_eq_of_forall₂ {α β γ : Type} {f : α → γ} {g : β → γ} {xs : List α} {ys : List β}
    (h : List.Forall₂ (fun x y => g y = f x) xs ys) : ys.map g = xs.map f := by
  induction h with
  | nil => rfl
  | cons h _ ih => rw [List.map_cons, List.map_cons, ih, h]

namespace Expr

/-- The second expression is the first up to line numbers. -/
def Relined (e e' : Expr) : Prop :=
  e'.unlined = e.unlined

theorem map_unlined {es es' : List Expr} (h : List.Forall₂ Relined es es') :
    es'.map unlined = es.map unlined :=
  map_eq_of_forall₂ h

end Expr

open Resumable.Expr

/-- The lexemes with which expressions begin. -/
def Lexeme.opensExpr : Lexeme → Bool
  | .int _ | .str _ | .word _ | .keyword _ => true
  | .mark m => m = .openParen ∨ m = .openSquare ∨ m = .openCurly ∨ m = .pipe ∨ m = .minus
  | .float _ | .ending => false

/-- The lexemes that end a whole expression. -/
def Lexeme.closesExpr : Lexeme → Bool
  | .mark m => m = .closeParen ∨ m = .semicolon
  | .ending => true
  | _ => false

/-- The lexemes that may stand after a part of an expression without prolonging it. -/
def Lexeme.followsPart (l : Lexeme) : Bool :=
  !(Read.prolongs l || (Operator.ofLexeme? l).isSome || l.isMark .equal)

/-- The part of an expression is read as an operand, whatever comes after it. -/
def IsPart (e : Expr) : Prop :=
  ∀ᶠ bound in atTop, ∀ k rest,
    Read.Reads (Read.primary (Read.expr bound) k) (e.operand ++ rest) rest e.Relined

/-- The bare expression is read where the end of an expression comes after it. -/
structure IsBare (e : Expr) : Prop where
  opens : ∃ l tail, e.lexemes = l :: tail ∧ l.opensExpr = true
  reads : ∀ᶠ bound in atTop, ∀ l rest, l.closesExpr = true →
    Read.Reads (Read.expr bound) (e.lexemes ++ l :: rest) (l :: rest) e.Relined

section Parts

variable {e : Expr}

theorem operand_of_single (h : e.isSingle = true) : e.operand = e.lexemes := by
  rw [Expr.operand, h]
  rfl

theorem operand_of_compound (h : e.isSingle = false) :
    e.operand = between .openParen .closeParen e.lexemes := by
  rw [Expr.operand, h]
  rfl

/-- The lexemes with which parts of expressions begin. -/
def Lexeme.opensPart : Lexeme → Bool
  | .int _ | .str _ | .word _ | .keyword .nothing | .keyword .yes | .keyword .no
  | .mark .openParen => true
  | _ => false

theorem Lexeme.isMark_of_opensPart {l : Lexeme} {m : Mark} (h : l.opensPart = true)
    (hm : m ≠ .openParen) : l.isMark m = false := by
  refine Bool.eq_false_iff.2 fun hmark => ?_
  rw [Read.eq_of_isMark hmark] at h
  cases m <;> first | exact hm rfl | cases h

theorem Lexeme.isEnding_of_opensPart {l : Lexeme} (h : l.opensPart = true) : l.isEnding = false := by
  cases l <;> first | rfl | cases h

/-- A single lexeme is read as the expression it stands for. -/
theorem single_lexeme (h : e.isSingle = true) : ∃ l, e.lexemes = [l] ∧ l.opensPart = true ∧
    ∀ expr k rest, Read.Reads (Read.primary expr k) (l :: rest) rest e.Relined := by
  cases e with
  | nothing line =>
    refine ⟨.keyword .nothing, by rw [Expr.lexemes], rfl, fun _ _ _ => ?_⟩
    exact Read.current_reads fun t ht => by rw [ht]; exact Read.take_reads rfl fun _ => .ret rfl
  | bool line b =>
    cases b with
    | false =>
      refine ⟨.keyword .no, by rw [Expr.lexemes]; rfl, rfl, fun _ _ _ => ?_⟩
      exact Read.current_reads fun t ht => by rw [ht]; exact Read.take_reads rfl fun _ => .ret rfl
    | true =>
      refine ⟨.keyword .yes, by rw [Expr.lexemes]; rfl, rfl, fun _ _ _ => ?_⟩
      exact Read.current_reads fun t ht => by rw [ht]; exact Read.take_reads rfl fun _ => .ret rfl
  | int line n =>
    have hn : 0 ≤ n := by simpa [isSingle] using h
    refine ⟨.int n, by rw [Expr.lexemes, if_pos hn], rfl, fun _ _ _ => ?_⟩
    exact Read.current_reads fun t ht => by rw [ht]; exact Read.take_reads rfl fun _ => .ret rfl
  | str line s =>
    refine ⟨.str s, by rw [Expr.lexemes], rfl, fun _ _ _ => ?_⟩
    exact Read.current_reads fun t ht => by rw [ht]; exact Read.take_reads rfl fun _ => .ret rfl
  | name line x =>
    refine ⟨.word x, by rw [Expr.lexemes], rfl, fun _ _ _ => ?_⟩
    exact Read.current_reads fun t ht => by rw [ht]; exact Read.take_reads rfl fun _ => .ret rfl
  | _ => cases h

theorem operand_opens (e : Expr) : ∃ l tail, e.operand = l :: tail ∧ l.opensPart = true ∧
    ∀ x, l = .word x → tail = [] := by
  cases hsingle : e.isSingle with
  | false => exact ⟨_, _, operand_of_compound hsingle, rfl, fun x hx => nomatch hx⟩
  | true =>
    obtain ⟨l, hlexemes, hl, _⟩ := single_lexeme hsingle
    exact ⟨l, [], (operand_of_single hsingle).trans hlexemes, hl, fun _ _ => rfl⟩

theorem isPart_of_single (h : e.isSingle = true) : IsPart e := by
  obtain ⟨l, hlexemes, _, hread⟩ := single_lexeme h
  refine Eventually.of_forall fun bound k rest => ?_
  rw [operand_of_single h, hlexemes]
  exact hread _ _ _

/-- In parentheses a bare expression is a part of others. -/
theorem IsBare.isPart (h : IsBare e) : IsPart e := by
  cases hsingle : e.isSingle with
  | true => exact isPart_of_single hsingle
  | false =>
    obtain ⟨l, tail, hlexemes, hl⟩ := h.opens
    have hclose : l.isMark .closeParen = false := by
      refine Bool.eq_false_iff.2 fun hclose => ?_
      rw [Read.eq_of_isMark hclose] at hl
      cases hl
    refine h.reads.mono fun bound hreads k rest => ?_
    rw [operand_of_compound hsingle, between_append]
    refine Read.current_reads fun t ht => ?_
    rw [ht]
    refine Read.take_reads rfl fun _ => ?_
    have hbody := hreads (.mark .closeParen) rest rfl
    rw [hlexemes, List.cons_append] at hbody ⊢
    exact Read.accept_passes hclose (hbody.bind fun e' he' => Read.accept_reads (.ret he'))

/-- A part and the calls and fields after it. -/
theorem unary_operand {expr : Read Expr} {k : Nat} {mid rest : List Lexeme} {P Q : Expr → Prop}
    (hprimary : Read.Reads (Read.primary expr k) (e.operand ++ mid) mid P)
    (hpost : ∀ e', P e' → Read.Reads (Read.postfixes expr k e') mid rest Q) :
    Read.Reads (Read.unary expr (k + 1)) (e.operand ++ mid) rest Q := by
  obtain ⟨l, tail, hlexemes, hopens, _⟩ := operand_opens e
  have hplain : l.isMark .minus = false ∧ l.isKeyword .negate = false := by
    cases l with
    | keyword w => cases w <;> first | exact ⟨rfl, rfl⟩ | cases hopens
    | mark m => cases m <;> first | exact ⟨rfl, rfl⟩ | cases hopens
    | _ => exact ⟨rfl, rfl⟩
  rw [hlexemes, List.cons_append] at hprimary ⊢
  exact Read.unary_plain hplain.1 hplain.2 hprimary hpost

theorem IsPart.unary (h : IsPart e) : ∀ᶠ bound in atTop, ∀ k l rest, Read.prolongs l = false →
    Read.Reads (Read.unary (Read.expr bound) (k + 2)) (e.operand ++ l :: rest) (l :: rest)
      e.Relined :=
  h.mono fun _ hprimary k l rest hl => unary_operand (hprimary (k + 1) (l :: rest)) fun e' he' =>
    (Read.postfixes_stop hl e').imp fun _ heq => heq ▸ he'

theorem opensForm_operand (e : Expr) {ls : List Lexeme}
    (hls : ∀ l more, ls = l :: more → l.isMark .equal = false) :
    Read.opensForm (e.operand ++ ls) = false := by
  obtain ⟨l, tail, hlexemes, hl, htail⟩ := operand_opens e
  rw [hlexemes, List.cons_append]
  unfold Read.opensForm
  split
  next h => rw [(List.cons.inj h).1] at hl; cases hl
  next h => rw [(List.cons.inj h).1] at hl; cases hl
  next h => rw [(List.cons.inj h).1] at hl; cases hl
  next h => rw [(List.cons.inj h).1] at hl; cases hl
  next h => rw [(List.cons.inj h).1] at hl; cases hl
  next h =>
    obtain ⟨hword, hequal⟩ := List.cons.inj h
    rw [htail _ hword] at hequal
    cases hls _ _ hequal
  next => rfl

/-- What may follow a part prolongs it in no way. -/
theorem Lexeme.followsPart_iff {l : Lexeme} : l.followsPart = true ↔
    Read.prolongs l = false ∧ Operator.ofLexeme? l = none ∧ l.isMark .equal = false := by
  simp [followsPart, and_assoc]

theorem Lexeme.followsPart_of_closes {l : Lexeme} (h : l.closesExpr = true) : l.followsPart = true := by
  cases l with
  | mark m => cases m <;> first | rfl | cases h
  | ending => rfl
  | _ => cases h

/-- What is read without operators between operands is an expression. -/
theorem expr_of_unary {ls rest : List Lexeme} {l : Lexeme} {bound : Nat} {Q : Expr → Prop}
    (hform : Read.opensForm ls = false) (hne : ls ≠ []) (hl : Operator.ofLexeme? l = none)
    (h : Read.Reads (Read.unary (Read.expr (bound + 1)) (bound + 1)) ls (l :: rest) Q) :
    Read.Reads (Read.expr (bound + 2)) ls (l :: rest) Q := by
  obtain ⟨l', tail, rfl⟩ := List.exists_cons_of_ne_nil hne
  exact Read.expr_operators hform (Read.binary_operand hl h _)

theorem IsPart.expr (h : IsPart e) : ∀ᶠ bound in atTop, ∀ l rest, l.followsPart = true →
    Read.Reads (Read.expr bound) (e.operand ++ l :: rest) (l :: rest) e.Relined := by
  refine eventually_of_succ ?_
  filter_upwards [h.unary, eventually_ge_atTop 2] with bound hunary hbound l rest hl
  obtain ⟨k, rfl⟩ := Nat.exists_eq_add_of_le' hbound
  obtain ⟨hprolongs, hoperator, hequal⟩ := Lexeme.followsPart_iff.1 hl
  have hform : Read.opensForm (e.operand ++ l :: rest) = false := by
    refine opensForm_operand e fun l' more hls => ?_
    rw [← (List.cons.inj hls).1]
    exact hequal
  refine expr_of_unary hform ?_ hoperator (hunary k l rest hprolongs)
  simp

end Parts

end Resumable
