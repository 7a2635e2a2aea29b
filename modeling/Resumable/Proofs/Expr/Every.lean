import Mathlib.Tactic.Common
import Resumable.Expr

/-!
Properties of an expression and of all expressions in it.
-/

namespace Resumable

namespace Expr

/-- The expressions directly inside an expression. -/
def parts : Expr → List Expr
  | call _ callee args => callee :: args
  | cond _ test whenTrue whenFalse => test :: whenTrue :: whenFalse.toList
  | lambda _ _ _ body => [body]
  | block _ body => body
  | declare _ _ value | assign _ _ value => [value]
  | list _ items | tuple _ items => items
  | record _ fields => fields.map Prod.snd
  | field _ target _ => [target]
  | handle _ body clauses =>
    body :: clauses.flatMap fun c => c.effect :: c.body :: c.guard.toList
  | handled _ clauses body => body :: clauses.flatMap fun c => [c.1, c.2]
  | _ => []

theorem sizeOf_lt_of_mem_parts {e part : Expr} (hmem : part ∈ e.parts) :
    sizeOf part < sizeOf e := by
  cases e with
  | call line callee args =>
    simp only [parts, List.mem_cons] at hmem
    obtain rfl | hmem := hmem
    · simp only [call.sizeOf_spec]
      omega
    · have hlt := List.sizeOf_lt_of_mem hmem
      simp only [call.sizeOf_spec]
      omega
  | cond line test whenTrue whenFalse =>
    simp only [parts, List.mem_cons, Option.mem_toList] at hmem
    obtain rfl | rfl | rfl := hmem
    · simp only [cond.sizeOf_spec]
      omega
    · simp only [cond.sizeOf_spec]
      omega
    · simp only [cond.sizeOf_spec, Option.some.sizeOf_spec]
      omega
  | record line fields =>
    obtain ⟨⟨name, e⟩, hfield, rfl⟩ := List.mem_map.1 hmem
    have hlt := List.sizeOf_lt_of_mem hfield
    simp only [record.sizeOf_spec, Prod.mk.sizeOf_spec] at hlt ⊢
    omega
  | handle line body clauses =>
    simp only [parts, List.mem_cons, List.mem_flatMap] at hmem
    obtain rfl | ⟨⟨effect, param, resume, guard, clauseBody, clauseLine⟩, hclause, hmem⟩ := hmem
    · simp only [handle.sizeOf_spec]
      omega
    · have hlt := List.sizeOf_lt_of_mem hclause
      simp only [Option.mem_toList] at hmem
      obtain rfl | rfl | rfl := hmem
      · simp only [handle.sizeOf_spec, Clause.mk.sizeOf_spec] at hlt ⊢
        omega
      · simp only [handle.sizeOf_spec, Clause.mk.sizeOf_spec] at hlt ⊢
        omega
      · simp only [handle.sizeOf_spec, Clause.mk.sizeOf_spec, Option.some.sizeOf_spec] at hlt ⊢
        omega
  | handled line clauses body =>
    simp only [parts, List.mem_cons, List.mem_flatMap, List.not_mem_nil, or_false] at hmem
    obtain rfl | ⟨⟨effect, function⟩, hclause, hmem⟩ := hmem
    · simp only [handled.sizeOf_spec]
      omega
    · have hlt := List.sizeOf_lt_of_mem hclause
      simp only [handled.sizeOf_spec, Prod.mk.sizeOf_spec] at hlt ⊢
      obtain rfl | rfl := hmem
      · omega
      · omega
  | block line items | list line items | tuple line items =>
    have hlt : sizeOf part < sizeOf items := List.sizeOf_lt_of_mem hmem
    simp only [block.sizeOf_spec, list.sizeOf_spec, tuple.sizeOf_spec]
    omega
  | lambda | declare | assign | field =>
    obtain rfl := List.mem_singleton.1 hmem
    simp only [lambda.sizeOf_spec, declare.sizeOf_spec, assign.sizeOf_spec, field.sizeOf_spec]
    omega
  | nothing | bool | int | float | str | name => cases hmem

/-- A property of an expression and of all expressions in it. -/
inductive Every (P : Expr → Prop) : Expr → Prop
  | intro {e : Expr} (hhere : P e) (hparts : ∀ part ∈ e.parts, Every P part) : Every P e

namespace Every

variable {P Q : Expr → Prop} {e : Expr}

theorem here (h : e.Every P) : P e := by
  cases h with
  | intro hhere _ => exact hhere

theorem part (h : e.Every P) {part : Expr} (hmem : part ∈ e.parts) : part.Every P := by
  cases h with
  | intro _ hparts => exact hparts part hmem

theorem pair {line : Nat} {pairs : List (Expr × Expr)} {body : Expr}
    (h : (Expr.handled line pairs body).Every P) {p : Expr × Expr} (hmem : p ∈ pairs) :
    p.1.Every P ∧ p.2.Every P := by
  have hpart : ∀ e ∈ [p.1, p.2], e ∈ (Expr.handled line pairs body).parts := by
    intro e he
    exact List.mem_cons_of_mem _ (List.mem_flatMap.2 ⟨p, hmem, he⟩)
  exact ⟨h.part (hpart _ (by simp)), h.part (hpart _ (by simp))⟩

/-- What holds of all expressions inside holds of each with all inside it. -/
theorem every (h : e.Every P) : e.Every (Every P) := by
  induction h with
  | intro hhere hparts ih => exact .intro (.intro hhere hparts) ih

theorem mono (h : e.Every P) (himp : ∀ e, P e → Q e) : e.Every Q := by
  induction h with
  | intro hhere _ ih => exact .intro (himp _ hhere) ih

end Every

theorem every_of_forall {P : Expr → Prop} (hall : ∀ e, P e) (e : Expr) : e.Every P :=
  .intro (hall e) fun part hmem =>
    have := sizeOf_lt_of_mem_parts hmem
    every_of_forall hall part
termination_by sizeOf e

end Expr

end Resumable
