import Resumable.Proofs.Expr.Lowered
import Resumable.Proofs.Expr.Reader

/-!
Names that no program can write. They start with a character that no word starts with, so what is read
from a source text has none of them, and lowering can make up as many as it needs.
-/

namespace Resumable

/-- Names that are kept for the compiler. -/
def Reserved (name : String) : Prop :=
  name.toList.head? = some '$'

instance (name : String) : Decidable (Reserved name) :=
  inferInstanceAs (Decidable (_ = _))

theorem reserved_append {start : String} (hstart : Reserved start) (rest : String) :
    Reserved (start ++ rest) := by
  unfold Reserved at hstart ⊢
  rw [String.toList_append, List.head?_append, hstart, Option.some_or]

section Words

variable {c : Char} {cs : List Char} {x : String}

theorem Piece.stringFrom_ne_word (count : Nat) (text : List Char)
    (problems : List (Nat × SyntaxProblem)) :
    (Piece.stringFrom count text problems cs).lexeme ≠ some (.word x) := by
  fun_induction Piece.stringFrom <;> simp_all

theorem Piece.sign_ne_word : (Piece.sign c cs).lexeme ≠ some (.word x) := by
  unfold Piece.sign Piece.withEqual Piece.ofMark Piece.ofLongMark
  split <;> (try split) <;> (try split) <;> simp

/-- A word starts with a character that no reserved name starts with. -/
theorem Piece.not_reserved_of_start (h : (Piece.start c cs).lexeme = some (.word x)) :
    ¬ Reserved x := by
  unfold Piece.start at h
  split at h
  · cases h
  split at h
  · unfold Piece.slash at h
    split at h <;> cases h
  split at h
  · exact (Piece.stringFrom_ne_word 0 [] [] h).elim
  split at h
  · unfold Piece.number at h
    split at h
    · cases h
    · simp only [] at h
      split at h <;> cases h
  split at h
  next hopens =>
    unfold Piece.word at h
    simp only [] at h
    split at h
    · cases h
    · cases h
      intro hreserved
      rw [Reserved, String.toList_ofList] at hreserved
      cases hreserved
      revert hopens
      decide
  next => exact (Piece.sign_ne_word h).elim

theorem Scan.not_reserved_of_follow {tokens : List Token} {errors : List SyntaxError} {p : Position}
    {skip : Nat} (htokens : ∀ t ∈ tokens, ∀ x, t.lexeme = .word x → ¬ Reserved x) :
    ∀ t ∈ (Scan.follow tokens errors p skip cs).tokens, ∀ x, t.lexeme = .word x → ¬ Reserved x := by
  induction cs generalizing tokens errors p skip with
  | nil =>
    unfold Scan.follow
    intro t ht
    obtain rfl | ht := List.mem_cons.1 (List.mem_reverse.1 ht)
    · nofun
    · exact htokens t ht
  | cons c cs ih =>
    cases skip with
    | succ skip => exact ih htokens
    | zero =>
      refine ih ?_
      split
      next lexeme hlexeme =>
        refine List.forall_mem_cons.2 ⟨?_, htokens⟩
        rintro x rfl
        exact Piece.not_reserved_of_start hlexeme
      next => exact htokens

end Words

/-- No name in a program that is read from a source text is reserved. -/
theorem Program.ofSource_worded {source : String} {program : Program}
    (hread : Program.ofSource source = .ok program) :
    ∀ e ∈ program, e.Worded fun x => ¬ Reserved x :=
  ofTokens_worded (by decide) (Scan.not_reserved_of_follow (by simp)) (ofTokens_of_ofSource hread)

end Resumable
