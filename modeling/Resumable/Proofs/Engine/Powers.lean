import Mathlib.Algebra.Order.Ring.Int
import Resumable.Proofs.Engine.Modules

/-!
Powers of integers. With an exponent of at most 32 bits the power is an integer, the one that as many
multiplications come to; it is the exact power, reduced to 64 bits. With any other exponent it is a double.
-/

namespace Resumable

namespace Library

variable {b e : Int64}

theorem mul_self_pow (b : Int64) (n : Nat) : (b * b) ^ n = b ^ (2 * n) := by
  induction n with
  | zero => rfl
  | succ n ih =>
    rw [Int64.pow_succ, ih, Nat.mul_succ, Int64.pow_succ, Int64.pow_succ, Int64.mul_assoc]

/-- The squares of the base that stand for the binary digits of the exponent make up the power. -/
theorem powerFrom_eq {bits exponent : Nat} (acc base : Int64) (hshort : exponent < 2 ^ bits) :
    powerFrom acc base bits exponent = acc * base ^ exponent := by
  induction bits generalizing acc base exponent with
  | zero =>
    obtain rfl : exponent = 0 := by omega
    rw [powerFrom, Int64.pow_zero, Int64.mul_one]
  | succ bits ih =>
    have hhalf : exponent / 2 < 2 ^ bits := by omega
    rw [powerFrom, ih _ _ hhalf, mul_self_pow]
    obtain heven | hodd := Nat.mod_two_eq_zero_or_one exponent
    · rw [if_neg (by omega), show 2 * (exponent / 2) = exponent by omega]
    · have hpow : base ^ exponent = base ^ (2 * (exponent / 2)) * base := by
        rw [← Int64.pow_succ, show 2 * (exponent / 2) + 1 = exponent by omega]
      rw [if_pos hodd, hpow, Int64.mul_assoc, Int64.mul_comm base]

/-- Powers wrap around as products do. -/
theorem toInt_pow (b : Int64) (n : Nat) : (b ^ n).toInt = (b.toInt ^ n).bmod (2 ^ 64) := by
  induction n with
  | zero =>
    rw [Int64.pow_zero, Int.pow_zero]
    rfl
  | succ n ih => rw [Int64.pow_succ, Int64.toInt_mul, ih, Int.bmod_mul_bmod, Int.pow_succ]

theorem pow_of_short (hnonneg : 0 ≤ e.toInt) (hshort : e.toInt < 2 ^ 32) :
    pow (.int b) (.int e) = .ok (.int (b ^ e.toInt.toNat)) := by
  have hmax : e.toInt ≤ maxExponent := by
    unfold maxExponent
    omega
  have hpower : powerFrom 1 b 32 e.toInt.toNat = b ^ e.toInt.toNat := by
    rw [powerFrom_eq 1 b (by omega), Int64.one_mul]
  rw [← hpower]
  exact if_pos ⟨hnonneg, hmax⟩

theorem pow_of_not_short (hother : e.toInt < 0 ∨ 2 ^ 32 ≤ e.toInt) :
    pow (.int b) (.int e) = .ok (.float ((Number.ofInt b).pow (Number.ofInt e))) := by
  refine if_neg fun hshort => ?_
  unfold maxExponent at hshort
  omega

end Library

namespace Machine

/-- Starting from one, so many calls of `times`, each with the value so far and `b`, come to a value. -/
inductive Multiplies (times b : Value) (w : World) : Nat → Value → Prop
  | zero : Multiplies times b w 0 (.int 1)
  | succ {n : Nat} {u v : Value} (h : Multiplies times b w n u) (hcall : Replies times [u, b] w v w) :
    Multiplies times b w (n + 1) v

/-- With the function `*` the multiplications come to the power. -/
theorem multiplies_pow (id : Nat) (name : String) (b : Int64) (w : World) (n : Nat) :
    Multiplies (.native id name 2 (.arithmetic .mul)) (.int b) w n (.int (b ^ n)) := by
  induction n with
  | zero => exact .zero
  | succ n ih =>
    rw [Int64.pow_succ]
    exact .succ ih (replies_native rfl rfl)

end Machine

namespace Engine

open Machine

/-- A program that takes the power of two integers gets the integer that multiplications come to, the
exact power reduced to 64 bits, if the exponent is a natural number of at most 32 bits. Otherwise it gets
a double. -/
theorem powers_of_ints (limits : Limits) (clock : Nat) : ∃ pow times,
    (create limits clock).member? "math" "pow" = some pow ∧
    (create limits clock).get? "*" = some times ∧
    ∀ (b e : Int64) (w : World), ∃ p : Int64,
      p.toInt = (b.toInt ^ e.toInt.toNat).bmod (2 ^ 64) ∧
      Multiplies times (.int b) w e.toInt.toNat (.int p) ∧
      (0 ≤ e.toInt → e.toInt < 2 ^ 32 → Replies pow [.int b, .int e] w (.int p) w) ∧
      (e.toInt < 0 ∨ 2 ^ 32 ≤ e.toInt → Replies pow [.int b, .int e] w
        (.float ((Number.ofInt b).pow (Number.ofInt e))) w) := by
  obtain ⟨_, hpow, id, rfl⟩ : ∃ v, (create limits clock).member? "math" "pow" = some v ∧
      Library.Member.Gives (.function ⟨"pow", 2, .pow⟩) v :=
    member?_create limits clock _ (.head _) (.function ⟨"pow", 2, .pow⟩) (by simp)
  obtain ⟨id', htimes⟩ := (hasEntry_create limits clock).2 ⟨"*", 2, .arithmetic .mul⟩
    (by simp [Library.entries])
  refine ⟨_, _, hpow, htimes, fun b e w => ⟨b ^ e.toInt.toNat, ?_, ?_, ?_, ?_⟩⟩
  · exact Library.toInt_pow b _
  · exact multiplies_pow id' "*" b w _
  · intro hnonneg hshort
    exact replies_native rfl (congrArg (Act.ofExcept · w) (Library.pow_of_short hnonneg hshort))
  · intro hother
    exact replies_native rfl (congrArg (Act.ofExcept · w) (Library.pow_of_not_short hother))

/-- A power whose sign changes when it is reduced, and one that multiplications come to but that the
function takes as a double. -/
theorem powers_of_ints_wrapping : ∃ pow times,
    (create {} 0).member? "math" "pow" = some pow ∧ (create {} 0).get? "*" = some times ∧
    ((0 ≤ (41 : Int64).toInt ∧ (41 : Int64).toInt < 2 ^ 32) ∧
      Replies pow [.int (-3), .int 41] {} (.int 420491770248316829) {}) ∧
    2 ^ 32 ≤ (4294967296 : Int64).toInt ∧
      (∃ p, Multiplies times (.int 3) {} 4294967296 (.int p)) ∧
      Replies pow [.int 3, .int 4294967296] {}
        (.float ((Number.ofInt 3).pow (Number.ofInt 4294967296))) {} := by
  obtain ⟨pow, times, hpow, htimes, hpowers⟩ := powers_of_ints {} 0
  obtain ⟨p, hp, -, hshort, -⟩ := hpowers (-3) 41 {}
  obtain ⟨q, -, hq, -, hlong⟩ := hpowers 3 4294967296 {}
  have hvalue : p = 420491770248316829 := Int64.toInt_inj.1 (hp.trans (by decide +kernel))
  rw [hvalue] at hshort
  exact ⟨pow, times, hpow, htimes, ⟨by decide, hshort (by decide) (by decide)⟩, by decide, ⟨q, hq⟩,
    hlong (.inr (by decide))⟩

end Engine

end Resumable
